import ForgeDB.Data.Encoding
import Mathlib.Data.List.Infix
import Mathlib.Data.List.Nodup

/-!
The gateway's search for the leader. A request is forwarded to one backend after another until one gives a final
answer; a backend that is not the leader may name one to try next, and one whose response is lost looks like one
that was never reached.
-/

namespace ForgeDB.Gateway

def defaultMaxBodyBytes : Nat := 4 * 2 ^ 20

def maxAttempts : Nat := 8

def statusMisdirectedRequest : Nat := 421

structure NotLeaderBody where
  error : String
  leaderID : String
  leaderHTTP : String
  deriving DecidableEq, Repr

structure Proxy where
  backends : List String
  maxBodyBytes : Nat := defaultMaxBodyBytes
  deriving DecidableEq, Repr

/-! ### Hints and candidates -/

def isSpace (c : Char) : Bool :=
  c.toNat ∈ [0x09, 0x0a, 0x0b, 0x0c, 0x0d, 0x20, 0x85, 0xa0, 0x1680, 0x2028, 0x2029, 0x202f, 0x205f, 0x3000] ||
    0x2000 ≤ c.toNat && c.toNat ≤ 0x200a

def trimSpace (text : List Char) : List Char :=
  ((text.dropWhile isSpace).reverse.dropWhile isSpace).reverse

/-- The leader named by the body of a 421, or "". The JSON decoder is the caller's. -/
def parseLeaderHint (unmarshal : Bytes → Option NotLeaderBody) (body : Bytes) : String :=
  match unmarshal body with
  | none => ""
  | some nl =>
    let hint := trimSpace nl.leaderHTTP.toList
    if hint = [] then ""
    else if "://".toList <:+: hint then String.ofList hint
    else String.ofList ("http://".toList ++ hint)

/-- The body of a 421 as a node writes it, for texts that JSON leaves as they are. -/
def notLeaderJSON (nl : NotLeaderBody) : Bytes :=
  ("\x7b\"error\":\"" ++ nl.error ++ "\"" ++
    (if nl.leaderID = "" then "" else ",\"leader_id\":\"" ++ nl.leaderID ++ "\"") ++
    (if nl.leaderHTTP = "" then "" else ",\"leader_http\":\"" ++ nl.leaderHTTP ++ "\"") ++
    "\x7d\n").toUTF8.data.toList

/-- What the JSON decoder makes of the bodies of these 421s; it is not asked about any other. -/
def unmarshalAmong (bodies : List NotLeaderBody) (body : Bytes) : Option NotLeaderBody :=
  bodies.find? fun nl => notLeaderJSON nl = body

theorem parseLeaderHint_of_url {unmarshal : Bytes → Option NotLeaderBody} {body : Bytes} {nl : NotLeaderBody}
    (decoded : unmarshal body = some nl) (trimmed : trimSpace nl.leaderHTTP.toList = nl.leaderHTTP.toList)
    (schemed : "://".toList <:+: nl.leaderHTTP.toList) : parseLeaderHint unmarshal body = nl.leaderHTTP := by
  have some_ : nl.leaderHTTP.toList ≠ [] := by
    intro empty
    rw [empty] at schemed
    exact absurd (List.infix_nil.mp schemed) (by decide)
  simp only [parseLeaderHint, decoded, trimmed, if_neg some_, if_pos schemed, String.ofList_toList]

namespace Proxy

def isTrustedBackend (p : Proxy) (addr : String) : Bool := p.backends.any fun b => b = addr

def candidateOrder (p : Proxy) (guess : String) : List String :=
  (if guess ≠ "" then [guess] else []) ++ p.backends.filter fun b => b ≠ guess

end Proxy

/-! ### Attempts -/

structure RequestBody where
  data : Bytes
  fault : Option String := none
  deriving DecidableEq, Repr

def readLimited (body : RequestBody) (limit : Nat) : Except String Bytes :=
  if limit < body.data.length then .error s!"request body exceeds {limit} bytes"
  else
    match body.fault with
    | some error => .error error
    | none => .ok body.data

structure Response where
  status : Nat
  body : Bytes
  deriving DecidableEq, Repr

/-- What becomes of a forwarded request: it does not get there; it is executed and the response is lost, reset or
late; the backend is not the leader; or it is executed and answered. -/
inductive Outcome where
  | refused (error : String)
  | lost (error : String)
  | misdirected (body : Bytes)
  | answered (response : Response) (final : response.status ≠ statusMisdirectedRequest)
  deriving DecidableEq, Repr

namespace Outcome

def forward : Outcome → Except String Response
  | refused error | lost error => .error error
  | misdirected body => .ok ⟨statusMisdirectedRequest, body⟩
  | answered response _ => .ok response

def isLost : Outcome → Bool
  | lost _ => true
  | _ => false

def isAnswered : Outcome → Bool
  | answered _ _ => true
  | _ => false

def executes (o : Outcome) : Bool := o.isLost || o.isAnswered

end Outcome

/-! ### The search -/

inductive Reply where
  | relayed (response : Response)
  | gatewayError (status : Nat) (code detail : String)
  deriving DecidableEq, Repr

structure Search where
  order : List String
  tried : List String
  lastErr : Option String
  sawNotLeader : Bool
  deriving DecidableEq, Repr

def Search.giveUp (v : Search) : Reply :=
  if v.sawNotLeader then
    .gatewayError 503 "no_leader_available" ("every reachable node reported it is not the current Raft leader, " ++
      "with no usable leader hint (likely mid-election) -- retry shortly")
  else
    match v.lastErr with
    | some error => .gatewayError 502 "no_backend_reachable" error
    | none =>
      .gatewayError 503 "no_leader_available" "no configured backend identified itself as the current Raft leader"

structure Served where
  reply : Reply
  guess : String
  sent : List (String × Outcome)
  deriving DecidableEq, Repr

def Served.addresses (s : Served) : List String := s.sent.map Prod.fst

def Served.executions (s : Served) : Nat := s.sent.countP fun attempt => attempt.2.executes

namespace Proxy

/-- The body of the loop once a candidate was forwarded to: the search goes on, or there is a reply. -/
def turn (p : Proxy) (unmarshal : Bytes → Option NotLeaderBody) (v : Search) (guess addr : String) (outcome : Outcome) :
    (Search ⊕ Reply) × String :=
  match outcome.forward with
  | .error error => (.inl { v with lastErr := some error }, guess)
  | .ok response =>
    if response.status = statusMisdirectedRequest then
      let hint := parseLeaderHint unmarshal response.body
      if hint ≠ "" ∧ hint ∉ v.tried ∧ p.isTrustedBackend hint = true then
        (.inl { v with sawNotLeader := true, order := hint :: v.order }, hint)
      else (.inl { v with sawNotLeader := true }, guess)
    else (.inr (.relayed response), addr)

def loop (p : Proxy) (unmarshal : Bytes → Option NotLeaderBody) (outcomes : Nat → Outcome) :
    Nat → Search → String → List (String × Outcome) → Served
  | 0, v, guess, sent => ⟨v.giveUp, guess, sent⟩
  | left + 1, v, guess, sent =>
    match v.order with
    | [] => ⟨v.giveUp, guess, sent⟩
    | addr :: order =>
      if addr ∈ v.tried then p.loop unmarshal outcomes left { v with order := order } guess sent
      else
        let outcome := outcomes sent.length
        let sent := sent ++ [(addr, outcome)]
        match p.turn unmarshal { v with order := order, tried := addr :: v.tried } guess addr outcome with
        | (.inl v, guess) => p.loop unmarshal outcomes left v guess sent
        | (.inr reply, guess) => ⟨reply, guess, sent⟩

/-- `outcomes n` is what becomes of the request when it is forwarded for the `n`th time, counted from 0. -/
def serveHTTP (p : Proxy) (unmarshal : Bytes → Option NotLeaderBody) (guess : String) (body : RequestBody)
    (outcomes : Nat → Outcome) : Served :=
  match readLimited body p.maxBodyBytes with
  | .error error => ⟨.gatewayError 413 "request_too_large" error, guess, []⟩
  | .ok _ => p.loop unmarshal outcomes maxAttempts ⟨p.candidateOrder guess, [], none, false⟩ guess []

inductive Turn (p : Proxy) (unmarshal : Bytes → Option NotLeaderBody) (v : Search) (guess addr : String) :
    Outcome → (Search ⊕ Reply) × String → Prop where
  | failed {outcome : Outcome} {error : String} (silent : outcome.isAnswered = false)
    (fails : outcome.forward = .error error) :
    Turn p unmarshal v guess addr outcome (.inl { v with lastErr := some error }, guess)
  | hinted {body : Bytes} {hint : String} (names : parseLeaderHint unmarshal body = hint) (some : hint ≠ "")
    (new : hint ∉ v.tried) (trusted : hint ∈ p.backends) :
    Turn p unmarshal v guess addr (.misdirected body)
      (.inl { v with sawNotLeader := true, order := hint :: v.order }, hint)
  | unhinted {body : Bytes} :
    Turn p unmarshal v guess addr (.misdirected body) (.inl { v with sawNotLeader := true }, guess)
  | answered {response : Response} (final : response.status ≠ statusMisdirectedRequest) :
    Turn p unmarshal v guess addr (.answered response final) (.inr (.relayed response), addr)

theorem isTrustedBackend_iff {p : Proxy} {addr : String} : p.isTrustedBackend addr = true ↔ addr ∈ p.backends := by
  simp only [isTrustedBackend, List.any_eq_true, decide_eq_true_eq, exists_eq_right]

theorem turn_turns (p : Proxy) (unmarshal : Bytes → Option NotLeaderBody) (v : Search) (guess addr : String)
    (outcome : Outcome) : Turn p unmarshal v guess addr outcome (p.turn unmarshal v guess addr outcome) := by
  unfold turn
  cases outcome with
  | refused error | lost error => exact .failed rfl rfl
  | misdirected body =>
    simp only [Outcome.forward, if_true]
    split
    · rename_i usable
      exact .hinted rfl usable.1 usable.2.1 (isTrustedBackend_iff.mp usable.2.2)
    · exact .unhinted
  | answered response final =>
    simp only [Outcome.forward, if_neg final]
    exact .answered final

section

variable {p : Proxy} {guess : String}

theorem mem_candidateOrder {addr : String} :
    addr ∈ p.candidateOrder guess ↔ addr = guess ∧ guess ≠ "" ∨ addr ∈ p.backends ∧ addr ≠ guess := by
  unfold candidateOrder
  by_cases none : guess = ""
  · simp [none]
  · simp [none]

theorem candidateOrder_nodup (distinct : p.backends.Nodup) : (p.candidateOrder guess).Nodup := by
  unfold candidateOrder
  refine List.nodup_append.mpr ⟨?_, distinct.filter _, ?_⟩
  · split
    · exact List.nodup_singleton guess
    · exact List.nodup_nil
  · intro addr first other later same
    split at first
    · rw [List.mem_singleton] at first
      exact of_decide_eq_true (List.mem_filter.mp later).2 (same ▸ first)
    · cases first

theorem mem_backends_of_mem_candidateOrder (known : guess = "" ∨ guess ∈ p.backends) {addr : String}
    (present : addr ∈ p.candidateOrder guess) : addr ∈ p.backends := by
  rcases mem_candidateOrder.mp present with ⟨rfl, some⟩ | ⟨configured, _⟩
  · exact known.resolve_left some
  · exact configured

theorem mem_candidateOrder_of_mem_backends (whole : guess ≠ "" ∨ "" ∉ p.backends) {b : String}
    (present : b ∈ p.backends) : b ∈ p.candidateOrder guess := by
  by_cases same : b = guess
  · refine mem_candidateOrder.mpr (Or.inl ⟨same, fun empty => ?_⟩)
    rw [same, empty] at present
    exact whole.elim (fun some => some empty) fun absent => absent present
  · exact mem_candidateOrder.mpr (Or.inr ⟨present, same⟩)

end

end Proxy

end ForgeDB.Gateway
