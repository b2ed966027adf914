import ForgeDB.Gateway.Executions
import Mathlib.Logic.Function.Basic

/-!
Many requests at once. Each has a search of its own, and all of them share the guess. Between any two steps of
one request the others may take any steps of theirs. What a request does without reading or storing the guess is
its own, so one step has at most one of either.
-/

namespace ForgeDB.Gateway

def Outcome.received : Except String Response → Outcome
  | .error error => .refused error
  | .ok response =>
    if final : response.status ≠ statusMisdirectedRequest then .answered response final else .misdirected response.body

theorem Outcome.forward_received (result : Except String Response) : (received result).forward = result := by
  cases result with
  | error error => rfl
  | ok response =>
    by_cases misdirected : response.status = statusMisdirectedRequest
    · rw [received, dif_neg (not_not.mpr misdirected), forward, ← misdirected]
    · rw [received, dif_pos misdirected, forward]

inductive Handling where
  | searching (left : Nat) (v : Search) (sent : List String)
  | awaiting (left : Nat) (v : Search) (addr : String) (sent : List String)
  | done (reply : Reply) (sent : List String)
  deriving DecidableEq, Repr

def Handling.sent : Handling → List String
  | searching _ _ sent | awaiting _ _ _ sent | done _ sent => sent

def Handling.reply : Handling → Option Reply
  | done reply _ => some reply
  | _ => none

structure Service where
  guess : String
  requests : Nat → Option Handling

def newService : Service := ⟨"", fun _ => none⟩

/-- A request arrives, makes one pass of its loop up to the forwarding, or gets what the backend responds. -/
inductive Event where
  | arrive (id : Nat) (body : RequestBody)
  | proceed (id : Nat)
  | receive (id : Nat) (result : Except String Response)

namespace Service

def set (g : Service) (id : Nat) (h : Handling) : Service :=
  { g with requests := Function.update g.requests id (some h) }

def arrive (p : Proxy) (g : Service) (id : Nat) (body : RequestBody) : Service :=
  match readLimited body p.maxBodyBytes with
  | .error error => g.set id (.done (.gatewayError 413 "request_too_large" error) [])
  | .ok _ => g.set id (.searching maxAttempts ⟨p.candidateOrder g.guess, [], none, false⟩ [])

/-- One pass of the loop: the search ends, skips an address, or forwards to it. -/
def proceed (left : Nat) (v : Search) (sent : List String) : Handling :=
  match left, v.order with
  | 0, _ | _, [] => .done v.giveUp sent
  | left + 1, addr :: order =>
    if addr ∈ v.tried then .searching left { v with order := order } sent
    else .awaiting left { v with order := order, tried := addr :: v.tried } addr (sent ++ [addr])

def receive (p : Proxy) (unmarshal : Bytes → Option NotLeaderBody) (g : Service) (id left : Nat) (v : Search)
    (addr : String) (sent : List String) (result : Except String Response) : Service :=
  match p.turn unmarshal v g.guess addr (Outcome.received result) with
  | (.inl v, guess) => { g with guess := guess }.set id (.searching left v sent)
  | (.inr reply, guess) => { g with guess := guess }.set id (.done reply sent)

def step (p : Proxy) (unmarshal : Bytes → Option NotLeaderBody) (g : Service) : Event → Service
  | .arrive id body =>
    match g.requests id with
    | none => g.arrive p id body
    | some _ => g
  | .proceed id =>
    match g.requests id with
    | some (.searching left v sent) => g.set id (proceed left v sent)
    | _ => g
  | .receive id result =>
    match g.requests id with
    | some (.awaiting left v addr sent) => g.receive p unmarshal id left v addr sent result
    | _ => g

def run (p : Proxy) (unmarshal : Bytes → Option NotLeaderBody) (g : Service) (events : List Event) : Service :=
  events.foldl (step p unmarshal) g

end Service

/-! ### One request alone -/

namespace Service

variable (p : Proxy) (unmarshal : Bytes → Option NotLeaderBody) {g : Service} {id : Nat}

theorem set_guess_set (g : Service) (guess : String) (id : Nat) (h later : Handling) :
    set { g.set id h with guess := guess } id later = set { g with guess := guess } id later := by
  simp only [set, Function.update_idem]

theorem set_requests (g : Service) (id : Nat) (h : Handling) : (g.set id h).requests id = some h := by
  simp only [set, Function.update_self]

theorem run_proceed {left : Nat} {v : Search} {sent : List String}
    (held : g.requests id = some (.searching left v sent)) (later : List Event) :
    g.run p unmarshal (.proceed id :: later) = (g.set id (proceed left v sent)).run p unmarshal later := by
  simp only [run, List.foldl_cons, step, held]

theorem run_forward {left : Nat} {v : Search} {sent : List String} {addr : String} {order : List String}
    (held : g.requests id = some (.searching (left + 1) v sent)) (next : v.order = addr :: order) (new : addr ∉ v.tried)
    (outcome : Outcome) (later : List Event) :
    g.run p unmarshal (.proceed id :: .receive id outcome.forward :: later) =
      match p.turn unmarshal { v with order := order, tried := addr :: v.tried } g.guess addr outcome with
      | (.inl w, guess) => (set { g with guess := guess } id (.searching left w (sent ++ [addr]))).run p unmarshal later
      | (.inr reply, guess) =>
        (set { g with guess := guess } id (.done reply (sent ++ [addr]))).run p unmarshal later := by
  have same : ∀ v guess, p.turn unmarshal v guess addr (.received outcome.forward) =
      p.turn unmarshal v guess addr outcome :=
    fun v guess => by simp only [Proxy.turn, Outcome.forward_received]
  rw [run_proceed p unmarshal held, run, List.foldl_cons]
  simp only [proceed, next, if_neg new, step, set_requests, receive, same]
  show List.foldl _ (match p.turn unmarshal _ g.guess addr outcome with
    | (.inl w, guess) => _
    | (.inr reply, guess) => _) later = _
  rcases p.turn unmarshal _ g.guess addr outcome with ⟨w | reply, guess⟩
  · exact congrArg (List.foldl _ · later) (set_guess_set g guess id _ _)
  · exact congrArg (List.foldl _ · later) (set_guess_set g guess id _ _)

theorem loop_alone (outcomes : Nat → Outcome) {left : Nat} {v : Search} {sent : List (String × Outcome)}
    (held : g.requests id = some (.searching left v (sent.map Prod.fst))) :
    let s := p.loop unmarshal outcomes left v g.guess sent
    ∃ events, g.run p unmarshal events = set { g with guess := s.guess } id (.done s.reply s.addresses) := by
  induction left generalizing v g sent with
  | zero => exact ⟨[.proceed id], run_proceed p unmarshal held []⟩
  | succ left ih =>
    cases next : v.order with
    | nil =>
      refine ⟨[.proceed id], (run_proceed p unmarshal held []).trans ?_⟩
      simp only [proceed, next, Proxy.loop_end next, Served.addresses, run, List.foldl_nil]
    | cons addr order =>
      by_cases again : addr ∈ v.tried
      · obtain ⟨events, ended⟩ := @ih (g.set id (.searching left { v with order := order } (sent.map Prod.fst))) _ _
          (set_requests _ _ _)
        refine ⟨.proceed id :: events, (run_proceed p unmarshal held events).trans ?_⟩
        simp only [proceed, next, if_pos again, Proxy.loop_skip next again]
        exact ended.trans (set_guess_set g _ id _ _)
      · have forwards := run_forward p unmarshal held next again (outcomes sent.length)
        simp only [Proxy.loop, next, if_neg again]
        rcases turned : p.turn unmarshal { v with order := order, tried := addr :: v.tried } g.guess addr
          (outcomes sent.length) with ⟨w | reply, guess⟩ <;> simp only [turned] at forwards
        · obtain ⟨events, ended⟩ :=
            @ih (set { g with guess := guess } id (.searching left w (sent.map Prod.fst ++ [addr]))) w
            (sent ++ [(addr, outcomes sent.length)]) (by rw [set_requests, List.map_append, List.map_singleton])
          exact ⟨_, (forwards events).trans (ended.trans (set_guess_set { g with guess := guess } _ id _ _))⟩
        · refine ⟨_, (forwards []).trans ?_⟩
          simp only [Served.addresses, List.map_append, List.map_singleton, run, List.foldl_nil]

/-- Served alone, a request gets the reply, leaves the guess and is forwarded to the addresses `ServeHTTP` says. -/
theorem serveHTTP_alone (fresh : g.requests id = none) (body : RequestBody) (outcomes : Nat → Outcome) :
    let s := p.serveHTTP unmarshal g.guess body outcomes
    ∃ events, g.run p unmarshal (.arrive id body :: events) =
      set { g with guess := s.guess } id (.done s.reply s.addresses) := by
  have started :
      ∀ events, g.run p unmarshal (.arrive id body :: events) = (g.arrive p id body).run p unmarshal events :=
    fun events => by simp only [run, List.foldl_cons, step, fresh]
  unfold Proxy.serveHTTP
  cases readable : readLimited body p.maxBodyBytes with
  | error error =>
    refine ⟨[], (started []).trans ?_⟩
    simp only [arrive, readable, run, List.foldl_nil, Served.addresses, List.map_nil]
  | ok data =>
    have begun : g.arrive p id body =
        g.set id (.searching maxAttempts ⟨p.candidateOrder g.guess, [], none, false⟩ []) := by
      simp only [arrive, readable]
    obtain ⟨events, ended⟩ := loop_alone p unmarshal outcomes (set_requests g id
      (.searching maxAttempts ⟨p.candidateOrder g.guess, [], none, false⟩
        (([] : List (String × Outcome)).map Prod.fst)))
    refine ⟨events, (started events).trans ?_⟩
    rw [begun]
    exact ended.trans (set_guess_set g _ id _ _)

end Service

/-! ### Within the configured backends -/

structure Search.Within (p : Proxy) (v : Search) (sent : List String) : Prop where
  trusted : ∀ addr ∈ v.order, addr ∈ p.backends
  configured : ∀ addr ∈ sent, addr ∈ p.backends
  tried : ∀ addr ∈ sent, addr ∈ v.tried
  once : sent.Nodup

structure Handling.Safe (p : Proxy) (h : Handling) : Prop where
  configured : ∀ addr ∈ h.sent, addr ∈ p.backends
  once : h.sent.Nodup
  final : ∀ response, h.reply = some (.relayed response) → response.status ≠ statusMisdirectedRequest

def Handling.Ok (p : Proxy) : Handling → Prop
  | searching _ v sent => v.Within p sent
  | awaiting _ v addr sent => v.Within p sent ∧ addr ∈ p.backends
  | done reply sent => (done reply sent).Safe p

theorem Handling.Ok.safe {p : Proxy} {h : Handling} (ok : h.Ok p) : h.Safe p := by
  cases h with
  | searching left v sent => exact ⟨ok.configured, ok.once, fun _ never => nomatch never⟩
  | awaiting left v addr sent => exact ⟨ok.1.configured, ok.1.once, fun _ never => nomatch never⟩
  | done reply sent => exact ok

theorem Search.giveUp_error (v : Search) (response : Response) : v.giveUp ≠ .relayed response := by
  unfold Search.giveUp
  split
  · exact fun never => nomatch never
  · split <;> exact fun never => nomatch never

theorem Search.Within.proceed {p : Proxy} {v : Search} {sent : List String} (within : v.Within p sent) (left : Nat) :
    (Service.proceed left v sent).Ok p := by
  have ended : (Handling.done v.giveUp sent).Ok p :=
    ⟨within.configured, within.once, fun response same => absurd (Option.some.inj same) (v.giveUp_error response)⟩
  unfold Service.proceed
  split
  · exact ended
  · exact ended
  · rename_i left addr order next
    have trusted := within.trusted
    rw [next] at trusted
    obtain ⟨here, later⟩ := List.forall_mem_cons.mp trusted
    split
    · exact ⟨later, within.configured, within.tried, within.once⟩
    · rename_i new
      refine ⟨⟨later, List.forall_mem_append.mpr ⟨within.configured, List.forall_mem_singleton.mpr here⟩,
        List.forall_mem_append.mpr ⟨fun other old => List.mem_cons_of_mem _ (within.tried other old),
          List.forall_mem_singleton.mpr List.mem_cons_self⟩, ?_⟩, here⟩
      refine List.nodup_append.mpr ⟨within.once, List.nodup_singleton addr, fun other old again last same => ?_⟩
      rw [List.mem_singleton.mp last] at same
      exact new (same ▸ within.tried other old)

structure Service.Sound (p : Proxy) (g : Service) : Prop where
  guess : g.guess = "" ∨ g.guess ∈ p.backends
  requests : ∀ {id h}, g.requests id = some h → h.Ok p

namespace Service.Sound

variable {p : Proxy} {g : Service}

theorem set (sound : g.Sound p) (id : Nat) {h : Handling} (ok : h.Ok p) {guess : String}
    (known : guess = "" ∨ guess ∈ p.backends) : (Service.set { g with guess := guess } id h).Sound p := by
  refine ⟨known, fun {other held} found => ?_⟩
  simp only [Service.set, Function.update_apply] at found
  split at found
  · cases found
    exact ok
  · exact sound.requests found

theorem arrive (sound : g.Sound p) (id : Nat) (body : RequestBody) : (g.arrive p id body).Sound p := by
  have none : ∀ {addr : String} {P : Prop}, addr ∈ ([] : List String) → P := fun never => absurd never List.not_mem_nil
  unfold Service.arrive
  split
  · rename_i error _
    have refused : (Handling.done (.gatewayError 413 "request_too_large" error) []).Ok p :=
      ⟨fun _ => none, List.nodup_nil, fun _ never => nomatch never⟩
    exact sound.set id refused sound.guess
  · have first : Search.Within p ⟨p.candidateOrder g.guess, [], Option.none, false⟩ [] :=
      ⟨fun _ => Proxy.mem_backends_of_mem_candidateOrder sound.guess, fun _ => none, fun _ => none, List.nodup_nil⟩
    exact @set p g sound id (.searching maxAttempts _ []) first _ sound.guess

theorem receive (sound : g.Sound p) (unmarshal : Bytes → Option NotLeaderBody) (id left : Nat) {v : Search}
    {addr : String}
    {sent : List String} (within : v.Within p sent) (forwarded : addr ∈ p.backends) (result : Except String Response) :
    (g.receive p unmarshal id left v addr sent result).Sound p := by
  have turns := p.turn_turns unmarshal v g.guess addr (Outcome.received result)
  have same : ∀ w : Search, (∀ addr ∈ w.order, addr ∈ p.backends) → w.tried = v.tried →
      (Handling.searching left w sent).Ok p :=
    fun w trusted tried => ⟨trusted, within.configured, tried ▸ within.tried, within.once⟩
  unfold Service.receive
  generalize p.turn unmarshal v g.guess addr (Outcome.received result) = turned at turns
  generalize Outcome.received result = outcome at turns
  cases turns with
  | failed silent fails => exact sound.set id (same { v with lastErr := some _ } within.trusted rfl) sound.guess
  | hinted names some new trusted =>
    exact sound.set id (same { v with sawNotLeader := true, order := _ :: v.order }
      (List.forall_mem_cons.mpr ⟨trusted, within.trusted⟩) rfl) (Or.inr trusted)
  | unhinted => exact sound.set id (same { v with sawNotLeader := true } within.trusted rfl) sound.guess
  | answered final =>
    rename_i response
    have relayed : (Handling.done (.relayed response) sent).Ok p :=
      ⟨within.configured, within.once, fun _ same => by cases same; exact final⟩
    exact sound.set id relayed (Or.inr forwarded)

theorem step (sound : g.Sound p) (unmarshal : Bytes → Option NotLeaderBody) (e : Event) :
    (g.step p unmarshal e).Sound p := by
  cases e with
  | arrive id body =>
    simp only [Service.step]
    split
    · exact sound.arrive id body
    · exact sound
  | proceed id =>
    simp only [Service.step]
    split
    · rename_i left v sent found
      exact sound.set id ((sound.requests found).proceed left) sound.guess
    · exact sound
  | receive id result =>
    simp only [Service.step]
    split
    · rename_i left v addr sent found
      exact sound.receive unmarshal id left (sound.requests found).1 (sound.requests found).2 result
    · exact sound

theorem run (sound : g.Sound p) (unmarshal : Bytes → Option NotLeaderBody) (events : List Event) :
    (g.run p unmarshal events).Sound p := by
  induction events generalizing g with
  | nil => exact sound
  | cons e later ih => exact ih (sound.step unmarshal e)

end Service.Sound

theorem newService_sound (p : Proxy) : newService.Sound p := ⟨Or.inl rfl, fun never => nomatch never⟩

/-- However the requests are interleaved and whatever the backends respond, no request leaves the configured backends,
none is forwarded to a backend twice, and no 421 is relayed. -/
theorem requests_stay_configured (p : Proxy) (unmarshal : Bytes → Option NotLeaderBody) (events : List Event) (id : Nat)
    (h : Handling) (handled : (newService.run p unmarshal events).requests id = some h) :
    (∀ addr ∈ h.sent, addr ∈ p.backends) ∧ h.sent.Nodup ∧
      ∀ response, h.reply = some (.relayed response) → response.status ≠ statusMisdirectedRequest :=
  let safe := (((newService_sound p).run unmarshal events).requests handled).safe
  ⟨safe.configured, safe.once, safe.final⟩

/-- Two requests. The first is sent astray by a 421 while the second learns the leader; both end there. -/
theorem two_requests_stay_configured :
    let p : Proxy := ⟨["http://a", "http://b"], defaultMaxBodyBytes⟩
    let astray : NotLeaderBody := ⟨"not_leader", "c", "http://elsewhere"⟩
    let leader : NotLeaderBody := ⟨"not_leader", "b", "b"⟩
    let unmarshal := unmarshalAmong [astray, leader]
    let events : List Event := [.arrive 0 ⟨[], none⟩, .arrive 1 ⟨[], none⟩, .proceed 0, .proceed 1,
      .receive 0 (.ok ⟨421, notLeaderJSON astray⟩), .receive 1 (.ok ⟨421, notLeaderJSON leader⟩), .proceed 0,
        .proceed 1,
      .receive 1 (.ok ⟨200, []⟩), .receive 0 (.ok ⟨200, []⟩)]
    let h : Handling := .done (.relayed ⟨200, []⟩) ["http://a", "http://b"]
    (newService.run p unmarshal events).requests 0 = some h ∧
      (∀ addr ∈ h.sent, addr ∈ p.backends) ∧ h.sent.Nodup ∧
      ∀ response, h.reply = some (.relayed response) → response.status ≠ statusMisdirectedRequest := by
  intro p astray leader unmarshal events h
  have handled : (newService.run p unmarshal events).requests 0 = some h := by decide
  exact ⟨handled, requests_stay_configured p unmarshal events 0 h handled⟩

end ForgeDB.Gateway
