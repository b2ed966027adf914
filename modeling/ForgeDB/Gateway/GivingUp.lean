import ForgeDB.Gateway.Executions
import Mathlib.Data.List.Dedup
import Mathlib.Data.List.Perm.Subperm

/-!
When the gateway gives up. A hint moves a backend to the front of the queue and leaves its old place there, and
skipping that place later costs one of the passes. Five backends are all tried; of six, the last may not be.
-/

namespace ForgeDB.Gateway

def Served.gaveUp (s : Served) : Bool :=
  match s.reply with
  | .gatewayError status _ _ => status = 502 || status = 503
  | .relayed _ => false

/-- Giving up only after trying every backend or as many as there are attempts. With no more backends than attempts,
every backend was then tried, and none gave an answer. -/
structure Served.Tried (p : Proxy) (s : Served) : Prop where
  enough : s.gaveUp = true → (∀ b ∈ p.backends, b ∈ s.addresses) ∨ maxAttempts ≤ s.addresses.dedup.length
  reached : s.gaveUp = true → p.backends.length ≤ maxAttempts →
    ∀ b ∈ p.backends, ∃ outcome, (b, outcome) ∈ s.sent ∧ outcome.isAnswered = false

theorem giveUp_gaveUp (v : Search) (guess : String) (sent : List (String × Outcome)) :
    (Served.mk v.giveUp guess sent).gaveUp = true := by
  unfold Search.giveUp Served.gaveUp
  cases v.sawNotLeader with
  | true => rfl
  | false =>
    cases v.lastErr with
    | none => rfl
    | some error => rfl

namespace Proxy

variable {p : Proxy} {unmarshal : Bytes → Option NotLeaderBody} {outcomes : Nat → Outcome} {left : Nat} {v : Search}
  {guess : String} {sent : List (String × Outcome)}

def stale (v : Search) : Nat := v.order.countP fun addr => addr ∈ v.tried

/-- Where a search stands. The queue has every backend that is not tried yet, once, and perhaps a hint before it;
every pass spent and every stale place is paid for by attempts, two to one. -/
structure Standing (p : Proxy) (left : Nat) (v : Search) (sent : List (String × Outcome)) : Prop where
  recorded : ∀ addr, addr ∈ v.tried ↔ addr ∈ sent.map Prod.fst
  distinct : v.tried.Nodup
  configured : ∀ addr ∈ v.tried, addr ∈ p.backends
  trusted : ∀ addr ∈ v.order, addr ∈ p.backends
  covers : ∀ b ∈ p.backends, b ∈ v.tried ∨ b ∈ v.order
  queue : v.order.Nodup ∨ ∃ hint base, hint ∉ v.tried ∧ base.Nodup ∧ v.order = hint :: base
  paid : left = maxAttempts ∧ v.tried = [] ∧ v.order.Nodup ∨
    maxAttempts + stale v + 1 ≤ 2 * v.tried.length + left

theorem Standing.start (distinct : p.backends.Nodup) (known : guess = "" ∨ guess ∈ p.backends)
    (whole : guess ≠ "" ∨ "" ∉ p.backends) :
    Standing p maxAttempts ⟨p.candidateOrder guess, [], none, false⟩ [] := by
  have none : ∀ {addr : String} {P : Prop}, addr ∈ ([] : List String) → P := fun never => absurd never List.not_mem_nil
  exact ⟨fun addr => Iff.rfl, List.nodup_nil, fun _ => none, fun _ => mem_backends_of_mem_candidateOrder known,
    fun b present => Or.inr (mem_candidateOrder_of_mem_backends whole present), Or.inl (candidateOrder_nodup distinct),
    Or.inl ⟨rfl, rfl, candidateOrder_nodup distinct⟩⟩

theorem Standing.skip (standing : Standing p (left + 1) v sent) {addr : String} {order : List String}
    (next : v.order = addr :: order) (again : addr ∈ v.tried) : Standing p left { v with order := order } sent := by
  have queue : v.order.Nodup := standing.queue.resolve_right fun ⟨hint, base, new, _, same⟩ => by
    rw [next] at same
    cases same
    exact new again
  have trusted := standing.trusted
  rw [next] at queue trusted
  refine ⟨standing.recorded, standing.distinct, standing.configured, (List.forall_mem_cons.mp trusted).2, ?_,
    Or.inl (List.nodup_cons.mp queue).2, Or.inr ?_⟩
  · intro b present
    rcases standing.covers b present with old | waits
    · exact Or.inl old
    · rw [next] at waits
      rcases List.mem_cons.mp waits with rfl | later
      · exact Or.inl again
      · exact Or.inr later
  · rcases standing.paid with ⟨_, none, _⟩ | paid
    · rw [none] at again
      cases again
    · have here : stale v = stale { v with order := order } + 1 := by
        simp only [stale, next, List.countP_cons, decide_eq_true again, if_true]
      dsimp only
      omega

theorem stale_send {addr : String} {order tried : List String} (distinct : order.Nodup) (new : addr ∉ tried) :
    order.countP (fun other => other ∈ addr :: tried) =
      order.countP (fun other => other ∈ tried) + if addr ∈ order then 1 else 0 := by
  induction order with
  | nil => rfl
  | cons first rest ih =>
    obtain ⟨fresh, distinct⟩ := List.nodup_cons.mp distinct
    rw [List.countP_cons, List.countP_cons, ih distinct]
    by_cases same : first = addr
    · subst same
      simp only [fresh, new, List.mem_cons, true_or, decide_true, if_true, if_false, decide_false, Bool.false_eq_true]
    · have other : addr ≠ first := Ne.symm same
      simp only [List.mem_cons, same, other, false_or]
      omega

theorem Standing.send (standing : Standing p (left + 1) v sent) {addr : String} {order : List String}
    (next : v.order = addr :: order) (new : addr ∉ v.tried) {w : Search} (outcome : Outcome)
    (tried : w.tried = addr :: v.tried)
    (queue : w.order = order ∨ ∃ hint, hint ∉ addr :: v.tried ∧ hint ∈ p.backends ∧ w.order = hint :: order) :
    Standing p left w (sent ++ [(addr, outcome)]) := by
  have trusted := standing.trusted
  rw [next] at trusted
  obtain ⟨here, later⟩ := List.forall_mem_cons.mp trusted
  have distinct : order.Nodup := by
    rcases standing.queue with all | ⟨hint, base, _, all, same⟩
    · rw [next] at all
      exact (List.nodup_cons.mp all).2
    · rw [next] at same
      cases same
      exact all
  have staleAfter : stale w = order.countP fun other => other ∈ addr :: v.tried := by
    rcases queue with same | ⟨hint, fresh, _, same⟩
    · simp only [stale, same, tried]
    · simp only [stale, same, tried, List.countP_cons, fresh, decide_false, Bool.false_eq_true, if_false, Nat.add_zero]
  have staleBefore : stale v = order.countP fun other => other ∈ v.tried := by
    simp only [stale, next, List.countP_cons, new, decide_false, Bool.false_eq_true, if_false, Nat.add_zero]
  refine ⟨fun other => ?_, ?_, ?_, ?_, fun b present => ?_, ?_, Or.inr ?_⟩
  · rw [tried, List.map_append, List.mem_cons, List.mem_append, standing.recorded, or_comm]
    exact or_congr_right (List.mem_singleton).symm
  · rw [tried]
    exact List.nodup_cons.mpr ⟨new, standing.distinct⟩
  · rw [tried]
    exact List.forall_mem_cons.mpr ⟨here, standing.configured⟩
  · rcases queue with same | ⟨hint, _, known, same⟩
    · rw [same]
      exact later
    · rw [same]
      exact List.forall_mem_cons.mpr ⟨known, later⟩
  · have waits : b ∈ order → b ∈ w.order := by
      rcases queue with same | ⟨hint, _, _, same⟩
      · rw [same]
        exact id
      · rw [same]
        exact List.mem_cons_of_mem _
    rw [tried]
    rcases standing.covers b present with old | still
    · exact Or.inl (List.mem_cons_of_mem _ old)
    · rw [next] at still
      rcases List.mem_cons.mp still with rfl | behind
      · exact Or.inl List.mem_cons_self
      · exact Or.inr (waits behind)
  · rcases queue with same | ⟨hint, fresh, _, same⟩
    · exact Or.inl (same ▸ distinct)
    · exact Or.inr ⟨hint, order, tried.symm ▸ fresh, distinct, same⟩
  · rw [staleAfter, stale_send distinct new, ← staleBefore, tried, List.length_cons]
    rcases standing.paid with ⟨full, none, all⟩ | paid
    · rw [next] at all
      rw [if_neg (List.nodup_cons.mp all).1, none]
      have zero : stale v = 0 := by
        rw [staleBefore, none]
        exact List.countP_eq_zero.mpr fun _ _ => by simp
      rw [zero, List.length_nil]
      omega
    · split <;> omega

theorem Standing.attempted (standing : Standing p left v sent)
    (unanswered : ∀ attempt ∈ sent, attempt.2.isAnswered = false) {b : String} (tried : b ∈ v.tried) :
    ∃ outcome, (b, outcome) ∈ sent ∧ outcome.isAnswered = false := by
  obtain ⟨attempt, present, rfl⟩ := List.mem_map.mp ((standing.recorded b).mp tried)
  exact ⟨attempt.2, present, unanswered attempt present⟩

theorem loop_tries_all (few : p.backends.length ≤ 5) (standing : Standing p left v sent)
    (unanswered : ∀ attempt ∈ sent, attempt.2.isAnswered = false)
    (gaveUp : (p.loop unmarshal outcomes left v guess sent).gaveUp = true) :
    ∀ b ∈ p.backends, ∃ outcome, (b, outcome) ∈ (p.loop unmarshal outcomes left v guess sent).sent ∧
      outcome.isAnswered = false := by
  induction left generalizing v guess sent with
  | zero =>
    -- Every pass was paid for, so five backends were tried.
    have five : p.backends.length ≤ v.tried.length := by
      rcases standing.paid with ⟨full, _⟩ | paid
      · cases full
      · unfold maxAttempts at paid
        omega
    have all := (List.subperm_of_subset standing.distinct standing.configured).perm_of_length_le five
    exact fun b present => standing.attempted unanswered (all.mem_iff.mpr present)
  | succ left ih =>
    cases next : v.order with
    | nil =>
      rw [loop_end next]
      refine fun b present => standing.attempted unanswered ((standing.covers b present).resolve_right ?_)
      rw [next]
      exact List.not_mem_nil
    | cons addr order =>
      by_cases again : addr ∈ v.tried
      · rw [loop_skip next again] at gaveUp ⊢
        exact ih (standing.skip next again) unanswered gaveUp
      · rcases loop_send p unmarshal outcomes left guess sent next again with
          ⟨_, response, done⟩ | ⟨open_, w, later, done, tried, queue⟩
        · rw [done] at gaveUp
          cases gaveUp
        · rw [done] at gaveUp ⊢
          refine ih (standing.send next again (outcomes sent.length) tried (queue.imp_right And.right)) ?_ gaveUp
          exact List.forall_mem_append.mpr ⟨unanswered, List.forall_mem_singleton.mpr open_⟩

/-! ### A search that is led astray -/

theorem loop_gaveUp (silent : ∀ n, (outcomes n).isAnswered = false) :
    (p.loop unmarshal outcomes left v guess sent).gaveUp = true := by
  induction left generalizing v guess sent with
  | zero => exact giveUp_gaveUp _ _ _
  | succ left ih =>
    cases next : v.order with
    | nil =>
      rw [loop_end next]
      exact giveUp_gaveUp _ _ _
    | cons addr order =>
      by_cases again : addr ∈ v.tried
      · rw [loop_skip next again]
        exact ih
      · rcases loop_send p unmarshal outcomes left guess sent next again with
          ⟨answered, _⟩ | ⟨_, w, later, done, _⟩
        · rw [silent] at answered
          cases answered
        · rw [done]
          exact ih

theorem loop_refused (refused : ∀ n, sent.length ≤ n → outcomes n = .refused "") :
    ∀ addr ∈ (p.loop unmarshal outcomes left v guess sent).addresses, addr ∈ sent.map Prod.fst ∨
    addr ∈ v.order.take left := by
  induction left generalizing v guess sent with
  | zero => exact fun addr present => Or.inl present
  | succ left ih =>
    cases next : v.order with
    | nil =>
      rw [loop_end next]
      exact fun addr present => Or.inl present
    | cons first order =>
      rw [List.take_succ_cons]
      by_cases again : first ∈ v.tried
      · rw [loop_skip next again]
        exact fun addr present => (ih refused addr present).imp_right (List.mem_cons_of_mem _)
      · have sends : p.loop unmarshal outcomes (left + 1) v guess sent = p.loop unmarshal outcomes left
            { v with order := order, tried := first :: v.tried, lastErr := some "" } guess
            (sent ++ [(first, .refused "")]) := by
          simp only [loop, next, if_neg again, refused sent.length (Nat.le_refl _), turn, Outcome.forward]
        rw [sends]
        intro addr present
        have later := ih (fun n enough => refused n (by
          rw [List.length_append] at enough
          exact (Nat.le_add_right _ _).trans enough)) addr present
        rw [List.map_append, List.mem_append] at later
        rcases later with (old | here) | waits
        · exact Or.inl old
        · exact Or.inr (List.mem_cons.mpr (Or.inl (List.mem_singleton.mp here)))
        · exact Or.inr (List.mem_cons_of_mem _ waits)

theorem loop_hint {addr hint : String} {order : List String} {body : Bytes} (next : v.order = addr :: order)
    (new : addr ∉ v.tried) (misdirected : outcomes sent.length = .misdirected body)
    (names : parseLeaderHint unmarshal body = hint) (some : hint ≠ "") (fresh : hint ∉ addr :: v.tried)
    (trusted : hint ∈ p.backends) :
    p.loop unmarshal outcomes (left + 1) v guess sent = p.loop unmarshal outcomes left
      { v with order := hint :: order, tried := addr :: v.tried, sawNotLeader := true } hint
      (sent ++ [(addr, .misdirected body)]) := by
  have usable : hint ≠ "" ∧ hint ∉ addr :: v.tried ∧ p.isTrustedBackend hint = true :=
    ⟨some, fresh, isTrustedBackend_iff.mpr trusted⟩
  simp only [loop, next, if_neg new, misdirected, turn, Outcome.forward, if_true, names, if_pos usable]

theorem three_of_four {four : List String} (distinct : four.Nodup) (length : four.length = 4) :
    ∃ x y z, [x, y, z].Nodup ∧ ∀ addr ∈ [x, y, z], addr ∈ four ∧ addr ≠ "" := by
  have most : 3 ≤ (four.erase "").length := by
    rw [List.length_erase]
    split <;> omega
  match named : four.erase "" with
  | [] | [_] | [_, _] =>
    rw [named] at most
    simp only [List.length_nil, List.length_cons] at most
    omega
  | x :: y :: z :: others =>
    have all := distinct.erase ""
    rw [named, show x :: y :: z :: others = [x, y, z] ++ others from rfl] at all
    refine ⟨x, y, z, (List.nodup_append.mp all).1, fun addr present => ?_⟩
    have inside : addr ∈ four.erase "" := by
      rw [named, show x :: y :: z :: others = [x, y, z] ++ others from rfl]
      exact List.mem_append_left _ present
    exact (distinct.mem_erase_iff.mp inside).symm

/-- Three hints to backends among the next four of the queue, and refusals from then on: nothing behind the first five
is reached. -/
theorem led_astray {first : String} {four behind : List String}
    (order : p.candidateOrder guess = first :: (four ++ behind))
    (length : four.length = 4) (distinct : (p.candidateOrder guess).Nodup)
    (trusted : ∀ addr ∈ four, addr ∈ p.backends)
    (named : ∀ b ∈ p.backends, b ≠ "" → ∃ text, parseLeaderHint unmarshal text = b) :
    ∃ outcomes : Nat → Outcome, (∀ n, (outcomes n).isAnswered = false) ∧
      ∀ addr ∈ (p.loop unmarshal outcomes maxAttempts ⟨p.candidateOrder guess, [], none, false⟩ guess []).addresses,
        addr ∈ first :: four := by
  rw [order] at distinct
  obtain ⟨apart, distinct⟩ := List.nodup_cons.mp distinct
  obtain ⟨x, y, z, different, among⟩ := three_of_four (List.nodup_append.mp distinct).1 length
  have hinted : ∀ addr ∈ [x, y, z], addr ≠ "" ∧ addr ∈ p.backends ∧ addr ≠ first ∧
      ∃ text, parseLeaderHint unmarshal text = addr := by
    intro addr present
    obtain ⟨inside, some⟩ := among addr present
    refine ⟨some, trusted addr inside, fun same => apart ?_, named addr (trusted addr inside) some⟩
    exact same ▸ List.mem_append_left _ inside
  obtain ⟨someX, trustedX, notFirstX, textX, namesX⟩ := hinted x (by simp)
  obtain ⟨someY, trustedY, notFirstY, textY, namesY⟩ := hinted y (by simp)
  obtain ⟨someZ, trustedZ, notFirstZ, textZ, namesZ⟩ := hinted z (by simp)
  simp only [List.nodup_cons, List.mem_cons, List.not_mem_nil, or_false, not_or, not_false_eq_true, List.nodup_nil,
    and_true] at different
  obtain ⟨⟨xy, xz⟩, yz⟩ := different
  refine ⟨fun n => if n = 0 then .misdirected textX else if n = 1 then .misdirected textY else
    if n = 2 then .misdirected textZ else .refused "", fun n => ?_, ?_⟩
  · dsimp only
    split
    · rfl
    split
    · rfl
    split <;> rfl
  · rw [maxAttempts, order, loop_hint rfl List.not_mem_nil rfl namesX someX (by simp [notFirstX]) trustedX,
      loop_hint rfl (by simp [notFirstX]) rfl namesY someY (by simp [notFirstY, Ne.symm xy]) trustedY,
      loop_hint rfl (by simp [notFirstY, Ne.symm xy]) rfl namesZ someZ
        (by simp [notFirstZ, Ne.symm xz, Ne.symm yz]) trustedZ]
    intro addr present
    have reached := loop_refused (fun n enough => by
      simp only [List.nil_append, List.cons_append, List.length_cons, List.length_nil] at enough
      rw [if_neg (by omega), if_neg (by omega), if_neg (by omega)]) addr present
    have within : (z :: (four ++ behind)).take 5 = z :: four := by
      rw [List.take_succ_cons, ← length, List.take_left]
    rw [within] at reached
    have members : ∀ other ∈ [x, y, z], other ∈ first :: four := fun other inside =>
      List.mem_cons_of_mem _ (among other inside).1
    rcases reached with sent | waits
    · simp only [List.nil_append, List.cons_append, List.map_cons, List.map_nil, List.mem_cons, List.not_mem_nil,
        or_false] at sent
      rcases sent with rfl | rfl | rfl
      · exact List.mem_cons_self
      · exact members _ (by simp)
      · exact members _ (by simp)
    · rcases List.mem_cons.mp waits with rfl | later
      · exact members _ (by simp)
      · exact List.mem_cons_of_mem _ later

theorem not_tried {served : Served} {few : List String} (gaveUp : served.gaveUp = true)
    (among : ∀ addr ∈ served.addresses, addr ∈ few) (short : few.length < maxAttempts) {b : String}
    (configured : b ∈ p.backends) (missed : b ∉ few) : ¬served.Tried p := by
  intro tried
  rcases tried.enough gaveUp with all | many
  · exact missed (among b (all b configured))
  · have bound : served.addresses.dedup.length ≤ few.length :=
      (List.subperm_of_subset (List.nodup_dedup _) fun addr present => among addr (List.mem_dedup.mp present)).length_le
    omega

theorem misses_sixth (long : 6 ≤ (p.candidateOrder guess).length) (ordered : (p.candidateOrder guess).Nodup)
    (known : guess = "" ∨ guess ∈ p.backends)
    (named : ∀ b ∈ p.backends, b ≠ "" → ∃ text, parseLeaderHint unmarshal text = b) :
    ∃ outcomes, ¬(p.loop unmarshal outcomes maxAttempts ⟨p.candidateOrder guess, [], none, false⟩ guess []).Tried
      p := by
  match order : p.candidateOrder guess with
  | [] | [_] | [_, _] | [_, _, _] | [_, _, _, _] | [_, _, _, _, _] =>
    rw [order] at long
    simp only [List.length_nil, List.length_cons] at long
    omega
  | first :: b :: c :: d :: e :: sixth :: behind =>
    have present : ∀ addr ∈ p.candidateOrder guess, addr ∈ p.backends := fun addr =>
      mem_backends_of_mem_candidateOrder known
    rw [order] at present
    obtain ⟨outcomes, silent, among⟩ := @led_astray p unmarshal guess first [b, c, d, e] (sixth :: behind) order rfl
      ordered (fun addr inside => present addr (List.mem_cons_of_mem _ (List.mem_append_left _ inside))) named
    rw [order] at ordered among
    have apart : sixth ∉ [first, b, c, d, e] := fun inside => (List.nodup_append.mp
      (show ([first, b, c, d, e] ++ (sixth :: behind)).Nodup from ordered)).2.2 sixth inside sixth
        List.mem_cons_self rfl
    exact ⟨outcomes,
      not_tried (loop_gaveUp silent) among (show 5 < maxAttempts by decide) (present sixth (by simp)) apart⟩

theorem misses_empty (short : (p.candidateOrder guess).length < 6) (unguessed : guess = "") (empty : "" ∈ p.backends) :
    ¬(p.loop unmarshal (fun _ => .refused "") maxAttempts ⟨p.candidateOrder guess, [], none, false⟩ guess []).Tried
      p := by
  have among := @loop_refused p unmarshal (fun _ => .refused "") maxAttempts
    ⟨p.candidateOrder guess, [], none, false⟩ guess [] fun _ _ => rfl
  have within : ∀ addr ∈ _, addr ∈ p.candidateOrder guess := fun addr inside =>
    List.mem_of_mem_take ((among addr inside).resolve_left List.not_mem_nil)
  refine not_tried (loop_gaveUp fun _ => rfl) within (Nat.lt_trans short (by decide)) empty fun inside => ?_
  rcases mem_candidateOrder.mp inside with ⟨_, some⟩ | ⟨_, other⟩
  · exact some unguessed
  · exact other unguessed.symm

end Proxy

/-- Whatever becomes of the attempts, the gateway gives up only after trying every backend or as many as it has
attempts, if it has at most five backends and a guess or no empty address among them. That is needed as well where
the body of a 421 can name each backend: the JSON decoder gives its address, which has a scheme and no space around
it. The backends are different, and the guess is one of them if there is one. -/
theorem gives_up_after_trying_iff (p : Proxy) (unmarshal : Bytes → Option NotLeaderBody) (guess : String)
    (body : RequestBody) (distinct : p.backends.Nodup) (known : guess = "" ∨ guess ∈ p.backends) :
    let enough := (∃ error, readLimited body p.maxBodyBytes = .error error) ∨
      p.backends.length ≤ 5 ∧ (guess ≠ "" ∨ "" ∉ p.backends)
    (enough → ∀ outcomes, (p.serveHTTP unmarshal guess body outcomes).Tried p) ∧
      ((∀ b ∈ p.backends, b ≠ "" → ∃ text, parseLeaderHint unmarshal text = b) →
        (∀ outcomes, (p.serveHTTP unmarshal guess body outcomes).Tried p) → enough) := by
  dsimp only
  unfold Proxy.serveHTTP
  cases readLimited body p.maxBodyBytes with
  | error error => exact ⟨fun _ _ => ⟨(nomatch ·), (nomatch ·)⟩, fun _ _ => Or.inl ⟨error, rfl⟩⟩
  | ok data =>
    have ordered : (p.candidateOrder guess).Nodup := Proxy.candidateOrder_nodup distinct
    constructor
    · rintro (⟨error, never⟩ | ⟨few, whole⟩) outcomes
      · cases never
      · have reached := fun gaveUp => @Proxy.loop_tries_all p unmarshal outcomes maxAttempts _ guess [] few
          (Proxy.Standing.start distinct known whole) (fun _ never => absurd never List.not_mem_nil) gaveUp
        refine ⟨fun gaveUp => Or.inl fun b present => ?_, fun gaveUp _ => reached gaveUp⟩
        obtain ⟨outcome, sent, _⟩ := reached gaveUp b present
        exact List.mem_map.mpr ⟨_, sent, rfl⟩
    · intro named always
      refine Or.inr (Classical.byContradiction fun wrong => ?_)
      by_cases long : 6 ≤ (p.candidateOrder guess).length
      · obtain ⟨outcomes, missed⟩ := Proxy.misses_sixth long ordered known named
        exact missed (always outcomes)
      · have unnamed : guess = "" ∧ "" ∈ p.backends := by
          by_contra named
          have whole : guess ≠ "" ∨ "" ∉ p.backends := not_and_or.mp named
          have all : p.backends ⊆ p.candidateOrder guess := fun b => Proxy.mem_candidateOrder_of_mem_backends whole
          have bound := (List.subperm_of_subset distinct all).length_le
          exact wrong ⟨by omega, whole⟩
        exact Proxy.misses_empty (Nat.lt_of_not_le long) unnamed.1 unnamed.2 (always fun _ => .refused "")

/-- The 421 of a node that takes the given one for the leader. -/
def hintTo (id : String) : NotLeaderBody := ⟨"not_leader", id, "http://" ++ id ++ ":8080"⟩

def sixNodes : List String := ["forgedb-1", "forgedb-2", "forgedb-3", "forgedb-4", "forgedb-5", "forgedb-6"]

def sixBackends : Proxy := { backends := sixNodes.map fun id => (hintTo id).leaderHTTP }

/-- The sixth backend would answer, but the first four name the next one each, and three passes are then spent on
places tried already. -/
theorem sixth_backend_never_tried :
    let served := sixBackends.serveHTTP (unmarshalAmong (sixNodes.map hintTo)) "" { data := [] }
      fun n => if n < 4 then .misdirected (notLeaderJSON (hintTo (sixNodes.getD (n + 1) "")))
        else if n = 4 then .refused "connection refused" else .answered ⟨200, []⟩ (by decide)
    served.gaveUp = true ∧ served.addresses = sixBackends.backends.take 5 ∧
      "http://forgedb-6:8080" ∉ served.addresses ∧ served.addresses.dedup.length < maxAttempts := by
  decide

theorem sixBackends_not_tried :
    ¬∀ outcomes, (sixBackends.serveHTTP (unmarshalAmong (sixNodes.map hintTo)) "" { data := [] } outcomes).Tried
      sixBackends := by
  have each : ∀ id ∈ sixNodes, unmarshalAmong (sixNodes.map hintTo) (notLeaderJSON (hintTo id)) = some (hintTo id) ∧
      trimSpace (hintTo id).leaderHTTP.toList = (hintTo id).leaderHTTP.toList ∧
      "://".toList <:+: (hintTo id).leaderHTTP.toList := by decide
  have named : ∀ b ∈ sixBackends.backends, b ≠ "" →
      ∃ text, parseLeaderHint (unmarshalAmong (sixNodes.map hintTo)) text = b := by
    intro b present _
    obtain ⟨id, node, rfl⟩ := List.mem_map.mp present
    obtain ⟨decoded, trimmed, schemed⟩ := each id node
    exact ⟨_, parseLeaderHint_of_url decoded trimmed schemed⟩
  intro always
  rcases (gives_up_after_trying_iff sixBackends (unmarshalAmong (sixNodes.map hintTo)) "" { data := [] } (by decide)
    (Or.inl rfl)).2 named always with ⟨error, never⟩ | ⟨few, _⟩
  · cases never
  · exact absurd few (by decide)

end ForgeDB.Gateway
