import ForgeDB.Gateway.Proxy

/-!
How often a forwarded write is executed. An answer ends the search, so a write is executed again only
after an attempt whose response was lost; and it can be, whenever the search has a second address to
turn to.
-/

namespace ForgeDB.Gateway

theorem countP_le_one_iff {α : Type} {p : α → Bool} {list : List α} :
    list.countP p ≤ 1 ↔ list.Pairwise fun earlier later => p earlier = true → p later = false := by
  induction list with
  | nil => exact iff_of_true (Nat.zero_le _) List.Pairwise.nil
  | cons first rest ih =>
    rw [List.countP_cons, List.pairwise_cons, ← ih]
    cases p first with
    | false => simp
    | true =>
      have none : rest.countP p = 0 ↔ ∀ a ∈ rest, p a = false := by
        rw [List.countP_eq_zero]
        exact forall₂_congr fun a _ => Bool.not_eq_true _ ▸ Iff.rfl
      simp only [if_true, forall_const, ← none]
      omega

theorem countP_concat_le_one {α : Type} {p : α → Bool} {list : List α} (none : list.countP p = 0) (last : α) :
    (list ++ [last]).countP p ≤ 1 := by
  rw [List.countP_append, none, Nat.zero_add]
  exact List.countP_le_length

theorem eq_of_length_le_one {α : Type} {list : List α} (few : list.length ≤ 1) {first second : α}
    (inFirst : first ∈ list) (inSecond : second ∈ list) : first = second := by
  rcases Nat.le_one_iff_eq_zero_or_eq_one.mp few with none | one
  · rw [List.eq_nil_of_length_eq_zero none] at inFirst
    cases inFirst
  · obtain ⟨only, rfl⟩ := List.length_eq_one_iff.mp one
    rw [List.mem_singleton.mp inFirst, List.mem_singleton.mp inSecond]

namespace Proxy

variable {p : Proxy} {unmarshal : Bytes → Option NotLeaderBody}

theorem turn_cases (p : Proxy) (unmarshal : Bytes → Option NotLeaderBody) (v : Search) (guess addr : String)
    (outcome : Outcome) :
    (outcome.isAnswered = true ∧ ∃ response, p.turn unmarshal v guess addr outcome = (.inr (.relayed response), addr)) ∨
      outcome.isAnswered = false ∧ ∃ w later, p.turn unmarshal v guess addr outcome = (.inl w, later) ∧
        w.tried = v.tried ∧ (w.order = v.order ∨ outcome.executes = false ∧ ∃ hint, hint ∉ v.tried ∧
          hint ∈ p.backends ∧ w.order = hint :: v.order) := by
  have turns := p.turn_turns unmarshal v guess addr outcome
  generalize p.turn unmarshal v guess addr outcome = result at turns
  cases turns with
  | failed silent fails => exact Or.inr ⟨silent, _, _, rfl, rfl, Or.inl rfl⟩
  | hinted names some new trusted => exact Or.inr ⟨rfl, _, _, rfl, rfl, Or.inr ⟨rfl, _, new, trusted, rfl⟩⟩
  | unhinted => exact Or.inr ⟨rfl, _, _, rfl, rfl, Or.inl rfl⟩
  | answered final => exact Or.inl ⟨rfl, _, rfl⟩

section

variable {outcomes : Nat → Outcome} {left : Nat} {v : Search} {guess : String} {sent : List (String × Outcome)}

theorem loop_end (empty : v.order = []) : p.loop unmarshal outcomes left v guess sent = ⟨v.giveUp, guess, sent⟩ := by
  cases left with
  | zero => rfl
  | succ left => simp only [loop, empty]

theorem loop_skip {addr : String} {order : List String} (next : v.order = addr :: order) (again : addr ∈ v.tried) :
    p.loop unmarshal outcomes (left + 1) v guess sent =
      p.loop unmarshal outcomes left { v with order := order } guess sent := by
  simp only [loop, next, if_pos again]

theorem loop_send (p : Proxy) (unmarshal : Bytes → Option NotLeaderBody) (outcomes : Nat → Outcome) (left : Nat)
    (guess : String) (sent : List (String × Outcome)) {addr : String} {order : List String}
    (next : v.order = addr :: order) (new : addr ∉ v.tried) :
    ((outcomes sent.length).isAnswered = true ∧ ∃ response, p.loop unmarshal outcomes (left + 1) v guess sent =
        ⟨.relayed response, addr, sent ++ [(addr, outcomes sent.length)]⟩) ∨
      (outcomes sent.length).isAnswered = false ∧ ∃ w later, p.loop unmarshal outcomes (left + 1) v guess sent =
          p.loop unmarshal outcomes left w later (sent ++ [(addr, outcomes sent.length)]) ∧
        w.tried = addr :: v.tried ∧
        (w.order = order ∨ (outcomes sent.length).executes = false ∧ ∃ hint, hint ∉ addr :: v.tried ∧
          hint ∈ p.backends ∧ w.order = hint :: order) := by
  rcases p.turn_cases unmarshal { v with order := order, tried := addr :: v.tried } guess addr
    (outcomes sent.length) with
    ⟨answered, reply, done⟩ | ⟨open_, w, later, done, tried, continues⟩
  · exact Or.inl ⟨answered, reply, by simp only [loop, next, if_neg new, done]⟩
  · exact Or.inr ⟨open_, w, later, by simp only [loop, next, if_neg new, done], tried, continues⟩

theorem loop_answered_last (unanswered : ∀ attempt ∈ sent, attempt.2.isAnswered = false) :
    (p.loop unmarshal outcomes left v guess sent).sent.Pairwise fun earlier _ => earlier.2.isAnswered = false := by
  have all := List.pairwise_of_forall_mem_list fun earlier present (_ : String × Outcome) _ =>
    unanswered earlier present
  induction left generalizing v guess sent with
  | zero => exact all
  | succ left ih =>
    cases next : v.order with
    | nil =>
      rw [loop_end next]
      exact all
    | cons addr order =>
      by_cases again : addr ∈ v.tried
      · rw [loop_skip next again]
        exact ih unanswered all
      · rcases loop_send p unmarshal outcomes left guess sent next again with
          ⟨_, reply, done⟩ | ⟨still, w, later, done, _⟩
        · rw [done]
          exact List.pairwise_append.mpr ⟨all, List.pairwise_singleton _ _, fun earlier present _ _ =>
            unanswered earlier present⟩
        · have more : ∀ attempt ∈ sent ++ [(addr, outcomes sent.length)], attempt.2.isAnswered = false :=
            List.forall_mem_append.mpr ⟨unanswered, List.forall_mem_singleton.mpr still⟩
          rw [done]
          exact ih more (List.pairwise_of_forall_mem_list fun earlier present _ _ => more earlier present)

theorem loop_idle (all : ∀ addr ∈ v.order.take left, addr ∈ v.tried) :
    (p.loop unmarshal outcomes left v guess sent).sent = sent := by
  induction left generalizing v with
  | zero => rfl
  | succ left ih =>
    cases next : v.order with
    | nil => rw [loop_end next]
    | cons addr order =>
      rw [next, List.take_succ_cons] at all
      rw [loop_skip next (all addr List.mem_cons_self)]
      exact ih fun other present => all other (List.mem_cons_of_mem _ present)

/-- With one address left to turn to, hints apart, at most one more attempt is executed: a hint only takes the
place of an attempt that was not. -/
theorem loop_once {first : String} {rest : List String} (next : v.order = first :: rest)
    (all : ∀ addr ∈ rest.take (left - 1), addr = first ∨ addr ∈ v.tried)
    (none : sent.countP (fun attempt => attempt.2.executes) = 0) :
    (p.loop unmarshal outcomes left v guess sent).executions ≤ 1 := by
  induction left generalizing v guess sent first with
  | zero => exact none.le.trans (Nat.zero_le 1)
  | succ left ih =>
    rw [Nat.add_sub_cancel] at all
    by_cases again : first ∈ v.tried
    · rw [loop_skip next again, Served.executions, loop_idle]
      · exact none.le.trans (Nat.zero_le 1)
      · intro addr present
        rcases all addr present with rfl | tried
        · exact again
        · exact tried
    · rcases loop_send p unmarshal outcomes left guess sent next again with
        ⟨_, reply, done⟩ | ⟨_, w, later, done, tried, same | ⟨quiet, hint, -, -, order⟩⟩
      · rw [done]
        exact countP_concat_le_one none _
      · rw [done, Served.executions, loop_idle]
        · exact countP_concat_le_one none _
        · rw [same, tried]
          intro addr present
          rcases all addr present with rfl | old
          · exact List.mem_cons_self
          · exact List.mem_cons_of_mem _ old
      · have still : (sent ++ [(first, outcomes sent.length)]).countP (fun attempt => attempt.2.executes) = 0 := by
          rw [List.countP_append, none, List.countP_singleton, quiet]
          rfl
        rw [done]
        refine ih order (fun addr present => Or.inr ?_) still
        rw [tried]
        rcases all addr (List.take_subset_take_left _ (Nat.sub_le left 1) present) with rfl | old
        · exact List.mem_cons_self
        · exact List.mem_cons_of_mem _ old

theorem loop_lost (error : String) (lost : ∀ attempt ∈ sent, attempt.2.executes = true)
    (tried : ∀ addr ∈ v.tried, addr ∈ sent.map Prod.fst) :
    let served := p.loop unmarshal (fun _ => .lost error) left v guess sent
    (∀ attempt ∈ served.sent, attempt.2.executes = true) ∧
      (∀ addr ∈ sent.map Prod.fst, addr ∈ served.sent.map Prod.fst) ∧
      ∀ addr ∈ v.order.take left, addr ∈ served.sent.map Prod.fst := by
  induction left generalizing v guess sent with
  | zero => exact ⟨lost, fun _ => id, fun _ never => absurd never List.not_mem_nil⟩
  | succ left ih =>
    cases next : v.order with
    | nil =>
      rw [loop_end next]
      exact ⟨lost, fun _ => id, fun _ never => absurd never List.not_mem_nil⟩
    | cons addr order =>
      rw [List.take_succ_cons]
      by_cases again : addr ∈ v.tried
      · rw [loop_skip next again]
        obtain ⟨executed, kept, reached⟩ := @ih { v with order := order } guess sent lost tried
        exact ⟨executed, kept, List.forall_mem_cons.mpr ⟨kept addr (tried addr again), reached⟩⟩
      · rcases loop_send p unmarshal (fun _ => .lost error) left guess sent next again with
          ⟨never, _⟩ | ⟨_, w, later, done, triedAfter, same | ⟨never, _⟩⟩
        · cases never
        · have more : ∀ attempt ∈ sent ++ [(addr, Outcome.lost error)], attempt.2.executes = true :=
            List.forall_mem_append.mpr ⟨lost, List.forall_mem_singleton.mpr rfl⟩
          have triedMore : ∀ other ∈ w.tried, other ∈ (sent ++ [(addr, Outcome.lost error)]).map Prod.fst := by
            rw [triedAfter, List.map_append]
            exact List.forall_mem_cons.mpr ⟨List.mem_append_right _ List.mem_cons_self, fun other old =>
              List.mem_append_left _ (tried other old)⟩
          obtain ⟨executed, kept, reached⟩ := ih more triedMore
          rw [same] at reached
          rw [done]
          refine ⟨executed, fun other present => kept other ?_, List.forall_mem_cons.mpr ⟨kept addr ?_, reached⟩⟩
          · rw [List.map_append]
            exact List.mem_append_left _ present
          · rw [List.map_append]
            exact List.mem_append_right _ List.mem_cons_self
        · cases never

end

def reach (p : Proxy) (guess : String) : List String := (p.candidateOrder guess).take maxAttempts

end Proxy

/-- A request that is handled is executed at most once exactly if no attempt that comes after a lost one is executed;
and it is so, whatever becomes of the attempts, exactly if its body is refused or all candidates within reach are
the same address. -/
theorem executed_at_most_once_iff (p : Proxy) (unmarshal : Bytes → Option NotLeaderBody) (guess : String)
    (body : RequestBody) :
    (∀ outcomes, (p.serveHTTP unmarshal guess body outcomes).executions ≤ 1 ↔
      (p.serveHTTP unmarshal guess body outcomes).sent.Pairwise fun earlier later =>
        earlier.2.isLost = true → later.2.executes = false) ∧
    ((∀ outcomes, (p.serveHTTP unmarshal guess body outcomes).executions ≤ 1) ↔
      (∃ error, readLimited body p.maxBodyBytes = .error error) ∨
        ∀ first ∈ p.reach guess, ∀ second ∈ p.reach guess, first = second) := by
  have both : ∀ outcomes, (p.serveHTTP unmarshal guess body outcomes).executions ≤ 1 ↔
      (p.serveHTTP unmarshal guess body outcomes).sent.Pairwise fun earlier later =>
        earlier.2.isLost = true → later.2.executes = false := by
    intro outcomes
    have last : (p.serveHTTP unmarshal guess body outcomes).sent.Pairwise fun earlier _ =>
        earlier.2.isAnswered = false := by
      unfold Proxy.serveHTTP
      split
      · exact List.Pairwise.nil
      · exact Proxy.loop_answered_last fun _ never => absurd never List.not_mem_nil
    rw [Served.executions, countP_le_one_iff]
    constructor
    · exact fun pairs => pairs.imp fun once lost => once (by rw [Outcome.executes, lost, Bool.true_or])
    · intro pairs
      refine (last.and pairs).imp fun ⟨unanswered, once⟩ executed => once ?_
      rwa [Outcome.executes, unanswered, Bool.or_false] at executed
  refine ⟨both, ?_⟩
  unfold Proxy.serveHTTP
  cases read : readLimited body p.maxBodyBytes with
  | error error => exact iff_of_true (fun _ => Nat.zero_le 1) (Or.inl ⟨error, rfl⟩)
  | ok data =>
    constructor
    · intro once
      refine Or.inr fun first inFirst second inSecond => ?_
      obtain ⟨executed, _, reached⟩ :=
        @Proxy.loop_lost p unmarshal maxAttempts ⟨p.candidateOrder guess, [], none, false⟩
        guess [] "" (fun _ never => absurd never List.not_mem_nil) fun _ never => absurd never List.not_mem_nil
      have few := once fun _ => .lost ""
      rw [Served.executions, List.countP_eq_length.mpr executed, ← List.length_map Prod.fst] at few
      exact eq_of_length_le_one few (reached first inFirst) (reached second inSecond)
    · rintro (⟨error, never⟩ | same) outcomes
      · cases never
      · unfold Proxy.reach at same
        cases order : p.candidateOrder guess with
        | nil =>
          rw [Proxy.loop_end rfl]
          exact Nat.zero_le 1
        | cons first rest =>
          rw [order] at same
          refine Proxy.loop_once rfl (fun addr present => Or.inl ?_) rfl
          exact same addr (List.mem_cons_of_mem _ present) first List.mem_cons_self

/-- The first backend executes the write and its response is lost; the second executes it again. -/
theorem lost_write_executed_again :
    let p : Proxy := { backends := ["http://forgedb-1:8080", "http://forgedb-2:8080"] }
    let served := p.serveHTTP (fun _ => none) "" { data := [1] }
      fun n => if n = 0 then .lost "EOF" else .answered ⟨200, []⟩ (by decide)
    served.executions = 2 ∧ served.sent.map Prod.fst = p.backends ∧ served.reply = .relayed ⟨200, []⟩ := by
  decide

end ForgeDB.Gateway
