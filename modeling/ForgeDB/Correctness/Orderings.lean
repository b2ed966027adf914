import ForgeDB.Correctness.Checker
import ForgeDB.Data.Exploration

/-!
What a search explores: the legal partial orderings of its operations, in preorder. It stops at the
first of them by which every operation has been placed somewhere, be it in a branch that was given up.
-/

namespace ForgeDB.Correctness

open Exploration

structure Attempt where
  required : List Operation
  included : List Operation

namespace Attempt

def all (a : Attempt) : List Operation := a.required ++ a.included

/-- The operation may come next: it is new, everything that completed before it began is placed, and it
reads what was recorded. -/
def Fits (a : Attempt) (placed : List Operation) (op : Operation) : Prop :=
  op ∉ placed ∧ (∀ first ∈ a.required, first.id ≠ op.id → first.complete < op.invoke → first ∈ placed) ∧
    (replay placed).matches op = true

instance (a : Attempt) (placed : List Operation) (op : Operation) : Decidable (a.Fits placed op) :=
  inferInstanceAs (Decidable (_ ∧ _ ∧ _))

def orderings (a : Attempt) : List (List Operation) := [] :: below a.all a.Fits a.all.length []

/-- The first ordering by which every operation has occurred in some ordering. -/
def firstCovering (a : Attempt) : Option (List Operation) := (Exploration.firstCovering a.all [] a.orderings).2

def searcher (a : Attempt) (maxStates : Int) : Searcher := newSearcher a.required a.included maxStates

structure Tracks (a : Attempt) (placed seen : List Operation) (done : SortedMap Int Bool) : Prop where
  placed : ∀ op ∈ a.all, (done.get? op.id).getD false = true ↔ op ∈ placed
  seen : ∀ op ∈ a.all, (done.get? op.id).isSome ↔ op ∈ seen
  known : ∀ id, (done.get? id).isSome → ∃ op ∈ a.all, op.id = id

end Attempt

theorem addPreds_get? (required : List Operation) (preds : SortedMap Int (List Int)) (b : Operation) (id : Int) :
    ((addPreds required preds b).get? id).getD [] =
      if id = b.id then
        (preds.get? id).getD [] ++ (required.filter fun a => a.id ≠ b.id ∧ a.complete < b.invoke).map Operation.id
      else (preds.get? id).getD [] := by
  unfold addPreds
  induction required generalizing preds with
  | nil => simp only [List.foldl_nil, List.filter_nil, List.map_nil, List.append_nil, ite_self]
  | cons a rest ih =>
    rw [List.foldl_cons, ih]
    by_cases first : a.id ≠ b.id ∧ a.complete < b.invoke
    · rw [if_pos first, List.filter_cons_of_pos (by simpa using first)]
      by_cases same : id = b.id
      · subst same
        simp only [if_true, SortedMap.get?_insert, Option.getD_some, List.map_cons, List.append_assoc,
          List.singleton_append]
      · simp only [same, if_false, SortedMap.get?_insert]
    · rw [if_neg first, List.filter_cons_of_neg (by simpa using first)]

theorem foldl_addPreds_absent (required : List Operation) {ops : List Operation} (preds : SortedMap Int (List Int))
    {id : Int} (absent : ∀ op ∈ ops, op.id ≠ id) :
    ((ops.foldl (addPreds required) preds).get? id).getD [] = (preds.get? id).getD [] := by
  induction ops generalizing preds with
  | nil => rfl
  | cons first rest ih =>
    rw [List.foldl_cons, ih _ fun op present => absent op (List.mem_cons_of_mem _ present), addPreds_get?,
      if_neg (absent first List.mem_cons_self).symm]

theorem foldl_addPreds_present (required : List Operation) {ops : List Operation}
    (distinct : (ops.map Operation.id).Nodup) {preds : SortedMap Int (List Int)} {op : Operation} (present : op ∈ ops)
    (fresh : (preds.get? op.id).getD [] = []) :
    ((ops.foldl (addPreds required) preds).get? op.id).getD [] =
      (required.filter fun a => a.id ≠ op.id ∧ a.complete < op.invoke).map Operation.id := by
  induction ops generalizing preds with
  | nil => cases present
  | cons first rest ih =>
    obtain ⟨new, distinct⟩ := List.nodup_cons.mp distinct
    rw [List.foldl_cons]
    rcases List.mem_cons.mp present with rfl | later
    · rw [foldl_addPreds_absent required _ fun other present same => new (List.mem_map.mpr ⟨other, present, same⟩),
        addPreds_get?, if_pos rfl, fresh, List.nil_append]
    · have apart : op.id ≠ first.id := fun same => new (List.mem_map.mpr ⟨op, later, same⟩)
      refine ih distinct later ?_
      rw [addPreds_get?, if_neg apart]
      exact fresh

namespace Attempt

section Searching

variable {a : Attempt} {maxStates : Int} {placed seen : List Operation} {done : SortedMap Int Bool} {op : Operation}

section

variable (distinct : (a.all.map Operation.id).Nodup)

include distinct

theorem unique_id {first second : Operation} (left : first ∈ a.all) (right : second ∈ a.all)
    (same : first.id = second.id) : first = second :=
  List.inj_on_of_nodup_map distinct left right same

theorem searcher_op (present : op ∈ a.all) : (a.searcher maxStates).ops.get? op.id = some op :=
  SortedMap.get?_foldl_present Operation.id id SortedMap.empty distinct present

theorem searcher_known (id : Int) : ((a.searcher maxStates).ops.get? id).isSome ↔ ∃ op ∈ a.all, op.id = id := by
  constructor
  · intro present
    by_contra absent
    have missing : (a.searcher maxStates).ops.get? id = none :=
      SortedMap.get?_foldl_absent Operation.id (fun op => op) SortedMap.empty
        fun op present same => absent ⟨op, present, same⟩
    rw [missing] at present
    cases present
  · rintro ⟨op, present, rfl⟩
    rw [searcher_op distinct present]
    rfl

theorem searcher_preds (present : op ∈ a.all) : ((a.searcher maxStates).preds.get? op.id).getD [] =
      (a.required.filter fun first => first.id ≠ op.id ∧ first.complete < op.invoke).map Operation.id :=
  foldl_addPreds_present a.required distinct present rfl

end

theorem Tracks.start : Tracks a [] [] SortedMap.empty where
  placed op _ := by simp only [SortedMap.get?_empty, Option.getD_none, Bool.false_eq_true, List.not_mem_nil]
  seen op _ := by simp only [SortedMap.get?_empty, Option.isSome_none, Bool.false_eq_true, List.not_mem_nil]
  known id present := by cases present

section

variable (distinct : (a.all.map Operation.id).Nodup)

include distinct

theorem Tracks.finished (tracks : Tracks a placed seen done) :
    done.entries.length = (a.searcher maxStates).ops.entries.length ↔ a.all ⊆ seen := by
  rw [SortedMap.length_eq_iff fun id present => (searcher_known distinct id).mpr (tracks.known id present)]
  constructor
  · intro whole op present
    exact (tracks.seen op present).mp (whole op.id ((searcher_known distinct op.id).mpr ⟨op, present, rfl⟩))
  · intro whole id present
    obtain ⟨op, found, rfl⟩ := (searcher_known distinct id).mp present
    exact (tracks.seen op found).mpr (whole found)

theorem Tracks.place (tracks : Tracks a placed seen done) (inside : placed ⊆ seen) (present : op ∈ a.all) :
    Tracks a (placed ++ [op]) (seen ++ (placed ++ [op])) (done.insert op.id true) where
  placed other known := by
    rw [SortedMap.get?_insert, List.mem_append, List.mem_singleton]
    split
    · rename_i same
      simp only [Option.getD_some, unique_id distinct known present same, or_true]
    · rename_i apart
      rw [tracks.placed other known]
      exact ⟨Or.inl, fun either => either.resolve_right fun same => apart (congrArg Operation.id same)⟩
  seen other known := by
    rw [SortedMap.get?_insert, List.mem_append, List.mem_append, List.mem_singleton]
    split
    · rename_i same
      simp only [Option.isSome_some, unique_id distinct known present same, or_true]
    · rename_i apart
      rw [tracks.seen other known]
      refine ⟨Or.inl, fun either => ?_⟩
      rcases either with old | old | same
      · exact old
      · exact inside old
      · exact absurd (congrArg Operation.id same) apart
  known id found := by
    rw [SortedMap.get?_insert] at found
    split at found
    · rename_i same
      exact ⟨op, present, same.symm⟩
    · exact tracks.known id found

theorem Tracks.unplace (tracks : Tracks a (placed ++ [op]) seen done) (new : op ∉ placed) (present : op ∈ a.all)
    (before : op ∈ seen) : Tracks a placed seen (done.insert op.id false) where
  placed other known := by
    rw [SortedMap.get?_insert]
    split
    · rename_i same
      have equal := unique_id distinct known present same
      subst equal
      simp only [Option.getD_some, Bool.false_eq_true, false_iff]
      exact new
    · rename_i apart
      rw [tracks.placed other known, List.mem_append, List.mem_singleton]
      exact ⟨fun either => either.resolve_right fun same => apart (congrArg Operation.id same), Or.inl⟩
  seen other known := by
    rw [SortedMap.get?_insert]
    split
    · rename_i same
      have equal := unique_id distinct known present same
      subst equal
      exact ⟨fun _ => before, fun _ => rfl⟩
    · exact tracks.seen other known
  known id found := by
    rw [SortedMap.get?_insert] at found
    split at found
    · rename_i same
      exact ⟨op, present, same.symm⟩
    · exact tracks.known id found

theorem Tracks.ready {t : SearchState} (tracks : Tracks a placed seen t.done) (present : op ∈ a.all) :
    (a.searcher maxStates).ready t op.id = true ↔
      op ∉ placed ∧ ∀ first ∈ a.required, first.id ≠ op.id → first.complete < op.invoke → first ∈ placed := by
  rw [Searcher.ready, Bool.and_eq_true, searcher_preds distinct present]
  refine and_congr ?_ ?_
  · rw [Bool.not_eq_true', ← Bool.not_eq_true]
    exact not_congr (tracks.placed op present)
  · simp only [List.all_eq_true, List.mem_map, List.mem_filter, decide_eq_true_eq]
    constructor
    · intro each first required other earlier
      exact (tracks.placed first (List.mem_append_left _ required)).mp
        (each first.id ⟨first, ⟨required, other, earlier⟩, rfl⟩)
    · rintro each id ⟨first, ⟨required, other, earlier⟩, rfl⟩
      exact (tracks.placed first (List.mem_append_left _ required)).mpr (each first required other earlier)

end

inductive Explores (a : Attempt) (maxStates : Int) (placed : List Operation) :
    List Operation × Option (List Operation) → SearchState × Bool → Prop
  | exceeded {walked : List Operation × Option (List Operation)} {t : SearchState} (spent : t.budgetExceeded = true)
      (above : maxStates < t.states) : Explores a maxStates placed walked (t, false)
  | found {seen ordering : List Operation} {t : SearchState} (within : t.budgetExceeded = false)
      (result : t.result = ordering.map Operation.id) : Explores a maxStates placed (seen, some ordering) (t, true)
  | missed {seen : List Operation} {t : SearchState} (within : t.budgetExceeded = false)
      (tracks : Tracks a placed seen t.done) (inside : placed ⊆ seen) :
      Explores a maxStates placed (seen, none) (t, false)

theorem matches_eq_false {m : Model} :
    (op.kind = .get ∧ ((m.apply op).2.1 ≠ op.found ∨ ((m.apply op).2.1 = true ∧ (m.apply op).2.2 ≠ op.result))) ↔
      ¬m.matches op = true := by
  unfold Model.matches
  by_cases reads : op.kind = .get
  · simp only [reads, true_and, ne_eq, not_true_eq_false, if_false]
    cases (m.apply op).2.1 <;> cases op.found <;> simp
  · simp only [reads, false_and, ne_eq, not_false_eq_true, if_true, not_true_eq_false]

theorem searchLoop_explores (distinct : (a.all.map Operation.id).Nodup) {depth : Nat}
    {deeper : List Int → Model → SearchState → SearchState × Bool}
    (below_ : ∀ op ∈ a.all, op ∉ placed → ∀ seen t, Tracks a (placed ++ [op]) seen t.done → placed ++ [op] ⊆ seen →
      t.budgetExceeded = false →
      Explores a maxStates (placed ++ [op])
        (if a.all ⊆ seen then (seen, some (placed ++ [op]))
          else Exploration.firstCovering a.all seen (below a.all a.Fits depth (placed ++ [op])))
        (deeper ((placed ++ [op]).map Operation.id) (replay (placed ++ [op])) t))
    {todo : List Operation} (part : todo ⊆ a.all) {t : SearchState} (tracks : Tracks a placed seen t.done)
    (inside : placed ⊆ seen) (within : t.budgetExceeded = false) :
    Explores a maxStates placed
      (Exploration.firstCovering a.all seen ((todo.filter (a.Fits placed ·)).flatMap fun op =>
        (placed ++ [op]) :: below a.all a.Fits depth (placed ++ [op])))
      ((a.searcher maxStates).searchLoop deeper (placed.map Operation.id) (replay placed) (todo.map Operation.id)
        t) := by
  induction todo generalizing seen t with
  | nil => exact .missed within tracks inside
  | cons op rest ih =>
    have present := part List.mem_cons_self
    have others : rest ⊆ a.all := fun other later => part (List.mem_cons_of_mem _ later)
    rw [List.map_cons, Searcher.searchLoop]
    by_cases old : t.isDone op.id = true
    · have unfit : ¬a.Fits placed op := fun fits => fits.1 ((tracks.placed op present).mp old)
      rw [if_pos old, List.filter_cons_of_neg (by simpa using unfit)]
      exact ih others tracks inside within
    rw [if_neg old]
    by_cases ready : (a.searcher maxStates).ready t op.id = true
    swap
    · have unfit : ¬a.Fits placed op := fun fits => ready ((tracks.ready distinct present).mpr ⟨fits.1, fits.2.1⟩)
      rw [if_pos (by simpa using ready), List.filter_cons_of_neg (by simpa using unfit)]
      exact ih others tracks inside within
    rw [if_neg (by simpa using ready)]
    obtain ⟨new, earlier⟩ := (tracks.ready distinct present).mp ready
    dsimp only
    split
    · rename_i above
      exact .exceeded rfl above
    rw [searcher_op distinct present, Option.getD_some]
    split
    · rename_i mismatch
      have unfit : ¬a.Fits placed op := fun fits => matches_eq_false.mp mismatch fits.2.2
      rw [List.filter_cons_of_neg (by simpa using unfit)]
      refine ih others ?_ inside ?_
      · rw [SearchState.recordFailure_done]
        exact tracks
      · rw [SearchState.recordFailure_budgetExceeded]
        exact within
    · rename_i agreed
      have fits : a.Fits placed op := ⟨new, earlier, not_not.mp (agreed ∘ matches_eq_false.mpr)⟩
      have grown : placed ++ [op] ⊆ seen ++ (placed ++ [op]) := List.subset_append_right ..
      have child := below_ op present new (seen ++ (placed ++ [op]))
        { t with states := t.states + 1, done := t.done.insert op.id true }
        (tracks.place distinct inside present) grown within
      rw [List.filter_cons_of_pos (by simpa using fits), List.flatMap_cons, Exploration.firstCovering_append,
        Exploration.firstCovering]
      rw [List.map_append, List.map_singleton, replay_snoc] at child
      generalize (if a.all ⊆ seen ++ (placed ++ [op]) then _ else _ : List Operation × Option (List Operation)) = walked
        at child ⊢
      generalize deeper _ _ _ = outcome at child ⊢
      cases child with
      | exceeded spent above =>
        dsimp only
        rw [if_pos spent]
        exact .exceeded spent above
      | found within result => exact .found within result
      | missed within tracks inside =>
        dsimp only
        rw [if_neg (by rw [within]; exact Bool.false_ne_true)]
        have before : op ∈ _ := inside (List.mem_append_right _ List.mem_cons_self)
        exact ih others (tracks.unplace distinct new present before)
          (fun other there => inside (List.mem_append_left _ there)) within

theorem search_explores (distinct : (a.all.map Operation.id).Nodup) {depth : Nat} (part : placed ⊆ a.all)
    (unique : placed.Nodup) (level : placed.length + depth = a.all.length) {t : SearchState}
    (tracks : Tracks a placed seen t.done) (inside : placed ⊆ seen) (within : t.budgetExceeded = false) :
    Explores a maxStates placed
      (if a.all ⊆ seen then (seen, some placed)
        else Exploration.firstCovering a.all seen (below a.all a.Fits depth placed))
      ((a.searcher maxStates).search (depth + 1) (placed.map Operation.id) (replay placed) t) := by
  induction depth generalizing placed seen t with
  | zero =>
    have whole : a.all ⊆ placed :=
      (List.subperm_of_subset unique part).perm_of_length_le (by omega) |>.symm.subset
    have covered : a.all ⊆ seen := List.Subset.trans whole inside
    rw [if_pos covered, Searcher.search, if_pos ((tracks.finished distinct).mpr covered)]
    exact .found within rfl
  | succ depth ih =>
    rw [Searcher.search]
    by_cases covered : a.all ⊆ seen
    · rw [if_pos covered, if_pos ((tracks.finished distinct).mpr covered)]
      exact .found within rfl
    · rw [if_neg covered, if_neg fun same => covered ((tracks.finished distinct).mp same)]
      refine searchLoop_explores distinct (fun op present new seen t tracks inside within => ?_)
        (List.Subset.refl _) tracks inside within
      refine ih ?_ ?_ ?_ tracks inside within
      · exact List.append_subset.mpr ⟨part, fun other here => List.mem_singleton.mp here ▸ present⟩
      · rw [List.nodup_append]
        refine ⟨unique, List.nodup_singleton op, fun old there next here => ?_⟩
        rw [List.mem_singleton.mp here]
        exact fun same => new (same ▸ there)
      · rw [List.length_append, List.length_singleton]
        omega

theorem run_cases (distinct : (a.all.map Operation.id).Nodup) :
    ((a.searcher maxStates).run.status = .inconclusive ∧ maxStates < (a.searcher maxStates).run.statesExplored) ∨
      (∃ ordering, a.firstCovering = some ordering ∧ (a.searcher maxStates).run.status = .valid ∧
        (a.searcher maxStates).run.linearization = ordering.map Operation.id) ∨
      (a.firstCovering = none ∧ (a.searcher maxStates).run.status = .violation) := by
  have size : (a.searcher maxStates).ids.length = a.all.length := List.length_map _
  have explores : Explores a maxStates [] (Exploration.firstCovering a.all [] a.orderings)
      ((a.searcher maxStates).search (a.all.length + 1) [] newModel .start) :=
    search_explores distinct (List.nil_subset _) List.nodup_nil (Nat.zero_add _) Tracks.start (List.nil_subset _) rfl
  unfold Searcher.run
  rw [size]
  unfold firstCovering
  generalize Exploration.firstCovering a.all [] a.orderings = walked at explores ⊢
  generalize (a.searcher maxStates).search (a.all.length + 1) [] newModel .start = outcome at explores ⊢
  cases explores with
  | exceeded spent above =>
    refine Or.inl ?_
    simp only [spent, if_true, true_and]
    exact above
  | found within result =>
    refine Or.inr (Or.inl ⟨_, rfl, ?_⟩)
    simp only [within, Bool.false_eq_true, if_false, if_true, true_and]
    exact result
  | missed within =>
    refine Or.inr (Or.inr ⟨rfl, ?_⟩)
    simp only [within, Bool.false_eq_true, if_false]

end Searching

end Attempt

/-- The most states a search of the given depth can try, with so many operations. -/
def cost (width : Nat) : Nat → Nat
  | 0 => 0
  | depth + 1 => width * (1 + cost width depth)

/-- The search stays within a bound on the states it adds, and within its budget if that allows for them. -/
def Bounded (s : Searcher) (bound : Nat) (t : SearchState) (outcome : SearchState × Bool) : Prop :=
  outcome.1.states ≤ t.states + bound ∧
    (t.budgetExceeded = false → t.states + bound ≤ s.maxStates → outcome.1.budgetExceeded = false)

theorem Searcher.searchLoop_bounded (s : Searcher) {bound : Nat}
    {deeper : List Int → Model → SearchState → SearchState × Bool}
    (below_ : ∀ linearized m t, Bounded s bound t (deeper linearized m t)) (linearized : List Int) (m : Model)
    (todo : List Int) (t : SearchState) :
    Bounded s (todo.length * (1 + bound)) t (s.searchLoop deeper linearized m todo t) := by
  induction todo generalizing t with
  | nil =>
    refine ⟨?_, fun within _ => within⟩
    simp only [List.length_nil, Nat.zero_mul, Searcher.searchLoop, Nat.cast_zero, Int.add_zero, Int.le_refl]
  | cons id rest ih =>
    have total : (((id :: rest).length * (1 + bound) : Nat) : Int) =
        (rest.length * (1 + bound) : Nat) + (1 + bound : Nat) := by
      rw [List.length_cons, Nat.succ_mul]
      omega
    have skip : ∀ next : SearchState, next.states ≤ t.states + (1 + bound : Nat) →
        (t.budgetExceeded = false → t.states + (1 + bound : Nat) ≤ s.maxStates → next.budgetExceeded = false) →
          Bounded s ((id :: rest).length * (1 + bound)) t (s.searchLoop deeper linearized m rest next) := by
      intro next near kept
      obtain ⟨least, within⟩ := ih next
      refine ⟨by omega, fun before budget => within (kept before ?_) ?_⟩
      · omega
      · omega
    rw [Searcher.searchLoop]
    split
    · exact skip t (by omega) fun within _ => within
    split
    · exact skip t (by omega) fun within _ => within
    dsimp only
    split
    · rename_i above
      refine ⟨by dsimp only; omega, fun _ budget => ?_⟩
      omega
    split
    · refine skip _ ?_ fun within _ => ?_
      · rw [SearchState.recordFailure_states]
        dsimp only
        omega
      · rw [SearchState.recordFailure_budgetExceeded]
        exact within
    · have child := below_ (linearized ++ [id]) (m.apply ((s.ops.get? id).getD default)).1
        { t with states := t.states + 1, done := t.done.insert id true }
      generalize deeper _ _ _ = outcome at child ⊢
      obtain ⟨near, kept⟩ := child
      dsimp only at near kept
      obtain ⟨next, ok⟩ := outcome
      cases ok with
      | true => exact ⟨by dsimp only at near ⊢; omega, fun within budget => kept within (by omega)⟩
      | false =>
        dsimp only at near kept ⊢
        split
        · exact ⟨by dsimp only; omega, fun within budget => kept within (by omega)⟩
        · exact skip _ (by dsimp only; omega) fun within budget => kept within (by omega)

theorem Searcher.search_bounded (s : Searcher) (fuel : Nat) (linearized : List Int) (m : Model) (t : SearchState) :
    Bounded s (cost s.ids.length fuel) t (s.search fuel linearized m t) := by
  induction fuel generalizing linearized m t with
  | zero => exact ⟨by simp only [cost, Searcher.search, Nat.cast_zero, Int.add_zero, Int.le_refl],
    fun within _ => within⟩
  | succ fuel ih =>
    rw [Searcher.search]
    split
    · exact ⟨by dsimp only; omega, fun within _ => within⟩
    · exact s.searchLoop_bounded (fun linearized m t => ih linearized m t) linearized m s.ids t

theorem Attempt.run_bounded {a : Attempt} {maxStates : Int}
    (enough : cost a.all.length (a.all.length + 1) ≤ maxStates) :
    (a.searcher maxStates).run.status ≠ .inconclusive ∧
      (a.searcher maxStates).run.statesExplored ≤ cost a.all.length (a.all.length + 1) := by
  have size : (a.searcher maxStates).ids.length = a.all.length := List.length_map _
  have bounded := (a.searcher maxStates).search_bounded (a.all.length + 1) [] newModel .start
  rw [size] at bounded
  unfold Searcher.run
  rw [size]
  obtain ⟨least, within⟩ := bounded
  have still := within rfl (le_of_eq_of_le (Int.zero_add _) enough)
  generalize (a.searcher maxStates).search (a.all.length + 1) [] newModel .start = outcome at least still ⊢
  obtain ⟨t, ok⟩ := outcome
  dsimp only at still least ⊢
  simp only [still, Bool.false_eq_true, if_false]
  simp only [SearchState.start, Int.zero_add] at least
  cases ok with
  | true => exact ⟨by simp only [if_true, ne_eq, reduceCtorEq, not_false_eq_true], least⟩
  | false => exact ⟨by simp only [Bool.false_eq_true, if_false, ne_eq, reduceCtorEq, not_false_eq_true], least⟩

end ForgeDB.Correctness
