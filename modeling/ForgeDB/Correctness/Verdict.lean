import ForgeDB.Correctness.Orderings
import Mathlib.Data.List.MinMax

/-!
What the checker's verdicts are worth. It accepts a history once every operation of an attempt has been placed
somewhere in the search, not always in one ordering; it rejects one only if in no attempt every operation can be
placed, but beyond 64 incomplete writes no attempt includes them all.
-/

namespace ForgeDB.Correctness

open Exploration

namespace History

def attempts (h : History) : List Attempt :=
  (optionalSubsets h.optional.length).map fun mask => ⟨h.completed, included h.optional mask⟩

/-- No completed operation reads, or one of them overlaps with no other and is followed by no read. -/
def Closes (h : History) : Prop :=
  (∀ op ∈ h.completed, op.kind ≠ .get) ∨ ∃ last ∈ h.completed, ∀ op ∈ h.completed,
    op = last ∨ op.complete < last.invoke ∨ last.complete < op.invoke ∧ op.kind ≠ .get

instance (h : History) : Decidable h.Closes := inferInstanceAs (Decidable (_ ∨ _))

/-- If the history has a linearization, then all operations of some attempt can be placed, each of them
in a legal partial ordering of that attempt. -/
def Covered (h : History) : Prop :=
  Linearizable h → ∃ a ∈ h.attempts, ∀ op ∈ a.all, ∃ ordering ∈ a.orderings, op ∈ ordering

end History

theorem included_sublist (optional : List Operation) (mask : BitVec 64) :
    (included optional mask).Sublist optional := by
  have whole : (optional.zipIdx.map Prod.fst).Sublist optional := by rw [List.zipIdx_map_fst]
  exact (List.filter_sublist.map Prod.fst).trans whole

section Attempts

variable {h : History} {a : Attempt}

theorem attempts_required (member : a ∈ h.attempts) : a.required = h.completed := by
  obtain ⟨mask, _, rfl⟩ := List.mem_map.mp member
  rfl

theorem attempts_known (member : a ∈ h.attempts) {op : Operation} (present : op ∈ a.all) :
    op ∈ h.ops ∧ (op.outcome = .ok ∧ op ∈ a.required ∨ op.optional = true) := by
  obtain ⟨mask, _, rfl⟩ := List.mem_map.mp member
  rcases List.mem_append.mp present with required | chosen
  · obtain ⟨known, completed⟩ := List.mem_filter.mp required
    exact ⟨known, Or.inl ⟨of_decide_eq_true completed, required⟩⟩
  · obtain ⟨known, optional⟩ := List.mem_filter.mp ((included_sublist h.optional mask).subset chosen)
    exact ⟨known, Or.inr optional⟩

theorem optional_not_ok {op : Operation} (optional : op.optional = true) : op.outcome ≠ .ok := by
  intro completed
  simp only [Operation.optional, completed, reduceCtorEq, decide_false, Bool.false_and, Bool.false_eq_true] at optional

theorem optional_write {op : Operation} (optional : op.optional = true) : op.kind ≠ .get := by
  intro reads
  simp [Operation.optional, reads] at optional

theorem matches_write {m : Model} {op : Operation} (write : op.kind ≠ .get) : m.matches op = true := by
  simp only [Model.matches, ne_eq, write, not_false_eq_true, if_true]

theorem attempts_distinct (valid : h.validate = .ok ()) (member : a ∈ h.attempts) : (a.all.map Operation.id).Nodup := by
  have unique := History.validate_distinct valid
  have separate := List.inj_on_of_nodup_map unique
  refine List.Nodup.map_on (fun first left second right same =>
    separate (attempts_known member left).1 (attempts_known member right).1 same) ?_
  obtain ⟨mask, _, rfl⟩ := List.mem_map.mp member
  have whole := unique.of_map
  refine List.nodup_append.mpr ⟨whole.filter _, (whole.filter _).sublist (included_sublist h.optional mask),
    fun first left second right same => ?_⟩
  have completed := of_decide_eq_true (List.mem_filter.mp left).2
  have optional := (List.mem_filter.mp ((included_sublist h.optional mask).subset right)).2
  exact optional_not_ok optional (same ▸ completed)

theorem orderings_steps {ordering : List Operation} (listed : ordering ∈ a.orderings) :
    Steps a.all a.Fits [] ordering := by
  rcases List.mem_cons.mp listed with rfl | deeper
  · trivial
  · obtain ⟨rest, rfl, steps⟩ := steps_of_mem_below deeper
    exact steps

theorem steps_distinct {ordering : List Operation} (steps : Steps a.all a.Fits [] ordering) : ordering.Nodup :=
  Steps.nodup (fun _ _ fits => fits.1) List.nodup_nil steps

theorem steps_subset {ordering : List Operation} (steps : Steps a.all a.Fits [] ordering) : ordering ⊆ a.all := by
  intro op present
  obtain ⟨before, after, rfl⟩ := List.append_of_mem present
  exact steps.fits_at.1

theorem mem_orderings {ordering : List Operation} (steps : Steps a.all a.Fits [] ordering) :
    ordering ∈ a.orderings := by
  by_cases root : ordering = []
  · rw [root]
    exact List.mem_cons_self
  · exact List.mem_cons_of_mem _ (mem_below_of_steps steps root
      (List.subperm_of_subset (steps_distinct steps) (steps_subset steps)).length_le)

theorem ordering_linearizes (valid : h.validate = .ok ()) (member : a ∈ h.attempts) {ordering : List Operation}
    (listed : ordering ∈ a.orderings) (whole : ∀ op ∈ h.completed, op ∈ ordering) : Linearizes h ordering := by
  have steps := orderings_steps listed
  have distinct := steps_distinct steps
  have unique := attempts_distinct valid member
  constructor
  · exact distinct.map_on fun first left second right same =>
      Attempt.unique_id unique (steps_subset steps left) (steps_subset steps right) same
  · exact fun op known completed => whole op (List.mem_filter.mpr ⟨known, decide_eq_true completed⟩)
  · intro op present
    exact (attempts_known member (steps_subset steps present)).imp_right (Or.imp_left And.left)
  · -- What completed before an operation began was placed when that operation was.
    refine pairwise_of_split fun before op after same later there => ?_
    rintro ⟨completed, earlier⟩
    subst same
    obtain ⟨_, fits⟩ := steps.fits_at
    have known : later ∈ a.all := steps_subset steps (List.mem_append_right _ (List.mem_cons_of_mem _ there))
    have required : later ∈ a.required := by
      rcases (attempts_known member known).2 with ⟨_, required⟩ | optional
      · exact required
      · exact absurd completed (optional_not_ok optional)
    obtain ⟨_, tail, apart⟩ := List.nodup_append.mp distinct
    have other : later.id ≠ op.id := by
      intro same
      have equal := Attempt.unique_id unique known steps.fits_at.1 same
      subst equal
      exact (List.nodup_cons.mp tail).1 there
    exact apart later (fits.2.1 later required other earlier) later (List.mem_cons_of_mem _ there) rfl
  · intro before op after same
    subst same
    exact steps.fits_at.2.2.2

theorem linearizes_steps (valid : h.validate = .ok ()) (member : a ∈ h.attempts) (everything : h.optional ⊆ a.all)
    {ops : List Operation} (linearizes : Linearizes h ops) :
    Steps a.all a.Fits [] (ops ++ h.optional.filter (· ∉ ops)) := by
  have distinct := linearizes.distinct.of_map
  have required := attempts_required member
  refine steps_append.mpr ⟨steps_of_fits fun before op after same => ?_, steps_of_fits fun before op after same => ?_⟩
  · have present : op ∈ ops := by
      rw [same]
      exact List.mem_append_right _ List.mem_cons_self
    have known := linearizes.known op present
    refine ⟨?_, ?_, fun first needed other earlier => ?_, linearizes.reproduced before op after same⟩
    · rcases known.2 with completed | optional
      · exact List.mem_append_left _ (required ▸ List.mem_filter.mpr ⟨known.1, decide_eq_true completed⟩)
      · exact everything (List.mem_filter.mpr ⟨known.1, optional⟩)
    · rw [same] at distinct
      intro again
      exact (List.nodup_append.mp distinct).2.2 op again op List.mem_cons_self rfl
    · rw [required] at needed
      obtain ⟨recorded, completed⟩ := List.mem_filter.mp needed
      have completed := of_decide_eq_true completed
      have placed := linearizes.every first recorded completed
      have ordered := linearizes.realTime
      rw [same] at placed ordered
      rcases List.mem_append.mp placed with early | late
      · exact early
      · rcases List.mem_cons.mp late with equal | later
        · exact absurd (congrArg Operation.id equal) other
        · have pairs := (List.pairwise_append.mp ordered).2.1
          exact absurd ⟨completed, earlier⟩ ((List.pairwise_cons.mp pairs).1 first later)
  · have present : op ∈ h.optional ∧ op ∉ ops := by
      have there : op ∈ h.optional.filter (· ∉ ops) := by
        rw [same]
        exact List.mem_append_right _ List.mem_cons_self
      obtain ⟨optional, missing⟩ := List.mem_filter.mp there
      exact ⟨optional, of_decide_eq_true missing⟩
    refine ⟨everything present.1, fun again => ?_, fun first needed _ _ => ?_, ?_⟩
    · rcases List.mem_append.mp again with old | early
      · exact present.2 old
      · have once : (h.optional.filter (· ∉ ops)).Nodup := ((History.validate_distinct valid).of_map.filter _).filter _
        rw [same] at once
        exact (List.nodup_append.mp once).2.2 op early op List.mem_cons_self rfl
    · rw [required] at needed
      obtain ⟨recorded, completed⟩ := List.mem_filter.mp needed
      exact List.mem_append_left _
        (List.mem_append_right _ (linearizes.every first recorded (of_decide_eq_true completed)))
    · exact matches_write (optional_write (List.mem_filter.mp present.1).2)

theorem firstCovering_isSome (a : Attempt) :
    a.firstCovering ≠ none ↔ ∀ op ∈ a.all, ∃ ordering ∈ a.orderings, op ∈ ordering := by
  have reached : (∀ op ∈ a.all, ∃ ordering ∈ a.orderings, op ∈ ordering) ↔ a.all ⊆ [] ++ a.orderings.flatten := by
    simp only [List.nil_append, List.subset_def, List.mem_flatten]
  rw [reached]
  by_cases blank : a.all ⊆ []
  · have first : a.firstCovering = some [] := by
      rw [Attempt.firstCovering, Attempt.orderings, Exploration.firstCovering, List.append_nil, if_pos blank]
    rw [first]
    exact ⟨fun _ => List.Subset.trans blank (List.nil_subset _), fun _ => Option.some_ne_none _⟩
  · rw [ne_eq, Attempt.firstCovering, Exploration.firstCovering_none blank, not_not]

end Attempts

theorem mask_selects : ∀ k : Fin 65, ∀ i : Fin 64, i.val < k.val → ((1#64 <<< k.val) - 1) &&& (1#64 <<< i.val) ≠ 0 := by
  decide +kernel

theorem mask_listed : ∀ k : Fin 13, BitVec.ofNat 64 (2 ^ k.val - 1) = (1#64 <<< k.val) - 1 := by
  decide

theorem included_all {optional : List Operation} (few : optional.length ≤ 64) :
    ∃ mask ∈ optionalSubsets optional.length, included optional mask = optional := by
  have whole : included optional ((1#64 <<< optional.length) - 1) = optional := by
    rw [included, List.filter_eq_self.mpr, List.zipIdx_map_fst]
    intro pair present
    refine decide_eq_true ?_
    have inside : pair.2 < optional.length := by
      have bound := List.snd_lt_of_mem_zipIdx present
      omega
    exact mask_selects ⟨optional.length, by omega⟩ ⟨pair.2, by omega⟩ inside
  refine ⟨_, ?_, whole⟩
  unfold optionalSubsets
  split
  · rename_i none
    rw [none]
    decide
  split
  · exact List.mem_cons_of_mem _ List.mem_cons_self
  · rename_i some small
    rw [maxOptionalWrites, not_lt] at small
    refine List.mem_map.mpr ⟨2 ^ optional.length - 1, List.mem_range.mpr ?_, mask_listed ⟨optional.length, by omega⟩⟩
    have positive : 0 < 2 ^ optional.length := Nat.two_pow_pos _
    omega

theorem covered_of_few {h : History} (valid : h.validate = .ok ()) (few : h.optional.length ≤ 64) : h.Covered := by
  rintro ⟨ops, linearizes⟩
  obtain ⟨mask, listed, whole⟩ := included_all few
  have member : (⟨h.completed, included h.optional mask⟩ : Attempt) ∈ h.attempts :=
    List.mem_map.mpr ⟨mask, listed, rfl⟩
  rw [whole] at member
  have steps := linearizes_steps valid member (List.subset_append_right ..) linearizes
  refine ⟨_, member, fun op present => ⟨_, mem_orderings steps, ?_⟩⟩
  by_cases placed : op ∈ ops
  · exact List.mem_append_left _ placed
  · refine List.mem_append_right _ (List.mem_filter.mpr ⟨?_, decide_eq_true placed⟩)
    rcases List.mem_append.mp present with required | optional
    · obtain ⟨known, completed⟩ := List.mem_filter.mp required
      exact absurd (linearizes.every op known (of_decide_eq_true completed)) placed
    · exact optional

section Checking

variable {completed optional : List Operation} {maxStates : Int} {masks : List (BitVec 64)} {best : CheckResult}
  {sawInconclusive : Bool} {budgetUsed : Int}

def attemptOf (completed optional : List Operation) (mask : BitVec 64) : Attempt := ⟨completed, included optional mask⟩

theorem checkLoop_cons {mask : BitVec 64}
    (distinct : ((attemptOf completed optional mask).all.map Operation.id).Nodup) (fresh : best.status = .violation) :
    (maxStates ≤ budgetUsed ∧
      (checkLoop completed optional maxStates (mask :: masks) best sawInconclusive budgetUsed).status = .inconclusive) ∨
    (∃ ordering, (attemptOf completed optional mask).firstCovering = some ordering ∧
      (checkLoop completed optional maxStates (mask :: masks) best sawInconclusive budgetUsed).status = .valid ∧
      (checkLoop completed optional maxStates (mask :: masks) best sawInconclusive budgetUsed).linearization =
        ordering.map Operation.id) ∨
    ∃ next saw used, next.status = .violation ∧
      checkLoop completed optional maxStates (mask :: masks) best sawInconclusive budgetUsed =
        checkLoop completed optional maxStates masks next saw used ∧
      ((saw = true ∧ maxStates ≤ used ∧
          ((attemptOf completed optional mask).searcher (maxStates - budgetUsed)).run.status = .inconclusive) ∨
        (saw = sawInconclusive ∧ (attemptOf completed optional mask).firstCovering = none ∧
          used = budgetUsed +
            ((attemptOf completed optional mask).searcher (maxStates - budgetUsed)).run.statesExplored)) := by
  by_cases budget : maxStates - budgetUsed ≤ 0
  · refine Or.inl ⟨by omega, ?_⟩
    rw [checkLoop]
    dsimp only
    rw [if_pos budget]
  have cases := @Attempt.run_cases (attemptOf completed optional mask) (maxStates - budgetUsed) distinct
  rw [checkLoop]
  dsimp only
  rw [if_neg budget, show newSearcher completed (included optional mask) (maxStates - budgetUsed) =
    (attemptOf completed optional mask).searcher (maxStates - budgetUsed) from rfl]
  generalize ((attemptOf completed optional mask).searcher (maxStates - budgetUsed)).run = result at cases ⊢
  rcases cases with ⟨status, above⟩ | ⟨ordering, found, status, linearization⟩ | ⟨missing, status⟩
  · refine Or.inr (Or.inr ⟨best, true, budgetUsed + result.statesExplored, fresh, ?_, Or.inl ⟨rfl, by omega, status⟩⟩)
    simp only [status]
  · refine Or.inr (Or.inl ⟨ordering, found, ?_, ?_⟩)
    · simp only [status]
    · simp only [status, linearization]
  · refine Or.inr (Or.inr ⟨if best.depth ≤ result.depth then result else best, sawInconclusive,
      budgetUsed + result.statesExplored, ?_, ?_, Or.inr ⟨rfl, missing, rfl⟩⟩)
    · split
      · exact status
      · exact fresh
    · simp only [status]

theorem checkLoop_spent (above : maxStates ≤ budgetUsed) :
    (checkLoop completed optional maxStates masks best true budgetUsed).status = .inconclusive := by
  cases masks with
  | nil => rfl
  | cons mask masks =>
    rw [checkLoop]
    dsimp only
    rw [if_pos (by omega)]

theorem checkLoop_verdict
    (distinct : ∀ mask ∈ masks, ((attemptOf completed optional mask).all.map Operation.id).Nodup)
    (fresh : best.status = .violation) :
    (checkLoop completed optional maxStates masks best false budgetUsed).status = .inconclusive ∨
    (∃ ordering, (masks.map (attemptOf completed optional)).findSome? Attempt.firstCovering = some ordering ∧
      (checkLoop completed optional maxStates masks best false budgetUsed).status = .valid ∧
      (checkLoop completed optional maxStates masks best false budgetUsed).linearization =
        ordering.map Operation.id) ∨
    ((masks.map (attemptOf completed optional)).findSome? Attempt.firstCovering = none ∧
      (checkLoop completed optional maxStates masks best false budgetUsed).status = .violation) := by
  induction masks generalizing best budgetUsed with
  | nil =>
    refine Or.inr (Or.inr ⟨rfl, ?_⟩)
    simp only [checkLoop, fresh, Bool.false_eq_true, if_false]
  | cons mask masks ih =>
    have later : ∀ other ∈ masks, ((attemptOf completed optional other).all.map Operation.id).Nodup :=
      fun other present => distinct other (List.mem_cons_of_mem _ present)
    rw [List.map_cons, List.findSome?_cons]
    rcases @checkLoop_cons completed optional maxStates masks best false budgetUsed mask
      (distinct mask List.mem_cons_self) fresh with ⟨_, status⟩ | ⟨ordering, found, status, linearization⟩ |
      ⟨next, saw, used, violation, same, ⟨rfl, above, _⟩ | ⟨rfl, missing, _⟩⟩
    · exact Or.inl status
    · rw [found]
      exact Or.inr (Or.inl ⟨ordering, rfl, status, linearization⟩)
    · rw [same]
      exact Or.inl (checkLoop_spent above)
    · rw [same, missing]
      exact ih later violation

theorem checkLoop_within (completed optional : List Operation) (masks : List (BitVec 64))
    (distinct : ∀ mask ∈ masks, ((attemptOf completed optional mask).all.map Operation.id).Nodup) :
    ∃ bound : Nat, ∀ (maxStates : Int) best (budgetUsed : Int), best.status = .violation →
    budgetUsed + bound ≤ maxStates →
      (checkLoop completed optional maxStates masks best false budgetUsed).status ≠ .inconclusive := by
  induction masks with
  | nil =>
    refine ⟨0, fun maxStates best budgetUsed fresh _ => ?_⟩
    simp only [checkLoop, fresh, Bool.false_eq_true, if_false, ne_eq, reduceCtorEq, not_false_eq_true]
  | cons mask masks ih =>
    obtain ⟨bound, enough⟩ := ih fun other present => distinct other (List.mem_cons_of_mem _ present)
    refine ⟨cost (attemptOf completed optional mask).all.length ((attemptOf completed optional mask).all.length + 1) +
      1 + bound, fun maxStates best budgetUsed fresh budget => ?_⟩
    obtain ⟨settled, least⟩ :=
      @Attempt.run_bounded (attemptOf completed optional mask) (maxStates - budgetUsed) (by omega)
    rcases @checkLoop_cons completed optional maxStates masks best false budgetUsed mask
      (distinct mask List.mem_cons_self) fresh with ⟨above, _⟩ | ⟨ordering, found, status, linearization⟩ |
      ⟨next, saw, used, violation, same, ⟨rfl, _, unsettled⟩ | ⟨rfl, missing, rfl⟩⟩
    · omega
    · rw [status]
      nofun
    · exact absurd unsettled settled
    · rw [same]
      exact enough maxStates next _ violation (by omega)

end Checking

theorem check_verdict {h : History} (valid : h.validate = .ok ()) (maxStates : Int) :
    (check h maxStates).status = .inconclusive ∨
    (∃ ordering, h.attempts.findSome? Attempt.firstCovering = some ordering ∧ (check h maxStates).status = .valid ∧
      (check h maxStates).linearization = ordering.map Operation.id) ∨
    (h.attempts.findSome? Attempt.firstCovering = none ∧ (check h maxStates).status = .violation) :=
  checkLoop_verdict (fun _ listed => attempts_distinct valid (List.mem_map_of_mem listed)) rfl

theorem check_within {h : History} (valid : h.validate = .ok ()) :
    ∃ maxStates, (check h maxStates).status ≠ .inconclusive := by
  obtain ⟨bound, enough⟩ := checkLoop_within h.completed h.optional (optionalSubsets h.optional.length)
    fun _ listed => attempts_distinct valid (List.mem_map_of_mem listed)
  refine ⟨bound + 1, ?_⟩
  rw [check, if_neg (by omega)]
  exact enough _ _ 0 rfl (by omega)

/-- The operations still to be placed that must be are all writes. -/
def Attempt.Writes (a : Attempt) (placed : List Operation) : Prop := ∀ op ∈ a.required, op ∉ placed → op.kind ≠ .get

def Attempt.before (a : Attempt) (last : Operation) : List Operation :=
  a.required.filter fun op => op ≠ last ∧ op.complete < last.invoke

def Attempt.after (a : Attempt) (last : Operation) : List Operation :=
  a.required.filter fun op => op ≠ last ∧ last.complete < op.invoke

section Closing

variable {h : History} {a : Attempt}

theorem writes_grow (valid : h.validate = .ok ()) (member : a ∈ h.attempts) (placed : List Operation)
    (writes : a.Writes placed) (missing : ¬a.all ⊆ placed) : ∃ op ∈ a.all, a.Fits placed op := by
  have required := attempts_required member
  by_cases whole : ∀ op ∈ a.required, op ∈ placed
  · -- Only incomplete writes are left, and nothing need come before them any more.
    obtain ⟨op, present, new⟩ : ∃ op ∈ a.all, op ∉ placed := by
      by_contra none
      exact missing fun op present => by_contra fun new => none ⟨op, present, new⟩
    refine ⟨op, present, new, fun first needed _ _ => whole first needed, matches_write ?_⟩
    rcases (attempts_known member present).2 with ⟨_, needed⟩ | optional
    · exact absurd (whole op needed) new
    · exact optional_write optional
  · -- Of the others, the one that began first waits for none of them.
    have pending : a.required.filter (· ∉ placed) ≠ [] := by
      intro none
      refine whole fun op needed => by_contra fun new => ?_
      have listed : op ∈ a.required.filter (· ∉ placed) := List.mem_filter.mpr ⟨needed, decide_eq_true new⟩
      rw [none] at listed
      cases listed
    obtain ⟨op, least⟩ := Option.ne_none_iff_exists'.mp
      (mt (List.argmin_eq_none (f := Operation.invoke)).mp pending)
    obtain ⟨needed, new⟩ := List.mem_filter.mp (List.argmin_mem least)
    have new := of_decide_eq_true new
    refine ⟨op, List.mem_append_left _ needed, new, fun first also _ earlier => ?_,
      matches_write (writes op needed new)⟩
    by_contra unplaced
    have later := List.le_of_mem_argmin (List.mem_filter.mpr ⟨also, decide_eq_true unplaced⟩) least
    rw [required] at also
    obtain ⟨known, completed⟩ := List.mem_filter.mp also
    have positive := History.validate_invoke valid known (of_decide_eq_true completed)
    omega

theorem writes_stay (placed : List Operation) (op : Operation) (writes : a.Writes placed) (_ : a.Fits placed op) :
    a.Writes (placed ++ [op]) :=
  fun other needed new => writes other needed fun old => new (List.mem_append_left _ old)

theorem reaches_nil : Reaches a.all a.all.length [] := ⟨List.nodup_nil, List.nil_subset _, by simp⟩

/-- A search walks into an operation that overlaps with no other only once everything before it is placed, and comes
across what is after it only then. -/
theorem holds_around (valid : h.validate = .ok ()) (member : a ∈ h.attempts) {last : Operation}
    (completed : last ∈ a.required) (around : ∀ op ∈ a.required, op = last ∨ op.complete < last.invoke ∨
      last.complete < op.invoke ∧ op.kind ≠ .get) :
    Holds (a.before last ++ last :: a.after last) (last :: a.after last)
      (Exploration.firstCovering a.all [] (below a.all a.Fits a.all.length [])) := by
  have known : ∀ op ∈ a.required, op ∈ a.all := fun op needed => List.mem_append_left _ needed
  have apart : ∀ op ∈ a.required, op ≠ last → op.id ≠ last.id := fun op needed other same =>
    other (Attempt.unique_id (attempts_distinct valid member) (known op needed) (known last completed) same)
  refine firstCovering_closed (fun _ _ fits => fits.1) writes_stay (writes_grow valid member)
    (fun placed fits op needed new => ?_) (fun op listed placed fits => ?_) (fun op listed placed fits => ?_)
    (fun op listed => ?_) reaches_nil (List.nil_subset _) fun _ _ old => nomatch old
  · -- What is not placed with the closing operation comes after it, and reads nothing.
    rw [List.mem_append, List.mem_singleton, not_or] at new
    rcases around op needed with same | before | ⟨_, write⟩
    · exact absurd same new.2
    · exact absurd (fits.2.1 op needed (apart op needed new.2) before) new.1
    · exact write
  · obtain ⟨needed, earlier⟩ := List.mem_filter.mp listed
    obtain ⟨other, earlier⟩ := of_decide_eq_true earlier
    exact fits.2.1 op needed (apart op needed other) earlier
  · obtain ⟨needed, later⟩ := List.mem_filter.mp listed
    obtain ⟨other, later⟩ := of_decide_eq_true later
    exact fits.2.1 last completed (apart op needed other).symm later
  · rcases List.mem_append.mp listed with first | rest
    · exact known op (List.mem_filter.mp first).1
    · rcases List.mem_cons.mp rest with rfl | after
      · exact known op completed
      · exact known op (List.mem_filter.mp after).1

theorem firstCovering_closes (valid : h.validate = .ok ()) (closes : h.Closes) (member : a ∈ h.attempts)
    {ordering : List Operation} (found : a.firstCovering = some ordering) : ∀ op ∈ h.completed, op ∈ ordering := by
  rw [Attempt.firstCovering, Attempt.orderings] at found
  unfold History.Closes at closes
  rw [← attempts_required member] at closes ⊢
  rcases closes with writes | ⟨last, completed, around⟩
  · have straight : ∃ after sequence, Exploration.firstCovering a.all [] ([] :: below a.all a.Fits a.all.length []) =
        (after, some sequence) ∧ a.required ⊆ sequence :=
      firstCovering_free (fun _ _ fits => fits.1) writes_stay (writes_grow valid member) (List.subset_append_left ..)
        (fun op needed _ => writes op needed) reaches_nil fun _ _ old => nomatch old
    obtain ⟨_, sequence, same, whole⟩ := straight
    rw [same] at found
    cases found
    exact whole
  · have holds := holds_around valid member completed around
    have uncovered : ¬a.all ⊆ [] ++ [] := fun whole => nomatch whole (List.mem_append_left _ completed)
    rw [Exploration.firstCovering, if_neg uncovered, List.append_nil] at found
    generalize Exploration.firstCovering a.all [] _ = outcome at found holds
    obtain ⟨_, _ | sequence⟩ := outcome
    · cases found
    cases found
    intro op needed
    refine holds ?_
    by_cases same : op = last
    · exact List.mem_append_right _ (same ▸ List.mem_cons_self)
    rcases around op needed with equal | before | ⟨after, _⟩
    · exact absurd equal same
    · exact List.mem_append_left _ (List.mem_filter.mpr ⟨needed, decide_eq_true ⟨same, before⟩⟩)
    · exact List.mem_append_right _
        (List.mem_cons_of_mem _ (List.mem_filter.mpr ⟨needed, decide_eq_true ⟨same, after⟩⟩))

end Closing

/-- Two writes that overlap, and a read of the first after both: the search has to take back what it tried first. -/
def readAfter : History :=
  ⟨[⟨1, .put, "x", "1", 1, 4, .ok, false, "", none⟩, ⟨2, .put, "x", "2", 2, 3, .ok, false, "", none⟩,
    ⟨3, .get, "x", "", 5, 6, .ok, true, "1", none⟩]⟩

def overlap : History :=
  ⟨[⟨1, .put, "x", "1", 1, 4, .ok, false, "", none⟩, ⟨2, .get, "x", "", 2, 3, .ok, false, "", none⟩]⟩

/-- Rejection. Up to 64 incomplete writes a rejected history has no linearization. Beyond, whatever the
budget, that holds if and only if no linearization is missed by the attempts. -/
theorem violation_unlinearizable {h : History} (valid : h.validate = .ok ()) :
    (h.optional.length ≤ 64 → h.Covered) ∧
      ((∀ maxStates, (check h maxStates).status = .violation → ¬Linearizable h) ↔ h.Covered) := by
  refine ⟨covered_of_few valid, ?_⟩
  have placeable : (∃ a ∈ h.attempts, ∀ op ∈ a.all, ∃ ordering ∈ a.orderings, op ∈ ordering) ↔
      h.attempts.findSome? Attempt.firstCovering ≠ none := by
    simp only [← firstCovering_isSome, ne_eq, List.findSome?_eq_none_iff, not_forall, exists_prop]
  rw [History.Covered, placeable]
  constructor
  · intro complete linearizable missing
    obtain ⟨maxStates, settled⟩ := check_within valid
    rcases check_verdict valid maxStates with unsettled | ⟨ordering, found, _⟩ | ⟨_, status⟩
    · exact settled unsettled
    · rw [missing] at found
      cases found
    · exact complete maxStates status linearizable
  · intro covered maxStates status linearizable
    rcases check_verdict valid maxStates with unsettled | ⟨_, _, accepted, _⟩ | ⟨missing, _⟩
    · rw [unsettled] at status
      cases status
    · rw [accepted] at status
      cases status
    · exact covered linearizable missing

def unwritten : History :=
  ⟨[⟨1, .get, "x", "", 3, 5, .ok, true, "1", none⟩, ⟨2, .put, "x", "2", 1, 0, .incomplete, false, "", none⟩,
    ⟨3, .delete, "x", "", 4, 0, .incomplete, false, "", none⟩]⟩

theorem violation_unlinearizable_unwritten :
    unwritten.validate = .ok () ∧ (check unwritten 0).status = .violation ∧ ¬Linearizable unwritten := by
  have rejected : (check unwritten 0).status = .violation := by decide
  have exact_ := violation_unlinearizable (h := unwritten) (by decide)
  exact ⟨by decide, rejected, exact_.2.mpr (exact_.1 (by decide)) 0 rejected⟩

/-- A read, 64 incomplete writes that begin after it, and the incomplete write it has read from. -/
def lateWrites : History :=
  ⟨⟨1, .get, "x", "", 2, 3, .ok, true, "1", none⟩ ::
    (List.range 64).map (fun i => ⟨3 + i, .put, "y", "", 4, 0, .incomplete, false, "", none⟩) ++
    [⟨2, .put, "x", "1", 1, 0, .incomplete, false, "", none⟩]⟩

theorem violation_linearizable :
    lateWrites.validate = .ok () ∧ (check lateWrites 0).status = .violation ∧ Linearizable lateWrites := by
  refine ⟨by decide +kernel, by decide +kernel,
    [⟨2, .put, "x", "1", 1, 0, .incomplete, false, "", none⟩, ⟨1, .get, "x", "", 2, 3, .ok, true, "1", none⟩], ?_⟩
  refine ⟨by decide, by decide +kernel, by decide +kernel, by decide, fun before op after same => ?_⟩
  match before, same with
  | [], same =>
    cases same
    rfl
  | [_], same =>
    cases same
    rfl
  | [_, _], same => cases same
  | _ :: _ :: _ :: _, same => cases same

/-- A verdict is final: two budgets that lead to one lead to the same one, with the same ordering, and every budget from
some bound on leads to one. -/
theorem verdict_final {h : History} (valid : h.validate = .ok ()) :
    (∀ first second, (check h first).status ≠ .inconclusive → (check h second).status ≠ .inconclusive →
      (check h first).status = (check h second).status ∧
        ((check h first).status = .valid → (check h first).linearization = (check h second).linearization)) ∧
    ∃ bound : Int, ∀ maxStates, bound ≤ maxStates → (check h maxStates).status ≠ .inconclusive := by
  constructor
  · intro first second settled settledToo
    rcases check_verdict valid first with unsettled | ⟨ordering, found, status, linearization⟩ | ⟨missing, status⟩
    · exact absurd unsettled settled
    · rcases check_verdict valid second with unsettled | ⟨other, again, statusToo, same⟩ | ⟨missing, _⟩
      · exact absurd unsettled settledToo
      · cases found.symm.trans again
        exact ⟨status.trans statusToo.symm, fun _ => linearization.trans same.symm⟩
      · cases found.symm.trans missing
    · rcases check_verdict valid second with unsettled | ⟨other, found, _⟩ | ⟨_, statusToo⟩
      · exact absurd unsettled settledToo
      · cases missing.symm.trans found
      · refine ⟨status.trans statusToo.symm, fun wrong => ?_⟩
        cases status.symm.trans wrong
  · obtain ⟨bound, enough⟩ := checkLoop_within h.completed h.optional (optionalSubsets h.optional.length)
      fun _ listed => attempts_distinct valid (List.mem_map_of_mem listed)
    refine ⟨bound + 1, fun maxStates above => ?_⟩
    rw [check, if_neg (by omega)]
    exact enough _ _ 0 rfl (by omega)

theorem verdict_final_unwritten :
    unwritten.validate = .ok () ∧ (check unwritten 50).status = .violation ∧
      ∃ bound : Int, ∀ maxStates, bound ≤ maxStates → (check unwritten maxStates).status = .violation := by
  have valid : unwritten.validate = .ok () := by decide
  have status : (check unwritten 50).status = .violation := by decide
  obtain ⟨agree, bound, settled⟩ := verdict_final valid
  refine ⟨valid, status, bound, fun maxStates above => ?_⟩
  rw [← (agree 50 maxStates (by rw [status]; decide) (settled maxStates above)).1, status]

end ForgeDB.Correctness
