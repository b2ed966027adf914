import Mathlib.Data.List.Basic
import Mathlib.Data.List.Nodup
import Mathlib.Data.List.Perm.Subperm

/-!
Depth-first enumeration of the sequences that can be grown one element at a time, and the first of
them by which every element has occurred somewhere.
-/

namespace ForgeDB.Exploration

variable {α : Type} (all : List α) (fits : List α → α → Prop)

/-- The sequences properly below the given one, in preorder, at most `depth` levels down. -/
def below [∀ placed op, Decidable (fits placed op)] : Nat → List α → List (List α)
  | 0, _ => []
  | depth + 1, placed =>
    (all.filter (fits placed ·)).flatMap fun op => (placed ++ [op]) :: below depth (placed ++ [op])

def Steps : List α → List α → Prop
  | _, [] => True
  | placed, op :: rest => op ∈ all ∧ fits placed op ∧ Steps (placed ++ [op]) rest

/-- The first sequence by which everything has occurred in the ones listed or had been seen before, and
what has been seen by then. -/
def firstCovering [DecidableEq α] (seen : List α) : List (List α) → List α × Option (List α)
  | [] => (seen, none)
  | sequence :: rest =>
    if all ⊆ seen ++ sequence then (seen ++ sequence, some sequence) else firstCovering (seen ++ sequence) rest

theorem pairwise_of_split {related : α → α → Prop} {sequence : List α}
    (each : ∀ before op after, sequence = before ++ op :: after → ∀ later ∈ after, related op later) :
    sequence.Pairwise related := by
  induction sequence with
  | nil => exact List.Pairwise.nil
  | cons op rest ih =>
    refine List.pairwise_cons.mpr ⟨each [] op rest rfl, ih fun before next after same => ?_⟩
    exact each (op :: before) next after (by rw [same]; rfl)

section Covering

variable {all} [DecidableEq α]

theorem firstCovering_append (seen : List α) (left right : List (List α)) :
    firstCovering all seen (left ++ right) =
      match firstCovering all seen left with
      | (seen, some sequence) => (seen, some sequence)
      | (seen, none) => firstCovering all seen right := by
  induction left generalizing seen with
  | nil => rfl
  | cons sequence rest ih =>
    rw [List.cons_append, firstCovering, firstCovering]
    split
    · rfl
    · exact ih _

theorem firstCovering_none {seen : List α} {sequences : List (List α)} (open_ : ¬all ⊆ seen) :
    (firstCovering all seen sequences).2 = none ↔ ¬all ⊆ seen ++ sequences.flatten := by
  induction sequences generalizing seen with
  | nil =>
    rw [List.flatten_nil, List.append_nil]
    exact ⟨fun _ => open_, fun _ => rfl⟩
  | cons sequence later ih =>
    rw [firstCovering, List.flatten_cons, ← List.append_assoc]
    split
    · rename_i covered
      refine ⟨nofun, fun missing => absurd (List.Subset.trans covered (List.subset_append_left ..)) missing⟩
    · rename_i missing
      exact ih missing

theorem firstCovering_mem {seen sequence : List α} {sequences : List (List α)}
    (found : (firstCovering all seen sequences).2 = some sequence) : sequence ∈ sequences := by
  induction sequences generalizing seen with
  | nil => cases found
  | cons first later ih =>
    rw [firstCovering] at found
    split at found
    · cases found
      exact List.mem_cons_self
    · exact List.mem_cons_of_mem _ (ih found)

end Covering

section Growing

variable {all fits}

theorem steps_append {placed left right : List α} :
    Steps all fits placed (left ++ right) ↔ Steps all fits placed left ∧ Steps all fits (placed ++ left) right := by
  induction left generalizing placed with
  | nil => simp only [List.nil_append, Steps, true_and, List.append_nil]
  | cons op rest ih => simp only [List.cons_append, Steps, ih, and_assoc, List.append_assoc, List.nil_append]

theorem steps_of_mem_below [∀ placed op, Decidable (fits placed op)] {depth : Nat} {placed sequence : List α}
    (listed : sequence ∈ below all fits depth placed) :
    ∃ rest, sequence = placed ++ rest ∧ Steps all fits placed rest := by
  induction depth generalizing placed with
  | zero => cases listed
  | succ depth ih =>
    rw [below, List.mem_flatMap] at listed
    obtain ⟨op, chosen, listed⟩ := listed
    rw [List.mem_filter, decide_eq_true_eq] at chosen
    rcases List.mem_cons.mp listed with rfl | deeper
    · exact ⟨[op], rfl, chosen.1, chosen.2, trivial⟩
    · obtain ⟨rest, rfl, steps⟩ := ih deeper
      refine ⟨op :: rest, ?_, chosen.1, chosen.2, steps⟩
      rw [List.append_assoc, List.singleton_append]

theorem mem_below_of_steps [∀ placed op, Decidable (fits placed op)] {depth : Nat} {placed rest : List α}
    (steps : Steps all fits placed rest) (more : rest ≠ []) (bound : rest.length ≤ depth) :
    placed ++ rest ∈ below all fits depth placed := by
  induction depth generalizing placed rest with
  | zero => exact absurd (List.length_eq_zero_iff.mp (Nat.le_zero.mp bound)) more
  | succ depth ih =>
    cases rest with
    | nil => exact absurd rfl more
    | cons op later =>
      obtain ⟨known, chosen, steps⟩ := steps
      rw [below, List.mem_flatMap]
      refine ⟨op, List.mem_filter.mpr ⟨known, decide_eq_true chosen⟩, ?_⟩
      by_cases last : later = []
      · rw [last]
        exact List.mem_cons_self
      · have deeper := ih steps last (Nat.le_of_succ_le_succ bound)
        rw [List.append_assoc, List.singleton_append] at deeper
        exact List.mem_cons_of_mem _ deeper

theorem Steps.fits_at {placed before after : List α} {op : α} (steps : Steps all fits placed (before ++ op :: after)) :
    op ∈ all ∧ fits (placed ++ before) op :=
  have later := (steps_append.mp steps).2
  ⟨later.1, later.2.1⟩

theorem steps_of_fits {placed rest : List α}
    (each : ∀ before op after, rest = before ++ op :: after → op ∈ all ∧ fits (placed ++ before) op) :
    Steps all fits placed rest := by
  induction rest generalizing placed with
  | nil => trivial
  | cons op later ih =>
    have here := each [] op later rfl
    rw [List.append_nil] at here
    refine ⟨here.1, here.2, ih fun before next after same => ?_⟩
    rw [List.append_assoc, List.singleton_append]
    exact each (op :: before) next after (by rw [same]; rfl)

theorem Steps.nodup (fresh : ∀ placed op, fits placed op → op ∉ placed) {placed rest : List α} (distinct : placed.Nodup)
    (steps : Steps all fits placed rest) : (placed ++ rest).Nodup := by
  induction rest generalizing placed with
  | nil =>
    rw [List.append_nil]
    exact distinct
  | cons op later ih =>
    obtain ⟨_, chosen, steps⟩ := steps
    rw [List.append_cons]
    refine ih ?_ steps
    rw [List.nodup_append]
    refine ⟨distinct, List.nodup_singleton op, fun old present new here => ?_⟩
    rw [List.mem_singleton.mp here]
    exact fun same => fresh placed op chosen (same ▸ present)

end Growing

section Closing

variable {all fits}

/-- A sequence of distinct elements that lacks at most `depth` of them all. -/
structure Reaches (all : List α) (depth : Nat) (placed : List α) : Prop where
  distinct : placed.Nodup
  known : placed ⊆ all
  level : all.length ≤ placed.length + depth

theorem Reaches.whole {placed : List α} (reaches : Reaches all 0 placed) : all ⊆ placed :=
  (List.subperm_of_subset reaches.distinct reaches.known).perm_of_length_le reaches.level |>.symm.subset

theorem Reaches.snoc {depth : Nat} {placed : List α} {op : α} (reaches : Reaches all (depth + 1) placed)
    (member : op ∈ all) (new : op ∉ placed) : Reaches all depth (placed ++ [op]) where
  distinct := List.nodup_append.mpr ⟨reaches.distinct, List.nodup_singleton op, fun old there next here same =>
    new (List.mem_singleton.mp here ▸ same ▸ there)⟩
  known := List.append_subset.mpr ⟨reaches.known, fun next here => List.mem_singleton.mp here ▸ member⟩
  level := by
    have level := reaches.level
    rw [List.length_append, List.length_singleton]
    omega

/-- A walk ends with everything that is needed, or has not come across anything that is awaited. -/
def Holds (needed awaited : List α) : List α × Option (List α) → Prop
  | (_, some sequence) => needed ⊆ sequence
  | (seen, none) => ∀ op ∈ awaited, op ∉ seen

variable [DecidableEq α]

theorem subset_firstCovering (seen : List α) (sequences : List (List α)) :
    seen ⊆ (firstCovering all seen sequences).1 := by
  induction sequences generalizing seen with
  | nil => exact List.Subset.refl _
  | cons sequence later ih =>
    rw [firstCovering]
    split
    · exact List.subset_append_left ..
    · exact List.Subset.trans (List.subset_append_left ..) (ih _)

variable [∀ placed op, Decidable (fits placed op)] (fresh : ∀ placed op, fits placed op → op ∉ placed)
  {free : List α → Prop} (stays : ∀ placed op, free placed → fits placed op → free (placed ++ [op]))
  (more : ∀ placed, free placed → ¬all ⊆ placed → ∃ op ∈ all, fits placed op)

include fresh stays more

/-- From a sequence that can always be grown the walk goes straight to one that covers everything. What is needed is
in it, if what is needed and had been seen before was in the sequence it started from. -/
theorem firstCovering_free {needed : List α} (part : needed ⊆ all) {depth : Nat} {seen placed : List α}
    (open_ : free placed) (reaches : Reaches all depth placed) (kept : ∀ op ∈ needed, op ∈ seen → op ∈ placed) :
    ∃ after sequence, firstCovering all seen (placed :: below all fits depth placed) = (after, some sequence) ∧
      needed ⊆ sequence := by
  induction depth generalizing seen placed with
  | zero =>
    rw [firstCovering, if_pos (List.subset_append_of_subset_right _ reaches.whole)]
    exact ⟨_, placed, rfl, List.Subset.trans part reaches.whole⟩
  | succ depth ih =>
    rw [firstCovering]
    split
    · rename_i covered
      refine ⟨_, placed, rfl, fun op wanted => ?_⟩
      exact (List.mem_append.mp (covered (part wanted))).elim (kept op wanted) id
    · rename_i missing
      obtain ⟨op, present, chosen⟩ := more placed open_ fun whole =>
        missing (List.subset_append_of_subset_right _ whole)
      have listed : op ∈ all.filter (fits placed ·) := List.mem_filter.mpr ⟨present, decide_eq_true chosen⟩
      -- The first child is taken, whichever it is.
      obtain ⟨first, others, children⟩ := List.exists_cons_of_ne_nil (List.ne_nil_of_mem listed)
      have member : first ∈ all.filter (fits placed ·) := by
        rw [children]
        exact List.mem_cons_self
      obtain ⟨inside, fit⟩ := List.mem_filter.mp member
      have fit := of_decide_eq_true fit
      obtain ⟨after, sequence, found, whole⟩ := @ih (seen ++ placed) (placed ++ [first]) (stays placed first open_ fit)
        (reaches.snoc inside (fresh placed first fit)) fun op wanted before =>
          List.mem_append_left _ ((List.mem_append.mp before).elim (kept op wanted) id)
      refine ⟨after, sequence, ?_, whole⟩
      rw [below, children, List.flatMap_cons, firstCovering_append, found]

/-- An element that comes after all that is early and before all that is late. The first sequence by which everything
has occurred holds all of them, if nothing is in the way once the element is placed. -/
theorem firstCovering_closed {early late : List α} {last : α}
    (gate : ∀ placed, fits placed last → free (placed ++ [last]))
    (before : ∀ op ∈ early, ∀ placed, fits placed last → op ∈ placed)
    (after : ∀ op ∈ late, ∀ placed, fits placed op → last ∈ placed) (part : early ++ last :: late ⊆ all) {depth : Nat}
    {seen placed : List α} (reaches : Reaches all depth placed) (inside : placed ⊆ seen)
    (unseen : ∀ op ∈ last :: late, op ∉ seen) :
    Holds (early ++ last :: late) (last :: late) (firstCovering all seen (below all fits depth placed)) := by
  induction depth generalizing seen placed with
  | zero => exact unseen
  | succ depth ih =>
    rw [below]
    have each : ∀ op ∈ all.filter (fits placed ·), op ∈ all ∧ fits placed op := fun op listed =>
      (List.mem_filter.mp listed).imp_right of_decide_eq_true
    generalize all.filter (fits placed ·) = children at each
    induction children generalizing seen with
    | nil => exact unseen
    | cons op others ihOthers =>
      obtain ⟨member, fit⟩ := each op List.mem_cons_self
      have grown := reaches.snoc member (fresh placed op fit)
      rw [List.flatMap_cons, firstCovering_append]
      by_cases here : op = last
      · subst here
        obtain ⟨_, sequence, found, whole⟩ := @firstCovering_free _ _ _ _ _ fresh _ stays more _ part _ seen _
          (gate placed fit) grown fun wanted needed old =>
            (List.mem_append.mp needed).elim (fun first => List.mem_append_left _ (before wanted first placed fit))
              fun rest => absurd old (unseen wanted rest)
        rw [found]
        exact whole
      · have unseenGrown : ∀ other ∈ last :: late, other ∉ seen ++ (placed ++ [op]) := by
          intro other wanted there
          simp only [List.mem_append, List.mem_singleton] at there
          rcases there with old | old | rfl
          · exact unseen other wanted old
          · exact unseen other wanted (inside old)
          · rcases List.mem_cons.mp wanted with equal | later
            · exact here equal
            · exact unseen last List.mem_cons_self (inside (after other later placed fit))
        have uncovered : ¬all ⊆ seen ++ (placed ++ [op]) := fun whole =>
          unseenGrown last List.mem_cons_self (whole (part (List.mem_append_right _ List.mem_cons_self)))
        have child := ih grown (List.subset_append_right seen _) unseenGrown
        have larger := @subset_firstCovering _ all _ (seen ++ (placed ++ [op])) (below all fits depth (placed ++ [op]))
        rw [firstCovering, if_neg uncovered]
        generalize firstCovering all (seen ++ (placed ++ [op])) (below all fits depth (placed ++ [op])) = outcome
          at child larger ⊢
        obtain ⟨seenAfter, _ | sequence⟩ := outcome
        · refine ihOthers (fun old there => ?_) child fun other listed => each other (List.mem_cons_of_mem _ listed)
          exact larger (List.mem_append_left _ (inside there))
        · exact child

end Closing

end ForgeDB.Exploration
