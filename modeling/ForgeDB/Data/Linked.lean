import Mathlib.Data.List.Basic
import Mathlib.Data.List.Nodup

/-!
Linked cells. Each cell of a chain names the one behind it or ends the chain; what is no cell has no
successor at all. Advancing along a chain and linking a new cell into it are told by the list of cells
that the chain visits.
-/

namespace ForgeDB.Linked

variable {α : Type} {next other : α → Option (Option α)}

def Path (next : α → Option (Option α)) : α → List α → Prop
  | x, [] => next x = some none
  | x, y :: rest => next x = some (some y) ∧ Path next y rest

/-- Go on while the test of the cell ahead holds; nothing if a cell is missing or the fuel runs out. -/
def advance (next : α → Option (Option α)) (test : α → Option Bool) : Nat → α → Option α
  | 0, _ => none
  | fuel + 1, x =>
    match next x with
    | none => none
    | some none => some x
    | some (some y) =>
      match test y with
      | none => none
      | some true => advance next test fuel y
      | some false => some x

theorem getLastD_append_cons (before after : List α) (x last : α) :
    (before ++ last :: after).getLastD x = after.getLastD last := by
  induction before generalizing x with
  | nil => exact List.getLastD_cons ..
  | cons y before ih => rw [List.cons_append, List.getLastD_cons, ih]

namespace Path

theorem head {x : α} {cells : List α} (path : Path next x cells) : next x = some cells.head? := by
  cases cells with
  | nil => exact path
  | cons y cells => exact path.1

theorem congr {x : α} {cells : List α} (path : Path next x cells) (same : ∀ y ∈ x :: cells, other y = next y) :
    Path other x cells := by
  induction cells generalizing x with
  | nil => exact (same x List.mem_cons_self).trans path
  | cons y cells ih =>
    exact ⟨(same x List.mem_cons_self).trans path.1, ih path.2 fun z present => same z (List.mem_cons_of_mem x present)⟩

theorem rest {x : α} {before after : List α} (path : Path next x (before ++ after)) :
    Path next (before.getLastD x) after := by
  induction before generalizing x with
  | nil => exact path
  | cons y before ih =>
    rw [List.getLastD_cons]
    exact ih path.2

theorem advance_eq {test : α → Option Bool} {x : α} {before after : List α} (path : Path next x (before ++ after))
    (passed : ∀ y ∈ before, test y = some true) (stops : ∀ y, after.head? = some y → test y = some false) {fuel : Nat}
    (enough : before.length < fuel) : advance next test fuel x = some (before.getLastD x) := by
  induction before generalizing x fuel with
  | nil =>
    cases fuel with
    | zero => exact absurd enough (Nat.not_lt_zero _)
    | succ fuel =>
      have ahead : next x = some after.head? := path.head
      cases ends : after.head? with
      | none => simp only [advance, ahead, ends, List.getLastD_nil]
      | some y => simp only [advance, ahead, ends, stops y ends, List.getLastD_nil]
  | cons y before ih =>
    cases fuel with
    | zero => exact absurd enough (Nat.not_lt_zero _)
    | succ fuel =>
      simp only [advance, path.1, passed y List.mem_cons_self, List.getLastD_cons]
      exact ih path.2 (fun z present => passed z (List.mem_cons_of_mem y present)) (Nat.lt_of_succ_lt_succ enough)

theorem advance_from {test : α → Option Bool} {x start : α} {before after : List α}
    (path : Path next x (before ++ after)) (reached : start ∈ x :: before) (passed : ∀ y ∈ before, test y = some true)
    (stops : ∀ y, after.head? = some y → test y = some false) {fuel : Nat} (enough : before.length < fuel) :
    advance next test fuel start = some (before.getLastD x) := by
  rcases List.mem_cons.mp reached with rfl | inside
  · exact path.advance_eq passed stops enough
  · obtain ⟨first, last, rfl⟩ := List.append_of_mem inside
    have behind : Path next start (last ++ after) := by
      rw [List.append_assoc, List.cons_append, List.append_cons] at path
      simpa only [List.getLastD_concat] using path.rest
    rw [getLastD_append_cons]
    have shorter : last.length < fuel := by
      simp only [List.length_append, List.length_cons] at enough
      omega
    exact behind.advance_eq (fun y present => passed y (List.mem_append_right _ (List.mem_cons_of_mem _ present)))
      stops shorter

theorem splice {x cell : α} {before after : List α} (path : Path next x (before ++ after))
    (nodup : (x :: (before ++ after)).Nodup) (fresh : cell ∉ x :: (before ++ after))
    (linked : other (before.getLastD x) = some (some cell)) (takes : other cell = next (before.getLastD x))
    (same : ∀ y, y ≠ before.getLastD x → y ≠ cell → other y = next y) : Path other x (before ++ cell :: after) := by
  induction before generalizing x with
  | nil =>
    obtain ⟨notAhead, -⟩ := List.nodup_cons.mp nodup
    have ahead : next x = some after.head? := path.head
    refine ⟨linked, ?_⟩
    cases after with
    | nil => exact takes.trans ahead
    | cons y after =>
      have kept : ∀ z ∈ y :: after, other z = next z := by
        intro z present
        apply same z
        · rintro rfl
          exact notAhead present
        · rintro rfl
          exact fresh (List.mem_cons_of_mem x present)
      exact ⟨takes.trans ahead, path.2.congr kept⟩
  | cons y before ih =>
    obtain ⟨notAhead, nodup⟩ := List.nodup_cons.mp nodup
    rw [List.getLastD_cons] at linked takes same
    have notLast : x ≠ before.getLastD y := by
      intro last
      have present : before.getLastD y ∈ y :: before := List.getLastD_mem_cons ..
      exact notAhead (last ▸ List.mem_append_left after present)
    have notCell : x ≠ cell := fun equal => fresh (equal ▸ List.mem_cons_self)
    exact ⟨(same x notLast notCell).trans path.1,
      ih path.2 nodup (fun present => fresh (List.mem_cons_of_mem x present)) linked takes same⟩

end Path

end ForgeDB.Linked
