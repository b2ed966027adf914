import Mathlib.Data.List.Basic

/-!
Greedy reduction of a list. A pass goes from place to place and drops the item at a place if what is left
is still accepted; the item that moves up is then looked at next. Passes follow each other until one drops
nothing.
-/

namespace ForgeDB.Greedy

variable {α β : Type}

def removeAt (items : List α) (i : Nat) : List α := items.take i ++ items.drop (i + 1)

theorem removeAt_length {items : List α} {i : Nat} (inside : i < items.length) :
    (removeAt items i).length + 1 = items.length := by
  simp only [removeAt, List.length_append, List.length_take, List.length_drop]
  omega

theorem removeAt_sublist (items : List α) (i : Nat) : (removeAt items i).Sublist items := by
  rw [removeAt, ← List.eraseIdx_eq_take_drop_succ]
  exact List.eraseIdx_sublist items i

section

variable (accept : List α → Option β)

/-- One pass, from place `i` on: `accept` gives the result of a list that can be kept, and the flag says
whether the pass has dropped anything. -/
def scan (i : Nat) (current : List α) (result : β) (removedAny : Bool) : List α × β × Bool :=
  if _ : i < current.length then
    match accept (removeAt current i) with
    | some found => scan i (removeAt current i) found true
    | none => scan (i + 1) current result removedAny
  else (current, result, removedAny)
termination_by current.length - i
decreasing_by
  · have shorter := removeAt_length ‹i < current.length›
    omega
  · omega

def passes : Nat → List α → β → List α × β
  | 0, current, result => (current, result)
  | count + 1, current, result =>
    match scan accept 0 current result false with
    | (current, result, true) => passes count current result
    | (current, result, false) => (current, result)

def Minimal (items : List α) : Prop := ∀ i < items.length, accept (removeAt items i) = none

structure Reduces (before : List α) (result : β) (after : List α) (found : β) : Prop where
  part : after.Sublist before
  accepted : accept before = some result → accept after = some found

end

section

variable {accept : List α → Option β}

theorem Reduces.refl (current : List α) (result : β) : Reduces accept current result current result :=
  ⟨List.Sublist.refl _, id⟩

theorem Reduces.trans {first middle last : List α} {result found final : β}
    (earlier : Reduces accept first result middle found) (later : Reduces accept middle found last final) :
    Reduces accept first result last final :=
  ⟨later.part.trans earlier.part, fun accepted => later.accepted (earlier.accepted accepted)⟩

theorem Reduces.dropped {current : List α} {i : Nat} {result found : β}
    (accepted : accept (removeAt current i) = some found) : Reduces accept current result (removeAt current i) found :=
  ⟨removeAt_sublist current i, fun _ => accepted⟩

end

variable (accept : List α → Option β)

theorem scan_reduces (i : Nat) (current : List α) (result : β) (removedAny : Bool) :
    Reduces accept current result (scan accept i current result removedAny).1
      (scan accept i current result removedAny).2.1 := by
  fun_induction scan accept i current result removedAny with
  | case1 i current result removedAny inside found accepted ih => exact (Reduces.dropped accepted).trans ih
  | case2 i current result removedAny inside refused ih => exact ih
  | case3 i current result removedAny outside => exact Reduces.refl ..

theorem scan_cases (i : Nat) (current : List α) (result : β) :
    (∃ smaller found, scan accept i current result false = (smaller, found, true) ∧ smaller.length < current.length) ∨
      scan accept i current result false = (current, result, false) ∧
        ∀ j, i ≤ j → j < current.length → accept (removeAt current j) = none := by
  have kept : ∀ i (current : List α) (result : β), (scan accept i current result true).2.2 = true := by
    intro i current result
    generalize flag : true = removedAny
    fun_induction scan accept i current result removedAny with
    | case1 i current result removedAny inside found accepted ih => exact (ih rfl).trans flag
    | case2 i current result removedAny inside refused ih => exact ih flag
    | case3 i current result removedAny outside => rfl
  generalize flag : false = removedAny
  fun_induction scan accept i current result removedAny with
  | case1 i current result removedAny inside found accepted ih =>
    have part := (scan_reduces accept i (removeAt current i) found true).part.length_le
    have shorter := removeAt_length inside
    exact Or.inl ⟨_, _, Prod.ext rfl (Prod.ext rfl (kept ..)), Nat.lt_of_le_of_lt part (by omega)⟩
  | case2 i current result removedAny inside refused ih =>
    refine (ih flag).imp_right fun ⟨same, tried⟩ => ⟨same, fun j above below => ?_⟩
    rcases Nat.eq_or_lt_of_le above with rfl | later
    · exact refused
    · exact tried j later below
  | case3 i current result removedAny outside =>
    exact Or.inr ⟨rfl, fun j above below => absurd (Nat.lt_of_le_of_lt above below) outside⟩

theorem passes_succ (current : List α) (result : β) :
    (∃ smaller found, smaller.length < current.length ∧
      ∀ count, passes accept (count + 1) current result = passes accept count smaller found) ∨
      Minimal accept current ∧ ∀ count, passes accept count current result = (current, result) := by
  rcases scan_cases accept 0 current result with ⟨smaller, found, same, shorter⟩ | ⟨same, tried⟩
  · exact Or.inl ⟨smaller, found, shorter, fun count => by rw [passes, same]⟩
  · refine Or.inr ⟨fun i inside => tried i (Nat.zero_le i) inside, fun count => ?_⟩
    cases count with
    | zero => rfl
    | succ count => rw [passes, same]

theorem passes_reduces (count : Nat) (current : List α) (result : β) :
    Reduces accept current result (passes accept count current result).1 (passes accept count current result).2 := by
  induction count generalizing current result with
  | zero => exact Reduces.refl ..
  | succ count ih =>
    have pass := scan_reduces accept 0 current result false
    rw [passes]
    split
    · rename_i smaller found same
      rw [same] at pass
      exact pass.trans (ih smaller found)
    · rename_i smaller found same
      rw [same] at pass
      exact pass

theorem passes_last {accept : List α → Option β} {count : Nat} {current : List α} {result : β}
    (unchanged : (passes accept (count + 1) current result).1 = (passes accept count current result).1) :
    Minimal accept (passes accept (count + 1) current result).1 := by
  induction count generalizing current result with
  | zero =>
    rcases passes_succ accept current result with ⟨smaller, found, shorter, next⟩ | ⟨minimal, fixed⟩
    · rw [next] at unchanged
      exact absurd (congrArg List.length unchanged) (Nat.ne_of_lt shorter)
    · rw [fixed]
      exact minimal
  | succ count ih =>
    rcases passes_succ accept current result with ⟨smaller, found, _, next⟩ | ⟨minimal, fixed⟩
    · rw [next, next] at unchanged
      rw [next]
      exact ih unchanged
    · rw [fixed]
      exact minimal

theorem passes_bound (count : Nat) (current : List α) (result : β) :
    Minimal accept (passes accept count current result).1 ∨
      (passes accept count current result).1.length + count ≤ current.length := by
  induction count generalizing current result with
  | zero => exact Or.inr (Nat.le_refl _)
  | succ count ih =>
    rcases passes_succ accept current result with ⟨smaller, found, shorter, next⟩ | ⟨minimal, fixed⟩
    · rw [next]
      exact (ih smaller found).imp_right fun bound => by omega
    · rw [fixed]
      exact Or.inl minimal

end ForgeDB.Greedy
