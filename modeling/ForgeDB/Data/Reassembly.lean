import Mathlib.Data.List.Basic
import Mathlib.Data.List.Infix
import Mathlib.Data.List.Range

/-!
Data that travels in numbered pieces. Several senders take turns, each with the pieces in order, and one
receiver starts anew at the first piece, goes on at the one it expects, and gives up at any other. It completes
the data exactly when all pieces come in a row.
-/

namespace ForgeDB

section Turns

variable {ι : Type} [DecidableEq ι]

def turns (schedule : List ι) : List Nat := schedule.mapIdx fun place who => (schedule.take place).count who

theorem turns_concat (schedule : List ι) (who : ι) :
    turns (schedule ++ [who]) = turns schedule ++ [schedule.count who] := by
  simp only [turns, List.mapIdx_append, List.mapIdx_singleton, Nat.zero_add, List.take_left]
  congr 1
  refine List.ext_getElem (by simp only [List.length_mapIdx]) fun place inside _ => ?_
  simp only [List.length_mapIdx] at inside
  simp only [List.getElem_mapIdx, List.take_append_of_le_length inside.le]

theorem turns_eq_nil {schedule : List ι} (none : turns schedule = []) : schedule = [] :=
  List.mapIdx_eq_nil_iff.mp none

end Turns

/-- The piece expected next, after a piece has arrived; zero when no data is in progress. -/
def expectNext (expected arrived : Nat) : Nat :=
  if arrived = 0 then 1 else if arrived = expected then expected + 1 else 0

theorem expectNext_taken {expected arrived : Nat} (taken : expectNext expected arrived ≠ 0) :
    expectNext expected arrived = arrived + 1 := by
  unfold expectNext at taken ⊢
  split
  · omega
  · rename_i later
    rw [if_neg later] at taken
    split
    · omega
    · rename_i other
      exact absurd (if_neg other) taken

def expectAfter (arrivals : List Nat) : Nat := arrivals.foldl expectNext 0

theorem expectAfter_concat (arrivals : List Nat) (arrived : Nat) :
    expectAfter (arrivals ++ [arrived]) = expectNext (expectAfter arrivals) arrived :=
  List.foldl_concat ..

theorem range_suffix_iff {arrivals : List Nat} {count : Nat} :
    List.range count <:+ arrivals ↔ count = 0 ∨ count = expectAfter arrivals := by
  induction arrivals using List.reverseRecOn generalizing count with
  | nil => simp only [List.suffix_nil, List.range_eq_nil, expectAfter, List.foldl_nil, or_self]
  | append_singleton arrivals arrived ih =>
    rw [expectAfter_concat, expectNext]
    cases count with
    | zero => simp only [List.range_zero, List.nil_suffix, true_or]
    | succ previous =>
      have last : List.range (previous + 1) <:+ arrivals ++ [arrived] ↔
          previous = arrived ∧ List.range previous <:+ arrivals := by
        rw [List.range_succ]
        constructor
        · intro suffix
          obtain ⟨front, same⟩ := suffix
          rw [← List.append_assoc] at same
          obtain ⟨rest, piece⟩ := List.append_inj' same rfl
          exact ⟨List.singleton_inj.mp piece, front, rest⟩
        · rintro ⟨rfl, front, rfl⟩
          exact ⟨front, by rw [List.append_assoc]⟩
      rw [last, ih]
      split
      · omega
      split <;> omega

theorem range_infix_concat {arrivals : List Nat} {arrived count : Nat} (some : 0 < count) :
    List.range count <:+: arrivals ++ [arrived] ↔
      List.range count <:+: arrivals ∨ count = expectNext (expectAfter arrivals) arrived := by
  rw [List.infix_concat_iff, range_suffix_iff, expectAfter_concat, or_comm]
  exact or_congr_right (or_iff_right some.ne')

theorem expectAfter_lt {arrivals : List Nat} {count : Nat} (missing : ¬List.range count <:+: arrivals) :
    expectAfter arrivals < count := by
  by_contra reached
  obtain ⟨extra, more⟩ := Nat.exists_eq_add_of_le (Nat.le_of_not_lt reached)
  have held : List.range (expectAfter arrivals) <:+ arrivals := range_suffix_iff.mpr (Or.inr rfl)
  rw [more, List.range_add] at held
  exact missing ((List.prefix_append _ _).isInfix.trans held.isInfix)

section Pieces

variable {α : Type}

def pieces (total size : Nat) : Nat := (total - 1) / size + 1

theorem succ_lt_pieces {total size number : Nat} (positive : 0 < size) :
    number + 1 < pieces total size ↔ (number + 1) * size < total := by
  rw [pieces, Nat.add_lt_add_iff_right, Nat.lt_iff_add_one_le, Nat.le_div_iff_mul_le positive]
  have : 0 < (number + 1) * size := Nat.mul_pos (Nat.succ_pos _) positive
  omega

theorem pieces_pos {total size : Nat} : 0 < pieces total size := Nat.succ_pos _

def piece (data : List α) (size number : Nat) : List α := (data.drop (number * size)).take size

theorem take_append_piece (data : List α) (size number : Nat) :
    data.take (number * size) ++ piece data size number = data.take ((number + 1) * size) := by
  rw [piece, Nat.add_mul, Nat.one_mul, List.take_add]

end Pieces

end ForgeDB
