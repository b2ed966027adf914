import ForgeDB.Correctness.Checker
import ForgeDB.Data.Greedy

/-!
Minimization of a history that `Check` refuses: operations are dropped one at a time as long as the rest is
still refused.
-/

namespace ForgeDB.Correctness

open Greedy (removeAt passes)

/-- The check of a candidate, if the candidate is valid and still a violation. -/
def stillViolates (maxStates : Int) (ops : List Operation) : Option CheckResult :=
  let candidate : History := ⟨ops⟩
  match candidate.validate with
  | .error _ => none
  | .ok _ =>
    let candidateResult := check candidate maxStates
    if candidateResult.status = .violation then some candidateResult else none

def minimize (h : History) (maxStates maxPasses : Int) : History × CheckResult :=
  let maxPasses := if maxPasses ≤ 0 then 1 else maxPasses
  let result := check h maxStates
  if result.status ≠ .violation then (h, result)
  else
    let (ops, result) := passes (stillViolates maxStates) maxPasses.toNat h.ops result
    (⟨ops⟩, result)

theorem stillViolates_eq_some {maxStates : Int} {ops : List Operation} {result : CheckResult} :
    stillViolates maxStates ops = some result ↔
      (History.mk ops).validate = .ok () ∧ check ⟨ops⟩ maxStates = result ∧ result.status = .violation := by
  unfold stillViolates
  dsimp only
  split
  · rename_i error refused
    rw [refused]
    exact iff_of_false (fun found => nomatch found) fun all => nomatch all.1
  · rename_i passed
    rw [passed, Option.ite_none_right_eq_some, Option.some.injEq]
    constructor
    · rintro ⟨violation, rfl⟩
      exact ⟨rfl, rfl, violation⟩
    · rintro ⟨-, rfl, violation⟩
      exact ⟨violation, rfl⟩

def OneMinimal (maxStates : Int) (h : History) : Prop :=
  ∀ i < h.ops.length, (check ⟨removeAt h.ops i⟩ maxStates).status ≠ .violation

def beforeLastPass (h : History) (maxStates maxPasses : Int) : History :=
  if maxPasses ≤ 1 then h else (minimize h maxStates (maxPasses - 1)).1

theorem minimize_violation {h : History} {maxStates maxPasses : Int} {count : Nat}
    (violation : (check h maxStates).status = .violation)
    (counted : (if maxPasses ≤ 0 then 1 else maxPasses).toNat = count) :
    minimize h maxStates maxPasses = (⟨(passes (stillViolates maxStates) count h.ops (check h maxStates)).1⟩,
      (passes (stillViolates maxStates) count h.ops (check h maxStates)).2) := by
  subst counted
  simp only [minimize, ne_eq, violation, not_true_eq_false, if_false]

-- A history with one operation less is valid, so it can only be refused for its verdict.
theorem oneMinimal_of_minimal {maxStates : Int} {h : History} (valid : h.validate = .ok ())
    (minimal : Greedy.Minimal (stillViolates maxStates) h.ops) : OneMinimal maxStates h := by
  intro i inside again
  have smaller := History.validate_sublist valid (Greedy.removeAt_sublist h.ops i)
  have refused := minimal i inside
  rw [stillViolates_eq_some.mpr ⟨smaller, rfl, again⟩] at refused
  cases refused

/-- Whatever the number of passes, what is left of a violation is a part of it that is a violation with the result
returned. It is none any more without any one of its operations if the last pass has removed nothing, and so also if
fewer operations are gone than there were passes to make. -/
theorem minimize_faithful (h : History) (maxStates maxPasses : Int) (valid : h.validate = .ok ())
    (violation : (check h maxStates).status = .violation) :
    let small := (minimize h maxStates maxPasses).1
    small.ops.Sublist h.ops ∧ small.validate = .ok () ∧ (minimize h maxStates maxPasses).2 = check small maxStates ∧
      (check small maxStates).status = .violation ∧
      (small = beforeLastPass h maxStates maxPasses → OneMinimal maxStates small) ∧
      (h.ops.length < small.ops.length + (max 1 maxPasses).toNat → OneMinimal maxStates small) := by
  obtain ⟨count, counted⟩ : ∃ count, (if maxPasses ≤ 0 then 1 else maxPasses).toNat = count + 1 :=
    ⟨(if maxPasses ≤ 0 then 1 else maxPasses).toNat - 1, by split <;> omega⟩
  have start : stillViolates maxStates h.ops = some (check h maxStates) :=
    stillViolates_eq_some.mpr ⟨valid, rfl, violation⟩
  obtain ⟨part, accepted⟩ := Greedy.passes_reduces (stillViolates maxStates) (count + 1) h.ops (check h maxStates)
  obtain ⟨validAfter, same, still⟩ := stillViolates_eq_some.mp (accepted start)
  rw [minimize_violation violation counted]
  refine ⟨part, validAfter, same.symm, same ▸ still, fun unchanged => ?_, fun few => ?_⟩
  · refine oneMinimal_of_minimal validAfter (Greedy.passes_last ?_)
    rw [beforeLastPass] at unchanged
    split at unchanged
    · -- One pass only: it began with the whole history.
      have only : count = 0 := by split at counted <;> omega
      subst only
      exact congrArg History.ops unchanged
    · rw [minimize_violation violation (show _ = count by split <;> omega)] at unchanged
      exact congrArg History.ops unchanged
  · refine oneMinimal_of_minimal validAfter ?_
    rcases Greedy.passes_bound (stillViolates maxStates) (count + 1) h.ops (check h maxStates) with minimal | bound
    · exact minimal
    · have passes : (max 1 maxPasses).toNat = count + 1 := by split at counted <;> omega
      rw [passes] at few
      exact absurd bound (Nat.not_le_of_lt few)

def strayRead : History :=
  ⟨[⟨1, .put, "y", "2", 1, 2, .ok, false, "", none⟩, ⟨2, .get, "x", "", 3, 4, .ok, true, "1", none⟩]⟩

/-- Nothing but the read is left: without it there is no violation, and with the write besides it the read alone
would be a smaller one. -/
theorem minimize_faithful_strayRead :
    strayRead.validate = .ok () ∧ (check strayRead 0).status = .violation ∧
      (minimize strayRead 0 3).1.ops = [⟨2, .get, "x", "", 3, 4, .ok, true, "1", none⟩] := by
  have valid : strayRead.validate = .ok () := by decide
  have violation : (check strayRead 0).status = .violation := by decide
  obtain ⟨part, -, -, still, -, minimal⟩ := minimize_faithful strayRead 0 3 valid violation
  refine ⟨valid, violation, ?_⟩
  generalize (minimize strayRead 0 3).1 = small at part still minimal
  obtain ⟨ops⟩ := small
  have minimal : OneMinimal 0 ⟨ops⟩ := minimal (Nat.lt_of_lt_of_le (by decide) (Nat.le_add_left _ _))
  simp only [strayRead, List.sublist_cons_iff, List.sublist_nil] at part
  rcases part with (rfl | ⟨_, rfl, rfl⟩) | ⟨_, rfl, rfl | ⟨_, rfl, rfl⟩⟩
  · exact absurd still (by decide)
  · rfl
  · exact absurd still (by decide)
  · exact absurd (by decide) (minimal 0 (by decide))

end ForgeDB.Correctness
