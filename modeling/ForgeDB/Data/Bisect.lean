import Mathlib.Data.List.Basic
import Mathlib.Order.Compare

/-!
Binary search over positions, as the loop that halves the interval from `lo` to before `hi`. The fuel is the
length of the interval, which every round shortens. The checked loops look at a position through an access that
may fail.
-/

namespace ForgeDB

def bisect (below : Nat → Bool) : Nat → Nat → Nat → Nat
  | 0, lo, _ => lo
  | fuel + 1, lo, hi =>
    if lo < hi then
      let mid := (lo + hi) / 2
      if below mid then bisect below fuel (mid + 1) hi else bisect below fuel lo mid
    else lo

theorem bisect_within (below : Nat → Bool) {fuel lo hi : Nat} (ordered : lo ≤ hi) :
    lo ≤ bisect below fuel lo hi ∧ bisect below fuel lo hi ≤ hi := by
  induction fuel generalizing lo hi with
  | zero => exact ⟨Nat.le_refl _, ordered⟩
  | succ fuel ih =>
    unfold bisect
    split
    · dsimp only
      split
      · have inside := ih (show (lo + hi) / 2 + 1 ≤ hi by omega)
        exact ⟨by omega, inside.2⟩
      · have inside := ih (show lo ≤ (lo + hi) / 2 by omega)
        exact ⟨inside.1, by omega⟩
    · exact ⟨Nat.le_refl _, ordered⟩

theorem bisect_eq {below : Nat → Bool} {fuel lo hi cut : Nat} (enough : hi - lo ≤ fuel) (low : lo ≤ cut)
    (high : cut ≤ hi)
    (divides : ∀ i, lo ≤ i → i < hi → (below i = true ↔ i < cut)) : bisect below fuel lo hi = cut := by
  induction fuel generalizing lo hi with
  | zero =>
    unfold bisect
    omega
  | succ fuel ih =>
    unfold bisect
    split
    · have test := divides ((lo + hi) / 2) (by omega) (by omega)
      dsimp only
      split
      · rename_i holds
        have reached := test.mp holds
        exact ih (by omega) (by omega) high fun i above before => divides i (by omega) before
      · rename_i fails
        have beyond : cut ≤ (lo + hi) / 2 := Nat.not_lt.mp fun reached => fails (test.mpr reached)
        exact ih (by omega) low beyond fun i above before => divides i above (by omega)
    · omega

def probe (compare : Nat → Ordering) : Nat → Nat → Nat → Option Nat
  | 0, _, _ => none
  | fuel + 1, lo, hi =>
    if lo < hi then
      let mid := (lo + hi) / 2
      match compare mid with
      | .eq => some mid
      | .lt => probe compare fuel (mid + 1) hi
      | .gt => probe compare fuel lo mid
    else none

theorem probe_inside {compare : Nat → Ordering} {fuel lo hi found : Nat}
    (probed : probe compare fuel lo hi = some found) :
    found < hi ∧ compare found = .eq := by
  induction fuel generalizing lo hi with
  | zero => cases probed
  | succ fuel ih =>
    unfold probe at probed
    split at probed
    · dsimp only at probed
      split at probed
      · rename_i here
        cases probed
        exact ⟨by omega, here⟩
      · exact ih probed
      · have inside := ih probed
        exact ⟨by omega, inside.2⟩
    · cases probed

theorem probe_eq_none {compare : Nat → Ordering} {fuel lo hi : Nat}
    (absent : ∀ i, lo ≤ i → i < hi → compare i ≠ .eq) : probe compare fuel lo hi = none := by
  induction fuel generalizing lo hi with
  | zero => rfl
  | succ fuel ih =>
    unfold probe
    split
    · dsimp only
      split
      · rename_i here
        exact absurd here (absent _ (by omega) (by omega))
      · exact ih fun i above before => absent i (by omega) before
      · exact ih fun i above before => absent i above (by omega)
    · rfl

theorem probe_eq_some {compare : Nat → Ordering} {fuel lo hi here : Nat} (enough : hi - lo ≤ fuel) (low : lo ≤ here)
    (high : here < hi) (found : compare here = .eq) (before : ∀ i, i < here → compare i = .lt)
    (behind : ∀ i, here < i → i < hi → compare i = .gt) : probe compare fuel lo hi = some here := by
  induction fuel generalizing lo hi with
  | zero => omega
  | succ fuel ih =>
    unfold probe
    rw [if_pos (by omega)]
    dsimp only
    rcases Nat.lt_trichotomy ((lo + hi) / 2) here with left | equal | right
    · rw [before _ left]
      exact ih (by omega) (by omega) high behind
    · rw [equal, found]
    · rw [behind _ right (by omega)]
      exact ih (by omega) low right fun i above inside => behind i above (by omega)

/-! ### With every access checked -/

def bisectChecked (below : Nat → Option Bool) : Nat → Nat → Nat → Option Nat
  | 0, lo, hi => if lo < hi then none else some lo
  | fuel + 1, lo, hi =>
    if lo < hi then
      let mid := (lo + hi) / 2
      match below mid with
      | none => none
      | some true => bisectChecked below fuel (mid + 1) hi
      | some false => bisectChecked below fuel lo mid
    else some lo

theorem bisectChecked_eq {access : Nat → Option Bool} {below : Nat → Bool} {fuel lo hi : Nat} (enough : hi - lo ≤ fuel)
    (inside : ∀ i < hi, access i = some (below i)) :
    bisectChecked access fuel lo hi = some (bisect below fuel lo hi) := by
  induction fuel generalizing lo hi with
  | zero => exact if_neg (by omega)
  | succ fuel ih =>
    unfold bisectChecked bisect
    by_cases more : lo < hi
    · simp only [if_pos more, inside ((lo + hi) / 2) (by omega)]
      cases below ((lo + hi) / 2) with
      | true => exact ih (by omega) inside
      | false => exact ih (by omega) fun i before => inside i (by omega)
    · rw [if_neg more, if_neg more]

def probeChecked (compare : Nat → Option Ordering) : Nat → Nat → Nat → Option (Option Nat)
  | 0, lo, hi => if lo < hi then none else some none
  | fuel + 1, lo, hi =>
    if lo < hi then
      let mid := (lo + hi) / 2
      match compare mid with
      | none => none
      | some .eq => some (some mid)
      | some .lt => probeChecked compare fuel (mid + 1) hi
      | some .gt => probeChecked compare fuel lo mid
    else some none

theorem probeChecked_eq {access : Nat → Option Ordering} {compare : Nat → Ordering} {fuel lo hi : Nat}
    (enough : hi - lo ≤ fuel) (inside : ∀ i < hi, access i = some (compare i)) :
    probeChecked access fuel lo hi = some (probe compare fuel lo hi) := by
  induction fuel generalizing lo hi with
  | zero => exact if_neg (by omega)
  | succ fuel ih =>
    unfold probeChecked probe
    by_cases more : lo < hi
    · simp only [if_pos more, inside ((lo + hi) / 2) (by omega)]
      cases compare ((lo + hi) / 2) with
      | eq => rfl
      | lt => exact ih (by omega) inside
      | gt => exact ih (by omega) fun i before => inside i (by omega)
    · rw [if_neg more, if_neg more]

end ForgeDB
