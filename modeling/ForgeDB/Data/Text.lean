import ForgeDB.Data.Encoding
import Mathlib.Data.Nat.Digits.Defs

/-!
Numbers written in decimal and texts joined by a separator, as bytes. Neither loses anything: equal
texts come from equal numbers, and from equal lists as long as no part contains the separator.
-/

namespace ForgeDB

def decimal (n : Nat) : Bytes :=
  if n = 0 then [48] else (Nat.digits 10 n).reverse.map fun digit => UInt8.ofNat (48 + digit)

theorem decimal_digit {n : Nat} {byte : UInt8} (present : byte ∈ decimal n) :
    ∃ digit < 10, byte = UInt8.ofNat (48 + digit) := by
  unfold decimal at present
  split at present
  · rw [List.mem_singleton.mp present]
    exact ⟨0, by decide, rfl⟩
  · obtain ⟨digit, inside, rfl⟩ := List.mem_map.mp present
    exact ⟨digit, Nat.digits_lt_base (by decide) (List.mem_reverse.mp inside), rfl⟩

theorem digit_injective {first second : Nat} (small : first < 10) (smaller : second < 10)
    (same : UInt8.ofNat (48 + first) = UInt8.ofNat (48 + second)) : first = second := by
  have values := congrArg UInt8.toNat same
  rw [UInt8.toNat_ofNat', UInt8.toNat_ofNat'] at values
  omega

theorem map_digit_injective {first second : List Nat} (small : ∀ digit ∈ first, digit < 10)
    (smaller : ∀ digit ∈ second, digit < 10)
    (same : first.map (fun digit => UInt8.ofNat (48 + digit)) = second.map fun digit => UInt8.ofNat (48 + digit)) :
    first = second := by
  induction first generalizing second with
  | nil => exact (List.map_eq_nil_iff.mp same.symm).symm
  | cons digit first ih =>
    cases second with
    | nil => cases same
    | cons other second =>
      obtain ⟨head, tail⟩ := List.cons.inj same
      rw [digit_injective (small _ List.mem_cons_self) (smaller _ List.mem_cons_self) head,
        ih (fun digit present => small digit (List.mem_cons_of_mem _ present))
          (fun digit present => smaller digit (List.mem_cons_of_mem _ present)) tail]

theorem decimal_zero_iff (n : Nat) : decimal n = [48] ↔ n = 0 := by
  refine ⟨fun same => ?_, fun zero => if_pos zero⟩
  by_contra positive
  rw [decimal, if_neg positive] at same
  have digits : Nat.digits 10 n = [0] := by
    have shape : (Nat.digits 10 n).reverse = [0] :=
      map_digit_injective (fun digit present => Nat.digits_lt_base (by decide) (List.mem_reverse.mp present))
        (by decide) same
    rw [← List.reverse_reverse (Nat.digits 10 n), shape]
    rfl
  have value := Nat.ofDigits_digits 10 n
  rw [digits] at value
  exact positive value.symm

theorem decimal_injective {first second : Nat} (same : decimal first = decimal second) : first = second := by
  by_cases zero : first = 0
  · rw [(decimal_zero_iff first).mpr zero] at same
    rw [zero, (decimal_zero_iff second).mp same.symm]
  · by_cases other : second = 0
    · rw [(decimal_zero_iff second).mpr other] at same
      exact absurd ((decimal_zero_iff first).mp same) zero
    · rw [decimal, if_neg zero, decimal, if_neg other] at same
      have digits := map_digit_injective
        (fun digit present => Nat.digits_lt_base (by decide) (List.mem_reverse.mp present))
        (fun digit present => Nat.digits_lt_base (by decide) (List.mem_reverse.mp present)) same
      exact Nat.digits.injective 10 (List.reverse_injective digits)

def join (separator : UInt8) : List Bytes → Bytes
  | [] => []
  | [part] => part
  | part :: next :: parts => part ++ separator :: join separator (next :: parts)

theorem append_separator_inj {separator : UInt8} {first second restFirst restSecond : Bytes}
    (clean : separator ∉ first) (cleanSecond : separator ∉ second)
    (same : first ++ separator :: restFirst = second ++ separator :: restSecond) :
    first = second ∧ restFirst = restSecond := by
  induction first generalizing second with
  | nil =>
    cases second with
    | nil => exact ⟨rfl, (List.cons.inj same).2⟩
    | cons byte second =>
      rw [(List.cons.inj same).1] at cleanSecond
      exact absurd List.mem_cons_self cleanSecond
  | cons byte first ih =>
    cases second with
    | nil =>
      rw [← (List.cons.inj same).1] at clean
      exact absurd List.mem_cons_self clean
    | cons other second =>
      obtain ⟨rfl, tail⟩ := List.cons.inj same
      obtain ⟨rfl, rest⟩ := ih (fun present => clean (List.mem_cons_of_mem _ present))
        (fun present => cleanSecond (List.mem_cons_of_mem _ present)) tail
      exact ⟨rfl, rest⟩

theorem join_injective {separator : UInt8} {first second : List Bytes} (clean : ∀ part ∈ first, separator ∉ part)
    (cleanSecond : ∀ part ∈ second, separator ∉ part) (some : first ≠ []) (someSecond : second ≠ [])
    (same : join separator first = join separator second) : first = second := by
  induction first generalizing second with
  | nil => exact absurd rfl some
  | cons part parts ih =>
    cases second with
    | nil => exact absurd rfl someSecond
    | cons other others =>
      have notPart := clean part List.mem_cons_self
      have notOther := cleanSecond other List.mem_cons_self
      cases parts with
      | nil =>
        cases others with
        | nil => exact congrArg (fun part => [part]) same
        | cons next others =>
          have inside : separator ∈ part := by
            rw [show part = other ++ separator :: join separator (next :: others) from same]
            exact List.mem_append_right _ List.mem_cons_self
          exact absurd inside notPart
      | cons next parts =>
        cases others with
        | nil =>
          have inside : separator ∈ other := by
            rw [← show part ++ separator :: join separator (next :: parts) = other from same]
            exact List.mem_append_right _ List.mem_cons_self
          exact absurd inside notOther
        | cons after others =>
          obtain ⟨rfl, rest⟩ := append_separator_inj notPart notOther same
          rw [ih (fun part present => clean part (List.mem_cons_of_mem _ present))
            (fun part present => cleanSecond part (List.mem_cons_of_mem _ present)) (List.cons_ne_nil _ _)
            (List.cons_ne_nil _ _) rest]

end ForgeDB
