import Mathlib.Algebra.Group.Nat.Defs
import Mathlib.Data.List.Basic

/-!
Computations that may stop: slices with bounds, maps that may be nil, and memory that may run out. A
computation is safe if it has a result with a wanted property, or if it stops for memory alone, and that
only where there was not room enough.
-/

namespace ForgeDB

inductive Fault where
  | outOfRange
  | badLength
  | nilMap
  | badBound
  | outOfMemory
  deriving DecidableEq, Repr

abbrev Checked (α : Type) : Type := Except Fault α

namespace Checked

variable {α β γ δ : Type} {room : Prop} {P : α → Prop} {Q : β → Prop}

@[simp] theorem ok_bind (a : α) (f : α → Checked β) : ((.ok a : Checked α) >>= f) = f a := rfl

/-- The result has the property; what stops the computation is at most a lack of room. -/
def Safe (room : Prop) (P : α → Prop) : Checked α → Prop
  | .ok a => P a
  | .error fault => fault = .outOfMemory ∧ ¬room

namespace Safe

theorem pure {a : α} (holds : P a) : Safe room P (Pure.pure a : Checked α) := holds

theorem ok {a : α} {c : Checked α} (same : c = .ok a) (holds : P a) : Safe room P c := by
  rw [same]
  exact holds

theorem bind {c : Checked α} {f : α → Checked β} (first : Safe room P c) (next : ∀ a, P a → Safe room Q (f a)) :
    Safe room Q (c >>= f) := by
  cases c with
  | ok a => exact next a first
  | error fault => exact first

theorem mono {c : Checked α} {wider : Prop} {P' : α → Prop} (safe : Safe room P c) (enough : wider → room)
    (weaker : ∀ a, P a → P' a) : Safe wider P' c := by
  cases c with
  | ok a => exact weaker a safe
  | error fault => exact ⟨safe.1, fun there => safe.2 (enough there)⟩

theorem mapM {γ : Type} {f : γ → Checked α} (each : ∀ c, Safe room P (f c)) (items : List γ) :
    Safe room (fun out => ∀ a ∈ out, P a) (items.mapM f) := by
  induction items with
  | nil => exact fun a present => absurd present List.not_mem_nil
  | cons c items ih =>
    rw [List.mapM_cons]
    refine (each c).bind fun a holds => ih.bind fun rest all => ?_
    exact Safe.pure (List.forall_mem_cons.mpr ⟨holds, all⟩)

theorem foldlM {γ : Type} {f : α → γ → Checked α} (keeps : ∀ a c, P a → Safe room P (f a c)) (items : List γ) {a : α}
    (start : P a) : Safe room P (items.foldlM f a) := by
  induction items generalizing a with
  | nil => exact start
  | cons c items ih =>
    rw [List.foldlM_cons]
    exact (keeps a c start).bind fun next holds => ih holds

theorem result {c : Checked α} (safe : Safe room P c) (there : room) : ∃ a, c = .ok a ∧ P a := by
  cases c with
  | ok a => exact ⟨a, rfl, safe⟩
  | error fault => exact absurd there safe.2

end Safe

/-- Whatever the computation results in stands in the relation to `b`. -/
def Gives (R : α → γ → Prop) (c : Checked α) (b : γ) : Prop := ∀ a, c = .ok a → R a b

namespace Gives

variable {R : α → γ → Prop} {S : β → δ → Prop} {b b' : γ}

theorem pure {a : α} (related : R a b) : Gives R (Pure.pure a : Checked α) b := by
  intro _ done
  cases done
  exact related

theorem bind {c : Checked β} {d : δ} {f : β → Checked α} (first : Gives S c d) (next : ∀ a, S a d → Gives R (f a) b) :
    Gives R (c >>= f) b := by
  cases c with
  | ok a => exact next a (first a rfl)
  | error fault => exact nofun

theorem ite {p q : Prop} [Decidable p] [Decidable q] {c c' : Checked α} (same : p ↔ q) (yes : p → Gives R c b)
    (no : ¬p → Gives R c' b') : Gives R (if p then c else c') (if q then b else b') := by
  by_cases holds : p
  · rw [if_pos holds, if_pos (same.mp holds)]
    exact yes holds
  · rw [if_neg holds, if_neg (mt same.mpr holds)]
    exact no holds

theorem guard {p q : Prop} [Decidable p] [Decidable q] {a : α} {c : Checked α} (same : p ↔ q) (stops : R a b)
    (rest : ¬p → Gives R c b') : Gives R (if p then Pure.pure a else c) (if q then b else b') :=
  ite same (fun _ => pure stops) rest

theorem skip {c : Checked β} {f : β → Checked α} (next : ∀ a, Gives R (f a) b) : Gives R (c >>= f) b :=
  bind (S := fun _ (_ : Unit) => True) (d := ()) (fun _ _ => trivial) fun a _ => next a

theorem of_safe {c : Checked α} (safe : Safe room P c) (related : ∀ a, P a → R a b) : Gives R c b := by
  rintro a rfl
  exact related a safe

end Gives

end Checked

@[ext]
structure Slice (α : Type) where
  items : List α
  fits : items.length < 2 ^ 63
  deriving DecidableEq, Repr

namespace Slice

variable {α : Type}

def empty : Slice α := ⟨[], Nat.two_pow_pos 63⟩

def single (a : α) : Slice α := ⟨[a], by simp⟩

def len (s : Slice α) : UInt64 := UInt64.ofNat s.items.length

@[simp] theorem toNat_len (s : Slice α) : s.len.toNat = s.items.length := by
  have fits := s.fits
  rw [len, UInt64.toNat_ofNat']
  exact Nat.mod_eq_of_lt (by omega)

def get (s : Slice α) (i : Nat) : Checked α :=
  match s.items[i]? with
  | some a => .ok a
  | none => .error .outOfRange

theorem get_eq {s : Slice α} {i : Nat} {a : α} (found : s.items[i]? = some a) : s.get i = .ok a := by
  simp only [get, found]

def window (s : Slice α) (low high : Nat) : Checked (Slice α) :=
  if low ≤ high ∧ high ≤ s.items.length then
    .ok ⟨(s.items.take high).drop low, by have fits := s.fits; simp only [List.length_drop, List.length_take]; omega⟩
  else .error .outOfRange

theorem window_eq {s : Slice α} {low high : Nat} (ordered : low ≤ high) (inside : high ≤ s.items.length) :
    ∃ part, s.window low high = .ok part ∧ part.items = (s.items.take high).drop low :=
  ⟨_, if_pos ⟨ordered, inside⟩, rfl⟩

def upTo (s : Slice α) (high : Nat) : Checked (Slice α) := s.window 0 high

theorem upTo_eq {s : Slice α} {high : Nat} (inside : high ≤ s.items.length) :
    ∃ part, s.upTo high = .ok part ∧ part.items = s.items.take high :=
  window_eq (Nat.zero_le high) inside

def startingAt (s : Slice α) (low : Nat) : Checked (Slice α) := s.window low s.items.length

theorem startingAt_eq {s : Slice α} {low : Nat} (inside : low ≤ s.items.length) :
    ∃ part, s.startingAt low = .ok part ∧ part.items = s.items.drop low := by
  obtain ⟨part, done, items⟩ := window_eq inside (Nat.le_refl s.items.length)
  exact ⟨part, done, by rw [items, List.take_length]⟩

theorem window_gives (s : Slice α) (low high : Nat) :
    Checked.Gives (fun part items => part.items = items) (s.window low high) ((s.items.take high).drop low) := by
  intro part done
  unfold window at done
  split at done <;> cases done
  rfl

def append (s t : Slice α) : Checked (Slice α) :=
  if fits : (s.items ++ t.items).length < 2 ^ 63 then .ok ⟨s.items ++ t.items, fits⟩ else .error .outOfMemory

theorem append_safe (s t : Slice α) :
    Checked.Safe (s.items.length + t.items.length < 2 ^ 63) (fun r => r.items = s.items ++ t.items) (s.append t) := by
  unfold append
  split
  · rfl
  · rename_i full
    exact ⟨rfl, by rwa [List.length_append] at full⟩

def make (zero : α) (length : UInt64) : Checked (Slice α) :=
  if fits : length.toNat < 2 ^ 63 then .ok ⟨List.replicate length.toNat zero, by rwa [List.length_replicate]⟩
  else .error .badLength

/-- Overwrite the first items with those of the other slice, as far as both go. -/
def copy (s t : Slice α) : Slice α :=
  ⟨t.items.take s.items.length ++ s.items.drop t.items.length, by
    have fits := s.fits
    simp only [List.length_append, List.length_take, List.length_drop]
    omega⟩

theorem make_copy (zero : α) {length : UInt64} {part : Slice α} (same : length.toNat = part.items.length) :
    ∃ out, make zero length = .ok out ∧ out.copy part = part := by
  have fits : length.toNat < 2 ^ 63 := same ▸ part.fits
  refine ⟨_, dif_pos fits, ?_⟩
  obtain ⟨items, short⟩ := part
  simp only [copy, List.length_replicate, same, List.take_length, List.drop_replicate, Nat.sub_self,
    List.replicate_zero, List.append_nil]

end Slice

abbrev NilMap (κ ν : Type) : Type := Option (List (κ × ν))

namespace NilMap

variable {κ ν : Type} [DecidableEq κ]

def made : NilMap κ ν := some []

def get (m : NilMap κ ν) (zero : ν) (key : κ) : ν :=
  ((m.getD []).find? fun entry => entry.1 = key).elim zero Prod.snd

def set (m : NilMap κ ν) (key : κ) (value : ν) : Checked (NilMap κ ν) :=
  match m with
  | none => .error .nilMap
  | some entries => .ok (some (if key ∈ entries.map Prod.fst then
      entries.map fun entry => if entry.1 = key then (key, value) else entry else (key, value) :: entries))

def size (m : NilMap κ ν) : Nat := (m.getD []).length

def keys (m : NilMap κ ν) : List κ := (m.getD []).map Prod.fst

theorem find_replaced (zero : ν) (key other : κ) (value : ν) (entries : List (κ × ν)) :
    ((entries.map fun entry => if entry.1 = key then (key, value) else entry).find? fun entry => entry.1 = other).elim
        zero Prod.snd =
      if key ∈ entries.map Prod.fst ∧ other = key then value
      else (entries.find? fun entry => entry.1 = other).elim zero Prod.snd := by
  induction entries with
  | nil => rfl
  | cons entry rest ih =>
    simp only [List.map_cons, List.find?_cons, List.mem_cons]
    grind

theorem set_get (m : NilMap κ ν) (zero : ν) (key : κ) (value : ν) :
    Checked.Gives (fun after get => after.get zero = get) (m.set key value)
      (Function.update (m.get zero) key value) := by
  cases m with
  | none => exact nofun
  | some entries =>
    refine Checked.Gives.pure (funext fun other => ?_)
    simp only [Function.update_apply, get, Option.getD_some]
    split
    · rw [find_replaced]
      grind
    · simp only [List.find?_cons]
      grind

theorem set_keys (m : NilMap κ ν) (key : κ) (value : ν) :
    Checked.Gives (fun after keys => after.keys = keys) (m.set key value) (m.keys.insert key) := by
  cases m with
  | none => exact nofun
  | some entries =>
    refine Checked.Gives.pure ?_
    simp only [keys, Option.getD_some, List.insert, List.elem_iff]
    split
    · rw [List.map_map]
      exact List.map_congr_left fun entry _ => by grind
    · rfl

theorem set_safe {m : NilMap κ ν} (there : m.isSome = true) (room : Prop) (key : κ) (value : ν) :
    Checked.Safe room (fun after => after.isSome = true) (m.set key value) := by
  cases m with
  | none => cases there
  | some entries => exact rfl

end NilMap

def intn (draw : Nat) (bound : Int64) : Checked Int64 :=
  if bound ≤ 0 then .error .badBound else .ok (Int64.ofNat (draw % bound.toNatClampNeg))

end ForgeDB
