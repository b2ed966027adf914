import Mathlib.Algebra.GroupWithZero.Nat
import Mathlib.Algebra.Ring.Int.Defs
import Mathlib.Data.List.Basic
import Mathlib.Data.List.Perm.Subperm
import Mathlib.Order.Lattice

/-!
Finite maps as lists sorted strictly by key. The order makes the list canonical, so two maps
with the same lookups are equal, and a map can be written out and read back entry by entry.
-/

namespace ForgeDB

structure SortedMap (κ ν : Type) [LinearOrder κ] where
  entries : List (κ × ν)
  sorted : entries.Pairwise fun first second => first.1 < second.1

namespace SortedMap

variable {κ ν : Type} [LinearOrder κ]

instance [DecidableEq ν] : DecidableEq (SortedMap κ ν) := fun first second =>
  decidable_of_iff (first.entries = second.entries)
    ⟨fun same => by cases first; cases second; cases same; rfl, congrArg SortedMap.entries⟩

def empty : SortedMap κ ν := ⟨[], List.Pairwise.nil⟩

instance : Inhabited (SortedMap κ ν) := ⟨empty⟩

def lookup (key : κ) : List (κ × ν) → Option ν
  | [] => none
  | entry :: rest => if entry.1 = key then some entry.2 else lookup key rest

def get? (m : SortedMap κ ν) (key : κ) : Option ν := lookup key m.entries

def insertEntry (key : κ) (value : ν) : List (κ × ν) → List (κ × ν)
  | [] => [(key, value)]
  | entry :: rest =>
    if key < entry.1 then (key, value) :: entry :: rest
    else if entry.1 < key then entry :: insertEntry key value rest
    else (key, value) :: rest

theorem mem_insertEntry {key : κ} {value : ν} {entries : List (κ × ν)} {entry : κ × ν}
    (present : entry ∈ insertEntry key value entries) : entry = (key, value) ∨ entry ∈ entries := by
  induction entries with
  | nil =>
    simp only [insertEntry, List.mem_singleton] at present
    exact Or.inl present
  | cons first rest ih =>
    unfold insertEntry at present
    split at present
    · exact List.mem_cons.mp present
    · split at present
      · rcases List.mem_cons.mp present with rfl | later
        · exact Or.inr List.mem_cons_self
        · exact (ih later).imp_right (List.mem_cons_of_mem first)
      · exact (List.mem_cons.mp present).imp_right (List.mem_cons_of_mem first)

theorem insertEntry_length (key : κ) (value : ν) (entries : List (κ × ν)) :
    (insertEntry key value entries).length ≤ entries.length + 1 := by
  induction entries with
  | nil => exact Nat.le_refl _
  | cons first rest ih =>
    unfold insertEntry
    split
    · exact Nat.le_refl _
    · split
      · exact Nat.succ_le_succ ih
      · exact Nat.le_succ _

theorem insertEntry_sorted (key : κ) (value : ν) {entries : List (κ × ν)}
    (sorted : entries.Pairwise fun first second => first.1 < second.1) :
    (insertEntry key value entries).Pairwise fun first second => first.1 < second.1 := by
  induction entries with
  | nil => exact List.pairwise_singleton _ _
  | cons first rest ih =>
    obtain ⟨above, tail⟩ := List.pairwise_cons.mp sorted
    unfold insertEntry
    split
    · rename_i before
      refine List.pairwise_cons.mpr ⟨fun entry present => ?_, sorted⟩
      rcases List.mem_cons.mp present with rfl | later
      · exact before
      · exact lt_trans before (above entry later)
    · split
      · rename_i after
        refine List.pairwise_cons.mpr ⟨fun entry present => ?_, ih tail⟩
        rcases mem_insertEntry present with rfl | old
        · exact after
        · exact above entry old
      · rename_i notBefore notAfter
        have same : key = first.1 := le_antisymm (not_lt.mp notAfter) (not_lt.mp notBefore)
        subst same
        exact List.pairwise_cons.mpr ⟨above, tail⟩

def insert (m : SortedMap κ ν) (key : κ) (value : ν) : SortedMap κ ν :=
  ⟨insertEntry key value m.entries, insertEntry_sorted key value m.sorted⟩

def erase (m : SortedMap κ ν) (key : κ) : SortedMap κ ν :=
  ⟨m.entries.filter fun entry => entry.1 ≠ key, m.sorted.filter _⟩

def eraseAll (m : SortedMap κ ν) (keys : List κ) : SortedMap κ ν := keys.foldl erase m

@[simp] theorem get?_empty (key : κ) : (empty : SortedMap κ ν).get? key = none := rfl

theorem lookup_eq_none {key : κ} {entries : List (κ × ν)} (absent : ∀ entry ∈ entries, entry.1 ≠ key) :
    lookup key entries = none := by
  induction entries with
  | nil => rfl
  | cons first rest ih =>
    rw [lookup, if_neg (absent first List.mem_cons_self)]
    exact ih fun entry present => absent entry (List.mem_cons_of_mem first present)

theorem lookup_insertEntry (key other : κ) (value : ν) (entries : List (κ × ν)) :
    lookup other (insertEntry key value entries) = if other = key then some value else lookup other entries := by
  induction entries with
  | nil => simp only [insertEntry, lookup, eq_comm]
  | cons first rest ih =>
    unfold insertEntry
    split
    · simp only [lookup, eq_comm]
    · split
      · rename_i after
        simp only [lookup, ih]
        by_cases same : first.1 = other
        · subst same
          simp only [if_true, after.ne, if_false]
        · simp only [same, if_false]
      · rename_i notBefore notAfter
        have same : key = first.1 := le_antisymm (not_lt.mp notAfter) (not_lt.mp notBefore)
        subst same
        by_cases here : other = first.1
        · simp only [lookup, here, if_true]
        · simp only [lookup, here, Ne.symm here, if_false]

@[simp] theorem get?_insert (m : SortedMap κ ν) (key other : κ) (value : ν) :
    (m.insert key value).get? other = if other = key then some value else m.get? other :=
  lookup_insertEntry key other value m.entries

theorem lookup_filter (key other : κ) (entries : List (κ × ν)) :
    lookup other (entries.filter fun entry => entry.1 ≠ key) = if other = key then none else lookup other entries := by
  induction entries with
  | nil => simp only [List.filter_nil, lookup, ite_self]
  | cons first rest ih =>
    by_cases kept : first.1 = key
    · rw [List.filter_cons_of_neg (by simp only [kept, ne_eq, not_true_eq_false, decide_false, Bool.false_eq_true,
        not_false_eq_true]), ih]
      by_cases here : other = key
      · simp only [here, if_true]
      · simp only [lookup, kept, Ne.symm here, here, if_false]
    · rw [List.filter_cons_of_pos (by simp only [ne_eq, kept, not_false_eq_true, decide_true])]
      simp only [lookup, ih]
      by_cases here : first.1 = other
      · subst here
        simp only [if_true, kept, if_false]
      · simp only [here, if_false]

@[simp] theorem get?_erase (m : SortedMap κ ν) (key other : κ) :
    (m.erase key).get? other = if other = key then none else m.get? other :=
  lookup_filter key other m.entries

theorem get?_eraseAll (m : SortedMap κ ν) (keys : List κ) (key : κ) :
    (m.eraseAll keys).get? key = if key ∈ keys then none else m.get? key := by
  induction keys generalizing m with
  | nil => simp only [eraseAll, List.foldl_nil, List.not_mem_nil, if_false]
  | cons first keys ih =>
    rw [eraseAll, List.foldl_cons, ← eraseAll, ih, get?_erase]
    by_cases here : key = first
    · simp only [here, if_true, ite_self, List.mem_cons_self]
    · simp only [here, if_false, List.mem_cons, false_or]

theorem lookup_of_mem {entries : List (κ × ν)} (sorted : entries.Pairwise fun first second => first.1 < second.1)
    {entry : κ × ν} (present : entry ∈ entries) : lookup entry.1 entries = some entry.2 := by
  induction entries with
  | nil => cases present
  | cons first rest ih =>
    obtain ⟨above, tail⟩ := List.pairwise_cons.mp sorted
    rcases List.mem_cons.mp present with rfl | later
    · simp only [lookup, if_true]
    · rw [lookup, if_neg (above entry later).ne, ih tail later]

theorem mem_of_lookup {entries : List (κ × ν)} {key : κ} {value : ν} (found : lookup key entries = some value) :
    (key, value) ∈ entries := by
  induction entries with
  | nil => cases found
  | cons first rest ih =>
    unfold lookup at found
    split at found
    · rename_i here
      cases found
      rw [← here]
      exact List.mem_cons_self
    · exact List.mem_cons_of_mem first (ih found)

theorem insertEntry_present {entries : List (κ × ν)} {key : κ} {old : ν} (found : lookup key entries = some old)
    (sorted : entries.Pairwise fun first second => first.1 < second.1) (value : ν) :
    ∃ before after, entries = before ++ (key, old) :: after ∧
      insertEntry key value entries = before ++ (key, value) :: after := by
  induction entries with
  | nil => cases found
  | cons first rest ih =>
    obtain ⟨above, tail⟩ := List.pairwise_cons.mp sorted
    unfold lookup at found
    unfold insertEntry
    split at found
    · rename_i here
      cases found
      subst here
      rw [if_neg (lt_irrefl _), if_neg (lt_irrefl _)]
      exact ⟨[], rest, rfl, rfl⟩
    · obtain ⟨before, after, split, inserted⟩ := ih found tail
      have below : first.1 < key := above (key, old) (split ▸ List.mem_append_right _ List.mem_cons_self)
      rw [if_neg (lt_asymm below), if_pos below, inserted]
      exact ⟨first :: before, after, by rw [split, List.cons_append], rfl⟩

theorem eq_of_lookup {left right : List (κ × ν)}
    (sortedLeft : left.Pairwise fun first second => first.1 < second.1)
    (sortedRight : right.Pairwise fun first second => first.1 < second.1)
    (same : ∀ key, lookup key left = lookup key right) : left = right := by
  induction left generalizing right with
  | nil =>
    cases right with
    | nil => rfl
    | cons head tail =>
      have found := same head.1
      simp only [lookup, if_true] at found
      cases found
  | cons first rest ih =>
    obtain ⟨above, tailSorted⟩ := List.pairwise_cons.mp sortedLeft
    cases right with
    | nil =>
      have found := same first.1
      simp only [lookup, if_true] at found
      cases found
    | cons head tail =>
      obtain ⟨aboveHead, tailSortedRight⟩ := List.pairwise_cons.mp sortedRight
      -- Each head is found in the other list, so neither key is below the other.
      have forward : (first.1, first.2) ∈ head :: tail := by
        apply mem_of_lookup
        rw [← same first.1]
        simp only [lookup, if_true]
      have backward : (head.1, head.2) ∈ first :: rest := by
        apply mem_of_lookup
        rw [same head.1]
        simp only [lookup, if_true]
      have heads : first = head := by
        rcases List.mem_cons.mp forward with equal | later
        · exact equal
        · rcases List.mem_cons.mp backward with equal | earlier
          · exact equal.symm
          · exact absurd (aboveHead _ later) (lt_asymm (above _ earlier))
      subst heads
      congr 1
      refine ih tailSorted tailSortedRight fun key => ?_
      have whole := same key
      simp only [lookup] at whole
      by_cases here : first.1 = key
      · subst here
        rw [lookup_eq_none fun entry present => (above entry present).ne',
          lookup_eq_none fun entry present => (aboveHead entry present).ne']
      · simp only [here, if_false] at whole
        exact whole

@[ext] theorem ext_get? {left right : SortedMap κ ν} (same : ∀ key, left.get? key = right.get? key) :
    left = right := by
  obtain ⟨entries, sorted⟩ := left
  obtain ⟨others, sortedOthers⟩ := right
  have equal : entries = others := eq_of_lookup sorted sortedOthers same
  subst equal
  rfl

theorem get?_foldl_insert (m : SortedMap κ ν) {entries : List (κ × ν)}
    (sorted : entries.Pairwise fun first second => first.1 < second.1) (key : κ) :
    (entries.foldl (fun m entry => m.insert entry.1 entry.2) m).get? key = (lookup key entries).or (m.get? key) := by
  induction entries generalizing m with
  | nil => rfl
  | cons first rest ih =>
    obtain ⟨above, tail⟩ := List.pairwise_cons.mp sorted
    rw [List.foldl_cons, ih _ tail, get?_insert, lookup]
    by_cases here : first.1 = key
    · subst here
      rw [lookup_eq_none fun entry present => (above entry present).ne', if_pos rfl, if_pos rfl]
      rfl
    · rw [if_neg (Ne.symm here), if_neg here]

theorem foldl_insert_entries (m : SortedMap κ ν) :
    m.entries.foldl (fun m entry => m.insert entry.1 entry.2) empty = m := by
  apply ext_get?
  intro key
  rw [get?_foldl_insert empty m.sorted, get?_empty, Option.or_none]
  rfl

theorem lookup_eq_some_iff {entries : List (κ × ν)} (sorted : entries.Pairwise fun first second => first.1 < second.1)
    {key : κ} {value : ν} : lookup key entries = some value ↔ (key, value) ∈ entries :=
  ⟨mem_of_lookup, fun present => lookup_of_mem sorted present⟩

theorem mem_entries (m : SortedMap κ ν) {key : κ} {value : ν} : (key, value) ∈ m.entries ↔ m.get? key = some value :=
  (lookup_eq_some_iff m.sorted).symm

theorem eq_entries (m : SortedMap κ ν) {list : List (κ × ν)}
    (sorted : list.Pairwise fun first second => first.1 < second.1)
    (same : ∀ key value, (key, value) ∈ list ↔ m.get? key = some value) : list = m.entries := by
  apply eq_of_lookup sorted m.sorted
  intro key
  apply Option.ext
  intro value
  rw [lookup_eq_some_iff sorted, same, get?]

def total (f : κ → ν → Int) (entries : List (κ × ν)) : Int := (entries.map fun entry => f entry.1 entry.2).sum

omit [LinearOrder κ] in
@[simp] theorem total_cons (f : κ → ν → Int) (entry : κ × ν) (entries : List (κ × ν)) :
    total f (entry :: entries) = f entry.1 entry.2 + total f entries := rfl

theorem total_insert (f : κ → ν → Int) (m : SortedMap κ ν) (key : κ) (value : ν) :
    total f (m.insert key value).entries = total f m.entries + f key value - (m.get? key).elim 0 (f key) := by
  obtain ⟨entries, sorted⟩ := m
  show total f (insertEntry key value entries) = total f entries + f key value - (lookup key entries).elim 0 (f key)
  induction entries with
  | nil => simp only [insertEntry, lookup, total_cons, Option.elim_none]; omega
  | cons first rest ih =>
    obtain ⟨above, tail⟩ := List.pairwise_cons.mp sorted
    unfold insertEntry lookup
    rcases lt_trichotomy key first.1 with below | rfl | behind
    · have absent : lookup key rest = none := lookup_eq_none fun entry later => (lt_trans below (above entry later)).ne'
      simp only [if_pos below, if_neg below.ne', absent, total_cons, Option.elim_none]
      omega
    · simp only [if_neg (lt_irrefl _), if_pos, total_cons, Option.elim_some]
      omega
    · simp only [if_neg (lt_asymm behind), if_pos behind, if_neg behind.ne, total_cons, ih tail]
      omega

theorem total_erase (f : κ → ν → Int) (m : SortedMap κ ν) (key : κ) :
    total f (m.erase key).entries = total f m.entries - (m.get? key).elim 0 (f key) := by
  obtain ⟨entries, sorted⟩ := m
  show total f (entries.filter fun entry => entry.1 ≠ key) = total f entries - (lookup key entries).elim 0 (f key)
  induction entries with
  | nil => rfl
  | cons first rest ih =>
    obtain ⟨above, tail⟩ := List.pairwise_cons.mp sorted
    by_cases same : first.1 = key
    · subst same
      have kept : (rest.filter fun entry => entry.1 ≠ first.1) = rest :=
        List.filter_eq_self.mpr fun entry later => decide_eq_true (above entry later).ne'
      rw [List.filter_cons_of_neg (by simp), kept]
      simp only [lookup, if_pos, total_cons, Option.elim_some]
      omega
    · rw [List.filter_cons_of_pos (by simpa using same)]
      simp only [lookup, if_neg same, total_cons, ih tail]
      omega

theorem get?_isSome (m : SortedMap κ ν) (key : κ) : (m.get? key).isSome ↔ key ∈ m.entries.map Prod.fst := by
  unfold get?
  induction m.entries with
  | nil => simp only [lookup, Option.isSome_none, Bool.false_eq_true, List.map_nil, List.not_mem_nil]
  | cons first rest ih =>
    rw [lookup, List.map_cons, List.mem_cons]
    split
    · rename_i here
      exact ⟨fun _ => Or.inl here.symm, fun _ => rfl⟩
    · rename_i elsewhere
      rw [ih]
      exact ⟨Or.inr, fun either => either.resolve_left fun same => elsewhere same.symm⟩

theorem keys_nodup (m : SortedMap κ ν) : (m.entries.map Prod.fst).Nodup := by
  rw [List.Nodup, List.pairwise_map]
  exact m.sorted.imp fun below => below.ne

theorem length_eq_iff {μ : Type} {left : SortedMap κ ν} {right : SortedMap κ μ}
    (inside : ∀ key, (left.get? key).isSome → (right.get? key).isSome) :
    left.entries.length = right.entries.length ↔ ∀ key, (right.get? key).isSome → (left.get? key).isSome := by
  simp only [get?_isSome] at inside ⊢
  have sizeLeft : (left.entries.map Prod.fst).length = left.entries.length := List.length_map _
  have sizeRight : (right.entries.map Prod.fst).length = right.entries.length := List.length_map _
  rw [← sizeLeft, ← sizeRight]
  have part := List.subperm_of_subset left.keys_nodup inside
  constructor
  · intro same key present
    exact (part.perm_of_length_le (Nat.le_of_eq same.symm)).mem_iff.mpr present
  · intro whole
    exact Nat.le_antisymm part.length_le (List.subperm_of_subset right.keys_nodup whole).length_le

section Filling

variable {β : Type} (key : β → κ) (value : β → ν)

theorem get?_foldl_absent (m : SortedMap κ ν) {items : List β} {wanted : κ}
    (absent : ∀ item ∈ items, key item ≠ wanted) :
    (items.foldl (fun m item => m.insert (key item) (value item)) m).get? wanted = m.get? wanted := by
  induction items generalizing m with
  | nil => rfl
  | cons first rest ih =>
    rw [List.foldl_cons, ih _ fun item present => absent item (List.mem_cons_of_mem _ present), get?_insert,
      if_neg (absent first List.mem_cons_self).symm]

theorem get?_foldl_present (m : SortedMap κ ν) {items : List β} (distinct : (items.map key).Nodup) {item : β}
    (present : item ∈ items) :
    (items.foldl (fun m item => m.insert (key item) (value item)) m).get? (key item) = some (value item) := by
  induction items generalizing m with
  | nil => cases present
  | cons first rest ih =>
    obtain ⟨fresh, distinct⟩ := List.nodup_cons.mp distinct
    rw [List.foldl_cons]
    rcases List.mem_cons.mp present with rfl | later
    · rw [get?_foldl_absent key value _ fun other present same => fresh (List.mem_map.mpr ⟨other, present, same⟩),
        get?_insert, if_pos rfl]
    · exact ih _ distinct later

theorem mem_of_get?_foldl {items : List β} (distinct : (items.map key).Nodup) {wanted : κ} {found : ν}
    (stored : (items.foldl (fun m item => m.insert (key item) (value item)) empty).get? wanted = some found) :
    ∃ item ∈ items, key item = wanted ∧ value item = found := by
  by_cases there : ∃ item ∈ items, key item = wanted
  · obtain ⟨item, inside, rfl⟩ := there
    rw [get?_foldl_present key value empty distinct inside] at stored
    cases stored
    exact ⟨item, inside, rfl, rfl⟩
  · rw [get?_foldl_absent key value empty fun item inside same => there ⟨item, inside, same⟩] at stored
    cases stored

end Filling

end SortedMap

end ForgeDB
