import Mathlib.Data.List.Induction
import ForgeDB.Storage.MemStore
import ForgeDB.Storage.MemTable.SkipList

/-!
The table over the skip list, with its running counts of live pairs and bytes. Whatever levels are
drawn, the table is a sorted map: its calls change the skip list and the counts as the store's map of
live pairs changes.
-/

namespace ForgeDB.Storage

open ForgeDB.Linked MemTable

inductive MemTableError where
  | emptyKey
  deriving DecidableEq, Repr

def MemTableError.text : MemTableError → String
  | emptyKey => "memtable: key must not be empty"

structure MemTable where
  list : SkipList
  liveCount : Int
  liveBytes : Int

namespace MemTable

def new : MemTable := ⟨newSkipList, 0, 0⟩

def put (m : MemTable) (key value : Bytes) (coins : List Bool) : Option (MemTable × Except MemTableError Unit) :=
  if key = [] then some (m, .error .emptyKey)
  else do
    let (list, found) ← m.list.upsert key value false coins
    if !found.existed || found.wasDeleted then
      some (⟨list, m.liveCount + 1, m.liveBytes + (key.length + value.length)⟩, .ok ())
    else some (⟨list, m.liveCount, m.liveBytes + (value.length - found.oldValueLen)⟩, .ok ())

def get (m : MemTable) (key : Bytes) : Option (Option Bytes) :=
  if key = [] then some none
  else do
    match ← m.list.search key with
    | none => some none
    | some node => if node.deleted then some none else some (some node.value)

def delete (m : MemTable) (key : Bytes) (coins : List Bool) : Option (MemTable × Except MemTableError Unit) :=
  if key = [] then some (m, .error .emptyKey)
  else do
    let (list, found) ← m.list.upsert key [] true coins
    if found.existed && !found.wasDeleted then
      some (⟨list, m.liveCount - 1, m.liveBytes - (key.length + found.oldValueLen)⟩, .ok ())
    else some ({ m with list := list }, .ok ())

def len (m : MemTable) : Int := m.liveCount

def bytes (m : MemTable) : Int := m.liveBytes

def all (m : MemTable) : Option (List (Bytes × Bytes)) := do
  let nodes ← m.list.forEach
  some ((nodes.filter fun n => !n.deleted).map fun n => (n.key, n.value))

def apply (m : MemTable) (mutation : Mutation) (coins : List Bool) : Option (MemTable × Except MemTableError Unit) :=
  match mutation with
  | .put key value => m.put key value coins
  | .delete key => m.delete key coins

def run (m : MemTable) : List (Mutation × List Bool) → Option MemTable
  | [] => some m
  | (mutation, coins) :: calls => do
    let (m, _) ← m.apply mutation coins
    m.run calls

end MemTable

def Mutation.effect (pairs : SortedMap Bytes Bytes) (mutation : Mutation) : SortedMap Bytes Bytes :=
  if mutation.key = [] then pairs else mutation.change pairs

namespace MemTable

def size (key value : Bytes) : Int := key.length + value.length

structure Holds (m : MemTable) (pairs : SortedMap Bytes Bytes) (order : List Nat) : Prop where
  ordered : m.list.Ordered order
  live : ∀ key value, pairs.get? key = some value ↔ (key, value, false) ∈ order.map m.list.entry
  count : m.liveCount = SortedMap.total (fun _ _ => 1) pairs.entries
  bytes : m.liveBytes = SortedMap.total size pairs.entries

theorem new_holds : new.Holds SortedMap.empty [] where
  ordered := SkipList.newSkipList_ordered
  live := fun _ _ => ⟨nofun, nofun⟩
  count := rfl
  bytes := rfl

section
variable {m : MemTable} {pairs : SortedMap Bytes Bytes} {order : List Nat}

section

variable (holds : m.Holds pairs order)

include holds

theorem Holds.found {key : Bytes} {found : Upserted}
    (spec : (∃ old wasDeleted, (key, old, wasDeleted) ∈ order.map m.list.entry ∧
      found = ⟨true, wasDeleted, old.length⟩) ∨ (∀ x ∈ order, m.list.key x ≠ key) ∧ found = ⟨false, false, 0⟩) :
    (∃ old, pairs.get? key = some old ∧ found = ⟨true, false, old.length⟩) ∨
      pairs.get? key = none ∧ (found.existed = false ∨ found.wasDeleted = true) := by
  rcases spec with ⟨old, wasDeleted, present, rfl⟩ | ⟨absent, rfl⟩
  · cases wasDeleted with
    | false => exact Or.inl ⟨old, (holds.live key old).mpr present, rfl⟩
    | true =>
      refine Or.inr ⟨Option.eq_none_iff_forall_ne_some.mpr fun value live => ?_, Or.inr rfl⟩
      have same := holds.ordered.entry_unique present ((holds.live key value).mp live) rfl
      simp only [Prod.mk.injEq, Bool.true_eq_false, and_false] at same
  · refine Or.inr ⟨Option.eq_none_iff_forall_ne_some.mpr fun value live => ?_, Or.inl rfl⟩
    obtain ⟨x, inside, entry⟩ := List.mem_map.mp ((holds.live key value).mp live)
    exact absent x inside (congrArg Prod.fst entry)

theorem Holds.written {list : SkipList} {later : List Nat} {key value : Bytes} {deleted : Bool}
    (entries : ∀ e, e ∈ later.map list.entry ↔ e = (key, value, deleted) ∨ e.1 ≠ key ∧ e ∈ order.map m.list.entry)
    (other : Bytes) (its : Bytes) : (other, its, false) ∈ later.map list.entry ↔
      (if other = key then (if deleted then none else some value) else pairs.get? other) = some its := by
  rw [entries]
  by_cases same : other = key
  · subst same
    cases deleted <;> simp [eq_comm]
  · simp only [Prod.mk.injEq, same, false_and, false_or, ne_eq, not_false_eq_true, true_and, if_false]
    exact (holds.live other its).symm

theorem Holds.put {key : Bytes} (named : key ≠ []) (value : Bytes) (coins : List Bool) :
    ∃ after later, m.put key value coins = some (after, .ok ()) ∧ after.Holds (pairs.insert key value) later := by
  obtain ⟨list, found, later, upserted, ordered, entries, spec⟩ := holds.ordered.upsert_spec key value false coins
  have live : ∀ other its, (pairs.insert key value).get? other = some its ↔
      (other, its, false) ∈ later.map list.entry := by
    intro other its
    rw [holds.written entries, SortedMap.get?_insert]
    by_cases same : other = key <;> simp [same]
  rcases holds.found spec with ⟨old, had, rfl⟩ | ⟨had, fresh⟩
  · refine ⟨⟨list, m.liveCount, m.liveBytes + (value.length - old.length)⟩, later, ?_, ordered, live, ?_, ?_⟩
    · simp [MemTable.put, if_neg named, upserted]
    · rw [SortedMap.total_insert, had, holds.count, Option.elim_some]
      omega
    · show m.liveBytes + (value.length - old.length) = _
      rw [SortedMap.total_insert, had, holds.bytes, Option.elim_some, size, size]
      omega
  · refine ⟨⟨list, m.liveCount + 1, m.liveBytes + (key.length + value.length)⟩, later, ?_, ordered, live, ?_, ?_⟩
    · rcases fresh with new | tombstone
      · simp [MemTable.put, if_neg named, upserted, new]
      · simp [MemTable.put, if_neg named, upserted, tombstone]
    · rw [SortedMap.total_insert, had, holds.count, Option.elim_none, Int.sub_zero]
    · rw [SortedMap.total_insert, had, holds.bytes, Option.elim_none, Int.sub_zero, size]

theorem Holds.delete {key : Bytes} (named : key ≠ []) (coins : List Bool) :
    ∃ after later, m.delete key coins = some (after, .ok ()) ∧ after.Holds (pairs.erase key) later := by
  obtain ⟨list, found, later, upserted, ordered, entries, spec⟩ := holds.ordered.upsert_spec key [] true coins
  have live : ∀ other its, (pairs.erase key).get? other = some its ↔ (other, its, false) ∈ later.map list.entry := by
    intro other its
    rw [holds.written entries, SortedMap.get?_erase]
    by_cases same : other = key <;> simp [same]
  rcases holds.found spec with ⟨old, had, rfl⟩ | ⟨had, fresh⟩
  · refine ⟨⟨list, m.liveCount - 1, m.liveBytes - (key.length + old.length)⟩, later, ?_, ordered, live, ?_, ?_⟩
    · simp [MemTable.delete, if_neg named, upserted]
    · rw [SortedMap.total_erase, had, holds.count, Option.elim_some]
    · rw [SortedMap.total_erase, had, holds.bytes, Option.elim_some, size]
  · refine ⟨{ m with list := list }, later, ?_, ordered, live, ?_, ?_⟩
    · rcases fresh with new | tombstone
      · simp [MemTable.delete, if_neg named, upserted, new]
      · simp [MemTable.delete, if_neg named, upserted, tombstone]
    · rw [SortedMap.total_erase, had, holds.count, Option.elim_none, Int.sub_zero]
    · rw [SortedMap.total_erase, had, holds.bytes, Option.elim_none, Int.sub_zero]

theorem Holds.apply (mutation : Mutation) (coins : List Bool) :
    ∃ after outcome later, m.apply mutation coins = some (after, outcome) ∧
    after.Holds (mutation.effect pairs) later := by
  by_cases empty : mutation.key = []
  · refine ⟨m, .error .emptyKey, order, ?_, ?_⟩
    · cases mutation <;> exact if_pos empty
    · rwa [Mutation.effect, if_pos empty]
  · rw [Mutation.effect, if_neg empty]
    cases mutation with
    | put key value =>
      obtain ⟨after, later, done, holding⟩ := holds.put empty value coins
      exact ⟨after, _, later, done, holding⟩
    | delete key =>
      obtain ⟨after, later, done, holding⟩ := holds.delete empty coins
      exact ⟨after, _, later, done, holding⟩

theorem Holds.run (calls : List (Mutation × List Bool)) : ∃ after later, m.run calls = some after ∧
      after.Holds ((calls.map Prod.fst).foldl Mutation.effect pairs) later := by
  induction calls generalizing m pairs order with
  | nil => exact ⟨m, order, rfl, holds⟩
  | cons call calls ih =>
    obtain ⟨next, outcome, later, done, holding⟩ := holds.apply call.1 call.2
    obtain ⟨after, last, rest, result⟩ := ih holding
    refine ⟨after, last, ?_, result⟩
    simp only [MemTable.run, done, Option.bind_eq_bind, Option.bind_some]
    exact rest

theorem Holds.get {key : Bytes} (named : key ≠ []) : m.get key = some (pairs.get? key) := by
  rcases holds.ordered.search_spec key with ⟨x, inside, n, here, rfl, found⟩ | ⟨absent, missing⟩
  · have entry := List.mem_map.mpr ⟨x, inside, SkipList.entry_of_node here⟩
    simp only [MemTable.get, if_neg named, found, Option.bind_eq_bind, Option.bind_some]
    cases mark : n.deleted with
    | false =>
      rw [mark] at entry
      rw [(holds.live n.key n.value).mpr entry]
      rfl
    | true =>
      rcases holds.found (Or.inl ⟨n.value, n.deleted, entry, rfl⟩) with ⟨old, -, same⟩ | ⟨gone, -⟩
      · simp [mark] at same
      · rw [gone]
        rfl
  · rcases holds.found (Or.inr ⟨absent, rfl⟩) with ⟨old, -, same⟩ | ⟨gone, -⟩
    · cases same
    · simp only [MemTable.get, if_neg named, missing, gone, Option.bind_eq_bind, Option.bind_some]

theorem Holds.all : m.all = some pairs.entries := by
  obtain ⟨nodes, walked, same⟩ := holds.ordered.forEach_eq
  have listed : ((nodes.filter fun n => !n.deleted).map fun n => (n.key, n.value)) =
      ((order.map m.list.entry).filter fun e => !e.2.2).map fun e => (e.1, e.2.1) := by
    rw [← same, List.filter_map, List.map_map]
    rfl
  simp only [MemTable.all, walked, Option.bind_eq_bind, Option.bind_some, Option.some.injEq, listed]
  apply pairs.eq_entries
  · have keys : (order.map m.list.entry).Pairwise fun first second => first.1 < second.1 :=
      List.pairwise_map.mpr holds.ordered.sorted
    exact List.pairwise_map.mpr (keys.filter _)
  · intro key value
    rw [holds.live]
    simp

end

end

def lastValue (key : Bytes) (mutations : List Mutation) : Option Bytes :=
  match mutations.reverse.find? fun mutation => mutation.key = key with
  | some (.put _ value) => some value
  | _ => none

theorem get?_effect (pairs : SortedMap Bytes Bytes) (mutation : Mutation) {key : Bytes} (named : key ≠ []) :
    (mutation.effect pairs).get? key = if mutation.key = key then
      (match mutation with
        | .put _ value => some value
        | .delete _ => none) else pairs.get? key := by
  unfold Mutation.effect
  by_cases empty : mutation.key = []
  · rw [if_pos empty, if_neg (empty ▸ Ne.symm named)]
  · rw [if_neg empty]
    cases mutation <;> simp [Mutation.change, Mutation.key, eq_comm]

theorem get?_effects (mutations : List Mutation) {key : Bytes} (named : key ≠ []) :
    (mutations.foldl Mutation.effect SortedMap.empty).get? key = lastValue key mutations := by
  induction mutations using List.reverseRecOn with
  | nil => rfl
  | append_singleton mutations mutation ih =>
    rw [List.foldl_append, List.foldl_cons, List.foldl_nil, get?_effect _ _ named, lastValue, List.reverse_append,
      List.reverse_singleton, List.singleton_append, List.find?_cons]
    by_cases here : mutation.key = key
    · rw [if_pos here, decide_eq_true here]
      cases mutation <;> rfl
    · rw [if_neg here, decide_eq_false here, ih]
      rfl

theorem get?_effects_empty (mutations : List Mutation) :
    (mutations.foldl Mutation.effect SortedMap.empty).get? [] = none := by
  induction mutations using List.reverseRecOn with
  | nil => rfl
  | append_singleton mutations mutation ih =>
    rw [List.foldl_append, List.foldl_cons, List.foldl_nil, Mutation.effect]
    by_cases empty : mutation.key = []
    · rw [if_pos empty, ih]
    · rw [if_neg empty]
      have other : ([] : Bytes) ≠ mutation.key := Ne.symm empty
      cases mutation with
      | put key value => exact (SortedMap.get?_insert ..).trans ((if_neg other).trans ih)
      | delete key => exact (SortedMap.get?_erase ..).trans ((if_neg other).trans ih)

theorem run_refines (calls : List (Mutation × List Bool)) :
    ∃ m, new.run calls = some m ∧
      (∃ chain : Nat → List Nat,
        (∀ i < maxLevel, Path (m.list.next i) header (chain i) ∧
          (chain i).Pairwise fun first second => m.list.key first < m.list.key second) ∧
        ∀ i, (chain (i + 1)).Sublist (chain i)) ∧
      (∀ key, m.get key = some (if key = [] then none else lastValue key (calls.map Prod.fst))) ∧
      ∃ pairs, m.all = some pairs ∧ (pairs.Pairwise fun first second => first.1 < second.1) ∧
        (∀ key value, (key, value) ∈ pairs ↔ key ≠ [] ∧ lastValue key (calls.map Prod.fst) = some value) ∧
        m.len = pairs.length ∧ m.bytes = (pairs.map fun pair => (pair.1.length + pair.2.length : Int)).sum := by
  obtain ⟨m, order, done, holds⟩ := new_holds.run calls
  have lives : ∀ {key}, key ≠ [] → ((calls.map Prod.fst).foldl Mutation.effect SortedMap.empty).get? key =
      lastValue key (calls.map Prod.fst) := fun named => get?_effects _ named
  have unnamed := get?_effects_empty (calls.map Prod.fst)
  generalize (calls.map Prod.fst).foldl Mutation.effect SortedMap.empty = pairs at holds lives unnamed
  refine ⟨m, done, ⟨fun i => order.filter fun x => i < m.list.height x, fun i inside => ⟨holds.ordered.chains i inside,
    holds.ordered.sorted.filter _⟩, fun i => ?_⟩, fun key => ?_, pairs.entries, holds.all, pairs.sorted,
    fun key value => ?_, ?_, holds.bytes⟩
  · refine List.monotone_filter_right order fun x tall => ?_
    have above : i + 1 < m.list.height x := of_decide_eq_true tall
    exact decide_eq_true (by omega)
  · by_cases empty : key = []
    · rw [if_pos empty, MemTable.get, if_pos empty]
    · rw [if_neg empty, holds.get empty, lives empty]
  · rw [pairs.mem_entries]
    by_cases empty : key = []
    · rw [empty, unnamed]
      simp
    · rw [lives empty]
      simp [empty]
  · rw [MemTable.len, holds.count]
    simp [SortedMap.total]

end MemTable

end ForgeDB.Storage
