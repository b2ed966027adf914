import ForgeDB.Storage.Compaction.Runs

/-!
The contents of the database: the value of a key is decided by the newest active table that holds it.
An exchange of tables for a newest one with their merge keeps the value of a key exactly if it does not
let another table decide, or the two agree.
-/

namespace ForgeDB.Storage.Compaction

open SSTable (Entry Sorted)
open Manifest (VersionSet Directory VersionError)

def live (e : Entry) : Option Bytes := if e.tombstone then none else some e.value

def Table.find (t : Table) (key : Bytes) : Option Entry := t.entries.find? fun e => e.key = key

/-- The entry for the key in the newest of the tables that hold it, with the ID of the table. The tables come by
increasing ID. -/
def newest (tables : List (UInt64 × Table)) (key : Bytes) : Option (UInt64 × Entry) :=
  (tables.filterMap fun t => (t.2.find key).map fun e => (t.1, e)).getLast?

def Store.contents (s : Store) : List (UInt64 × Table) :=
  s.vs.current.filterMap fun t => (s.files.get? t.2).map fun table => (t.1, table)

def Store.view (s : Store) (key : Bytes) : Option Bytes := (newest s.contents key).bind fun found => live found.2

def isInput (inputs : List UInt64) (t : UInt64 × Table) : Bool := inputs.contains t.1

/-- The newest input and the newest other table that hold the key agree on it, or it is the right one of the two
that decides afterwards: the other table if the input's tombstone is left out, the input otherwise. -/
def Undisturbed (inputs : List UInt64) (dropTombstones : Bool) (tables : List (UInt64 × Table)) (key : Bytes) : Prop :=
  match newest (tables.filter (isInput inputs)) key, newest (tables.filter fun t => !isInput inputs t) key with
  | some (input, old), some (other, e) =>
    live e = live old ∨ (old.tombstone && dropTombstones) = decide (input < other)
  | _, _ => True

instance (inputs : List UInt64) (dropTombstones : Bool) (tables : List (UInt64 × Table)) (key : Bytes) :
    Decidable (Undisturbed inputs dropTombstones tables key) := by
  unfold Undisturbed
  split <;> infer_instance

/-! ### The newest table that holds a key -/

def Held (tables : List (UInt64 × Table)) (id : UInt64) (e : Entry) : Prop :=
  ∃ table, (id, table) ∈ tables ∧ e ∈ table.entries

abbrev ByID (tables : List (UInt64 × Table)) : Prop := tables.Pairwise fun first second => first.1 < second.1

theorem Table.find_some {t : Table} {key : Bytes} {e : Entry} : t.find key = some e ↔ e ∈ t.entries ∧ e.key = key := by
  unfold find
  constructor
  · intro found
    have named := List.find?_some found
    exact ⟨List.mem_of_find?_eq_some found, of_decide_eq_true named⟩
  · rintro ⟨present, rfl⟩
    cases found : t.entries.find? fun other => decide (other.key = e.key) with
    | none => exact absurd (decide_eq_true rfl) (List.find?_eq_none.mp found e present)
    | some other =>
      have same := List.find?_some found
      rw [KWayMerge.eq_of_key_eq t.sorted (List.mem_of_find?_eq_some found) present (of_decide_eq_true same)]

theorem mem_holders {tables : List (UInt64 × Table)} {key : Bytes} {id : UInt64} {e : Entry} :
    (id, e) ∈ tables.filterMap (fun t => (t.2.find key).map fun e => (t.1, e)) ↔ Held tables id e ∧ e.key = key := by
  rw [List.mem_filterMap]
  constructor
  · rintro ⟨⟨number, table⟩, present, found⟩
    obtain ⟨entry, there, same⟩ := Option.map_eq_some_iff.mp found
    cases same
    obtain ⟨inside, named⟩ := Table.find_some.mp there
    exact ⟨⟨table, present, inside⟩, named⟩
  · rintro ⟨⟨table, present, inside⟩, named⟩
    exact ⟨(id, table), present, Option.map_eq_some_iff.mpr ⟨e, Table.find_some.mpr ⟨inside, named⟩, rfl⟩⟩

theorem holders_sorted {tables : List (UInt64 × Table)} (byID : ByID tables) (key : Bytes) :
    (tables.filterMap fun t => (t.2.find key).map fun e => (t.1, e)).Pairwise fun first second =>
    first.1 < second.1 := by
  refine List.Pairwise.filterMap _ ?_ byID
  intro first second below one found other foundOther
  obtain ⟨_, _, rfl⟩ := Option.map_eq_some_iff.mp found
  obtain ⟨_, _, rfl⟩ := Option.map_eq_some_iff.mp foundOther
  exact below

theorem le_getLast {list : List (UInt64 × Entry)} (sorted : list.Pairwise fun first second => first.1 < second.1)
    {last other : UInt64 × Entry} (isLast : list.getLast? = some last) (present : other ∈ list) : other.1 ≤ last.1 := by
  obtain ⟨before, rfl⟩ := List.getLast?_eq_some_iff.mp isLast
  rcases List.mem_append.mp present with earlier | here
  · exact le_of_lt ((List.pairwise_append.mp sorted).2.2 other earlier last List.mem_cons_self)
  · rw [List.mem_singleton.mp here]

section

variable {tables : List (UInt64 × Table)} {key : Bytes}

theorem newest_eq_some (byID : ByID tables) {id : UInt64} {e : Entry} :
    newest tables key = some (id, e) ↔
      Held tables id e ∧ e.key = key ∧ ∀ other rival, Held tables other rival → rival.key = key → other ≤ id := by
  have sorted := holders_sorted byID key
  have forward : ∀ {id e}, newest tables key = some (id, e) → Held tables id e ∧ e.key = key ∧
      ∀ other rival, Held tables other rival → rival.key = key → other ≤ id := by
    intro id e found
    obtain ⟨held, named⟩ := mem_holders.mp (List.mem_of_getLast? found)
    exact ⟨held, named, fun other rival holds same => le_getLast sorted found (mem_holders.mpr ⟨holds, same⟩)⟩
  refine ⟨forward, ?_⟩
  rintro ⟨held, named, greatest⟩
  cases found : newest tables key with
  | none =>
    have empty := List.getLast?_eq_none_iff.mp found
    have member := mem_holders.mpr ⟨held, named⟩
    rw [empty] at member
    cases member
  | some last =>
    obtain ⟨number, entry⟩ := last
    obtain ⟨holds, same, above⟩ := forward found
    have equal : number = id := le_antisymm (greatest number entry holds same) (above id e held named)
    subst equal
    have one : (number, entry) = (number, e) :=
      KWayMerge.eq_of_key_eq sorted (mem_holders.mpr ⟨holds, same⟩) (mem_holders.mpr ⟨held, named⟩) rfl
    rw [one]

theorem newest_eq_none : newest tables key = none ↔ ∀ id e, Held tables id e → e.key ≠ key := by
  unfold newest
  rw [List.getLast?_eq_none_iff, List.eq_nil_iff_forall_not_mem]
  constructor
  · exact fun none id e held same => none (id, e) (mem_holders.mpr ⟨held, same⟩)
  · rintro none ⟨id, e⟩ present
    obtain ⟨held, same⟩ := mem_holders.mp present
    exact none id e held same

theorem held_inputs {inputs : List UInt64} {id : UInt64} {e : Entry} :
    Held (tables.filter (isInput inputs)) id e ↔ Held tables id e ∧ id ∈ inputs := by
  simp only [Held, isInput, List.mem_filter, List.contains_iff_mem]
  constructor
  · exact fun ⟨table, ⟨present, inside⟩, here⟩ => ⟨⟨table, present, here⟩, inside⟩
  · exact fun ⟨⟨table, present, here⟩, inside⟩ => ⟨table, ⟨present, inside⟩, here⟩

theorem held_others {inputs : List UInt64} {id : UInt64} {e : Entry} :
    Held (tables.filter fun t => !isInput inputs t) id e ↔ Held tables id e ∧ id ∉ inputs := by
  simp only [Held, isInput, List.mem_filter, Bool.not_eq_true', Bool.eq_false_iff, ne_eq, List.contains_iff_mem]
  constructor
  · exact fun ⟨table, ⟨present, outside⟩, here⟩ => ⟨⟨table, present, here⟩, outside⟩
  · exact fun ⟨⟨table, present, here⟩, outside⟩ => ⟨table, ⟨present, outside⟩, here⟩

theorem newest_of_both (byID : ByID tables) {inputs : List UInt64} {id : UInt64} {e : Entry} (held : Held tables id e)
    (named : e.key = key)
    (input : ∀ other rival, Held (tables.filter (isInput inputs)) other rival → rival.key = key → other ≤ id)
    (outside : ∀ other rival, Held (tables.filter fun t => !isInput inputs t) other rival → rival.key = key →
      other ≤ id) : newest tables key = some (id, e) := by
  refine (newest_eq_some byID).mpr ⟨held, named, fun other rival holds same => ?_⟩
  by_cases inside : other ∈ inputs
  · exact input other rival (held_inputs.mpr ⟨holds, inside⟩) same
  · exact outside other rival (held_others.mpr ⟨holds, inside⟩) same

theorem newest_split (byID : ByID tables) (inputs : List UInt64) :
    newest tables key =
      match newest (tables.filter (isInput inputs)) key, newest (tables.filter fun t => !isInput inputs t) key with
      | some (input, old), some (other, e) => if input < other then some (other, e) else some (input, old)
      | some found, none => some found
      | none, other => other := by
  cases input : newest (tables.filter (isInput inputs)) key with
  | none =>
    have noInput := newest_eq_none.mp input
    cases other : newest (tables.filter fun t => !isInput inputs t) key with
    | none =>
      have noOther := newest_eq_none.mp other
      refine newest_eq_none.mpr fun id e held => ?_
      by_cases inside : id ∈ inputs
      · exact noInput id e (held_inputs.mpr ⟨held, inside⟩)
      · exact noOther id e (held_others.mpr ⟨held, inside⟩)
    | some found =>
      obtain ⟨held, named, greatest⟩ := (newest_eq_some (byID.filter _)).mp other
      exact newest_of_both byID (held_others.mp held).1 named
        (fun id rival holds same => absurd same (noInput id rival holds)) greatest
  | some first =>
    obtain ⟨heldFirst, namedFirst, greatestFirst⟩ := (newest_eq_some (byID.filter _)).mp input
    cases other : newest (tables.filter fun t => !isInput inputs t) key with
    | none =>
      have noOther := newest_eq_none.mp other
      exact newest_of_both byID (held_inputs.mp heldFirst).1 namedFirst greatestFirst
        fun id rival holds same => absurd same (noOther id rival holds)
    | some second =>
      obtain ⟨held, named, greatest⟩ := (newest_eq_some (byID.filter _)).mp other
      dsimp only
      split
      · rename_i newer
        exact newest_of_both byID (held_others.mp held).1 named
          (fun id rival holds same => le_of_lt (lt_of_le_of_lt (greatestFirst id rival holds same) newer)) greatest
      · rename_i older
        exact newest_of_both byID (held_inputs.mp heldFirst).1 namedFirst greatestFirst
          fun id rival holds same => le_trans (greatest id rival holds same) (le_of_not_gt older)

end

/-! ### What publication comes to -/

structure Exchanged (inputs : List UInt64) (merged : List Entry) (before after : List (UInt64 × Table)) : Prop where
  byID : ByID before
  byIDAfter : ByID after
  held : ∃ new, (∀ t ∈ before, t.1 < new) ∧ ∀ id e, Held after id e ↔
    Held (before.filter fun t => !isInput inputs t) id e ∨ id = new ∧ ∃ m ∈ merged, e = m.kept

/-- The entries are those of the newest inputs, tombstones left out where allowed. -/
def MergeOf (inputs : List UInt64) (dropTombstones : Bool) (tables : List (UInt64 × Table)) (merged : List Entry) :
    Prop :=
  ∀ e, e ∈ merged ↔ (e.tombstone && dropTombstones) = false ∧
    ∃ id, newest (tables.filter (isInput inputs)) e.key = some (id, e)

theorem live_kept (e : Entry) : live e.kept = live e := by
  unfold live Entry.kept
  cases e.tombstone <;> rfl

theorem kept_key (e : Entry) : e.kept.key = e.key := by
  unfold Entry.kept
  cases e.tombstone <;> rfl

namespace Exchanged

variable {inputs : List UInt64} {dropTombstones : Bool} {merged : List Entry} {before after : List (UInt64 × Table)}

section

variable (exchanged : Exchanged inputs merged before after)

include exchanged

theorem newest_absent {key : Bytes} (absent : ∀ m ∈ merged, m.key ≠ key) :
    newest after key = newest (before.filter fun t => !isInput inputs t) key := by
  obtain ⟨new, _, held⟩ := exchanged.held
  have same : ∀ id e, e.key = key → (Held after id e ↔ Held (before.filter fun t => !isInput inputs t) id e) := by
    intro id e named
    rw [held]
    refine or_iff_left ?_
    rintro ⟨_, m, present, rfl⟩
    exact absent m present ((kept_key m).symm.trans named)
  cases other : newest (before.filter fun t => !isInput inputs t) key with
  | none =>
    refine newest_eq_none.mpr fun id e holds named => ?_
    exact newest_eq_none.mp other id e ((same id e named).mp holds) named
  | some found =>
    obtain ⟨holds, named, greatest⟩ := (newest_eq_some (exchanged.byID.filter _)).mp other
    exact (newest_eq_some exchanged.byIDAfter).mpr ⟨(same _ _ named).mpr holds, named, fun id rival there equal =>
      greatest id rival ((same id rival equal).mp there) equal⟩

theorem newest_present {m : Entry} (present : m ∈ merged) : ∃ new, newest after m.key = some (new, m.kept) := by
  obtain ⟨new, below, held⟩ := exchanged.held
  refine ⟨new, (newest_eq_some exchanged.byIDAfter).mpr
    ⟨(held _ _).mpr (Or.inr ⟨rfl, m, present, rfl⟩), kept_key m, ?_⟩⟩
  intro number rival holds _
  rcases (held number rival).mp holds with ⟨table, there, _⟩ | ⟨rfl, _⟩
  · exact le_of_lt (below _ (List.mem_filter.mp there).1)
  · exact le_rfl

theorem newest_after (merge : MergeOf inputs dropTombstones before merged) (key : Bytes) :
    (newest after key).bind (fun found => live found.2) =
      match newest (before.filter (isInput inputs)) key with
      | some (_, old) =>
        if old.tombstone && dropTombstones then
          (newest (before.filter fun t => !isInput inputs t) key).bind fun found => live found.2
        else live old
      | none => (newest (before.filter fun t => !isInput inputs t) key).bind fun found => live found.2 := by
  cases input : newest (before.filter (isInput inputs)) key with
  | none =>
    dsimp only
    rw [exchanged.newest_absent]
    intro m present named
    obtain ⟨_, id, found⟩ := (merge m).mp present
    rw [named, input] at found
    cases found
  | some found =>
    obtain ⟨id, old⟩ := found
    dsimp only
    split
    · rename_i dropped
      rw [exchanged.newest_absent]
      intro m present same
      obtain ⟨stays, number, here⟩ := (merge m).mp present
      rw [same, input] at here
      cases here
      rw [dropped] at stays
      cases stays
    · rename_i stays
      obtain rfl := ((newest_eq_some (exchanged.byID.filter _)).mp input).2.1
      obtain ⟨new, decides⟩ := exchanged.newest_present ((merge old).mpr ⟨Bool.eq_false_iff.mpr stays, id, input⟩)
      rw [decides, Option.bind_some, live_kept]

theorem view_iff (merge : MergeOf inputs dropTombstones before merged) (key : Bytes) :
    (newest after key).bind (fun found => live found.2) = (newest before key).bind (fun found => live found.2) ↔
      Undisturbed inputs dropTombstones before key := by
  rw [exchanged.newest_after merge, newest_split exchanged.byID inputs]
  unfold Undisturbed
  cases newest (before.filter (isInput inputs)) key with
  | none => exact iff_of_true rfl trivial
  | some first =>
    obtain ⟨input, old⟩ := first
    cases newest (before.filter fun t => !isInput inputs t) key with
    | none =>
      refine iff_of_true ?_ trivial
      dsimp only
      split
      · rename_i dropped
        rw [Option.bind_some, live, if_pos (Bool.and_eq_true_iff.mp dropped).1]
        rfl
      · rfl
    | some second =>
      obtain ⟨other, e⟩ := second
      dsimp only
      by_cases newer : input < other <;> cases old.tombstone && dropTombstones <;>
        simp [newer, eq_comm]

end

end Exchanged

/-! ### The contents of the store -/

theorem mem_contents {s : Store} {id : UInt64} {table : Table} :
    (id, table) ∈ s.contents ↔ ∃ name, s.vs.tables.get? id = some name ∧ s.files.get? name = some table := by
  unfold Store.contents
  rw [List.mem_filterMap]
  constructor
  · rintro ⟨⟨number, name⟩, present, found⟩
    obtain ⟨held, there, same⟩ := Option.map_eq_some_iff.mp found
    cases same
    exact ⟨name, SortedMap.lookup_of_mem s.vs.tables.sorted present, there⟩
  · rintro ⟨name, active, there⟩
    exact ⟨(id, name), SortedMap.mem_of_lookup active, Option.map_eq_some_iff.mpr ⟨table, there, rfl⟩⟩

theorem contents_byID (s : Store) : ByID s.contents := by
  refine List.Pairwise.filterMap _ ?_ s.vs.tables.sorted
  intro first second below one found other foundOther
  obtain ⟨_, _, rfl⟩ := Option.map_eq_some_iff.mp found
  obtain ⟨_, _, rfl⟩ := Option.map_eq_some_iff.mp foundOther
  exact below

theorem contents_congr {s after : Store} (vs : after.vs = s.vs)
    (files : ∀ {id name}, s.vs.tables.get? id = some name → after.files.get? name = s.files.get? name) :
    after.contents = s.contents := by
  unfold Store.contents
  rw [vs]
  refine List.filterMap_congr fun t present => ?_
  rw [files (SortedMap.lookup_of_mem s.vs.tables.sorted present)]

namespace Accounted

variable {s after : Store} {born new : List Birth}

theorem contents_eq (accounted : Accounted s born) (later : Accounted after (born ++ new)) (vs : after.vs = s.vs) :
    after.contents = s.contents := by
  refine contents_congr vs fun {id name} active => ?_
  obtain ⟨b, present, number, _, table, held, there⟩ := accounted.holds active
  obtain ⟨other, inside, numberOther, _, tableOther, heldOther, thereOther⟩ := later.holds (vs.symm ▸ active)
  have same := later.eq_of_id inside (List.mem_append_left _ present) (numberOther.trans number.symm)
  rw [same, held] at heldOther
  cases heldOther
  rw [there, thereOther]

theorem mergeOf (accounted : Accounted s born) {c : Call} {merged : List Entry} (sorted : c.inputs.Pairwise (· < ·))
    (active : ∀ id ∈ c.inputs, ∃ name, s.vs.tables.get? id = some name) (from_ : c.Merged born merged) :
    MergeOf c.inputs c.dropTombstones s.contents merged := by
  obtain ⟨opened, listed, read, rfl⟩ := from_
  have holds : ∀ id e, KWayMerge.Holds (opened.map fun t => (t.1, t.2.entries)) id e ↔
      Held (s.contents.filter (isInput c.inputs)) id e := by
    intro id e
    rw [held_inputs]
    constructor
    · rintro ⟨entries, present, inside⟩
      obtain ⟨⟨number, table⟩, there, same⟩ := List.mem_map.mp present
      cases same
      have input : number ∈ c.inputs := listed ▸ List.mem_map.mpr ⟨_, there, rfl⟩
      obtain ⟨name, found⟩ := active number input
      obtain ⟨b, born, numbered, held⟩ := read _ there
      obtain ⟨other, bornOther, numberedOther, _, tableOther, heldOther, file⟩ := accounted.holds found
      rw [accounted.eq_of_id bornOther born (numberedOther.trans numbered.symm), held] at heldOther
      cases heldOther
      exact ⟨⟨table, mem_contents.mpr ⟨name, found, file⟩, inside⟩, input⟩
    · rintro ⟨⟨table, present, inside⟩, input⟩
      obtain ⟨name, found, file⟩ := mem_contents.mp present
      obtain ⟨⟨number, read_⟩, there, same⟩ := List.mem_map.mp (listed.symm ▸ input : id ∈ opened.map Prod.fst)
      cases same
      obtain ⟨b, born, numbered, held⟩ := read _ there
      obtain ⟨other, bornOther, numberedOther, _, tableOther, heldOther, fileOther⟩ := accounted.holds found
      rw [accounted.eq_of_id bornOther born (numberedOther.trans numbered.symm), held] at heldOther
      cases heldOther
      rw [file] at fileOther
      cases fileOther
      exact ⟨_, List.mem_map.mpr ⟨_, there, rfl⟩, inside⟩
  have distinct : ((opened.map fun t => (t.1, t.2.entries)).map Prod.fst).Nodup := by
    rw [List.map_map]
    exact listed ▸ sorted.imp ne_of_lt
  have sortedEach : ∀ source ∈ opened.map fun t => (t.1, t.2.entries),
      source.2.Pairwise fun first second => first.key < second.key := by
    intro source present
    obtain ⟨t, _, rfl⟩ := List.mem_map.mp present
    exact t.2.sorted
  intro e
  unfold mergeTables
  rw [(KWayMerge.merge_spec distinct sortedEach).2 e, Bool.not_eq_true']
  simp only [holds, newest_eq_some ((contents_byID s).filter _), true_and]

end Accounted

end ForgeDB.Storage.Compaction
