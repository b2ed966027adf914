import ForgeDB.Storage.Compaction.Compact

/-!
The merge as the source runs it: over iterators, which load one block after another and may fail, and through
any heap that gives out a smallest key. As long as no iterator fails, it ends with the merge of what the
iterators hand out.
-/

namespace ForgeDB.Storage.Compaction.Merging

open SSTable (Entry Iterator Reader Sorted TableError)
open KWayMerge (Heap Item Merger better)

structure MergeError where
  tableID : UInt64
  cause : TableError
  deriving DecidableEq, Repr

def MergeError.text (error : MergeError) : String :=
  let id := error.tableID
  let why := error.cause.text
  s!"read table {id}: {why}"

structure Merge (H : Heap Entry.key UInt64) where
  iters : SortedMap UInt64 Iterator
  heap : H.Carrier

variable {H : Heap Entry.key UInt64}

namespace Merge

/-- Move one iterator on and push what it hands out; nothing if there is no such iterator or an access lies outside. -/
def advance (m : Merge H) (id : UInt64) : Option (Except MergeError (Merge H)) := do
  let it ← m.iters.get? id
  let (it, more) ← it.next
  if more then
    let e ← it.entry
    pure (.ok ⟨m.iters.insert id it, H.push m.heap ⟨id, e⟩⟩)
  else
    match it.err with
    | some error => pure (.error ⟨id, error⟩)
    | none => pure (.ok ⟨m.iters.insert id it, m.heap⟩)

def advanceAll : List UInt64 → Merge H → Option (Except MergeError (Merge H))
  | [], m => some (.ok m)
  | id :: ids, m =>
    match m.advance id with
    | none => none
    | some (.error error) => some (.error error)
    | some (.ok m) => advanceAll ids m

/-- The inner loop: pop everything with the key, keep the item of the largest ID and refill the heap meanwhile. -/
def collect (key : Bytes) : Nat → Merge H → Option (Item UInt64 Entry) →
    Option (Except MergeError (Merge H × Option (Item UInt64 Entry)))
  | 0, _, _ => none
  | fuel + 1, m, best =>
    match H.pop m.heap with
    | none => some (.ok (m, best))
    | some (item, rest) =>
      if item.entry.key = key then
        match advance { m with heap := rest } item.source with
        | none => none
        | some (.error error) => some (.error error)
        | some (.ok m) => collect key fuel m (some (better best item))
      else some (.ok (m, best))

def loop (dropTombstones : Bool) (limit : Nat) : Nat → Merge H → Option (Except MergeError (List Entry))
  | 0, _ => none
  | fuel + 1, m =>
    match H.pop m.heap with
    | none => some (.ok [])
    | some (front, _) =>
      match m.collect front.entry.key limit none with
      | none => none
      | some (.error error) => some (.error error)
      | some (.ok (m, none)) => loop dropTombstones limit fuel m
      | some (.ok (m, some best)) =>
        (loop dropTombstones limit fuel m).map fun result => result.map fun out =>
          if best.entry.tombstone && dropTombstones then out else best.entry :: out

end Merge

def mergeTables (H : Heap Entry.key UInt64) (fuel : Nat) (readers : List (UInt64 × Reader)) (dropTombstones : Bool) :
    Option (Except MergeError (List Entry)) :=
  let iters := readers.foldl (fun iters t => iters.insert t.1 t.2.newIterator) SortedMap.empty
  match Merge.advanceAll (readers.map Prod.fst) (⟨iters, H.empty⟩ : Merge H) with
  | none => none
  | some (.error error) => some (.error error)
  | some (.ok m) => m.loop dropTombstones fuel fuel

/-! ### What an iterator hands out -/

/-- The iterator hands out exactly these entries, and then says that there are no more. -/
def Streams : Iterator → List Entry → Prop
  | it, [] => ∃ last, it.next = some (last, false) ∧ last.err = none ∧ last.next = some (last, false)
  | it, e :: rest => ∃ later, it.next = some (later, true) ∧ later.entry = some e ∧ Streams later rest

def Yields (r : Reader) (entries : List Entry) : Prop :=
  ∃ fuel last, r.newIterator.walk fuel = some (entries, last) ∧ last.err = none

theorem advance_end {fuel : Nat} {it last : Iterator} (ended : it.advance fuel = some (last, false))
    (clean : last.err = none) : last.entries.length ≤ last.served ∧ last.r.index[last.nextBlock]? = none := by
  induction fuel generalizing it with
  | zero => cases ended
  | succ fuel ih =>
    unfold Iterator.advance at ended
    split at ended
    · cases ended
    · rename_i used
      split at ended
      · rename_i none
        cases ended
        exact ⟨Nat.le_of_not_lt used, none⟩
      · split at ended
        · cases ended
        · cases ended
          cases clean
        · exact ih ended

theorem next_end {it last : Iterator} (ended : it.next = some (last, false)) (clean : last.err = none) :
    last.next = some (last, false) := by
  have reached : last.entries.length ≤ last.served ∧ last.r.index[last.nextBlock]? = none := by
    unfold Iterator.next at ended
    split at ended
    · rename_i failed
      cases ended
      rw [clean] at failed
      cases failed
    · exact advance_end ended clean
  simp only [Iterator.next, clean, Option.isSome_none, Bool.false_eq_true, if_false, Iterator.advance,
    if_neg (Nat.not_lt.mpr reached.1), reached.2]

theorem streams_of_walk {fuel : Nat} {it last : Iterator} {entries : List Entry}
    (walked : it.walk fuel = some (entries, last)) (clean : last.err = none) : Streams it entries := by
  induction fuel generalizing it entries with
  | zero => cases walked
  | succ fuel ih =>
    simp only [Iterator.walk, Option.bind_eq_bind, Option.bind_eq_some_iff, Prod.exists] at walked
    obtain ⟨later, more, next, walked⟩ := walked
    cases more with
    | true =>
      simp only [if_true, Option.bind_eq_some_iff, Prod.exists, Option.pure_def, Option.some.injEq,
        Prod.mk.injEq] at walked
      obtain ⟨e, handed, rest, final, walked, rfl, rfl⟩ := walked
      exact ⟨later, next, handed, ih walked⟩
    | false =>
      simp only [Bool.false_eq_true, if_false, Option.pure_def, Option.some.injEq, Prod.mk.injEq] at walked
      obtain ⟨rfl, rfl⟩ := walked
      exact ⟨later, next, clean, next_end next clean⟩

/-! ### The merge of lists behind it -/

structure Follows (m : Merge H) (l : Merger H) : Prop where
  heap : m.heap = l.heap
  iters : ∀ {id list}, l.iters.get? id = some list → ∃ it, m.iters.get? id = some it ∧ Streams it list
  known : ∀ item ∈ l.items, (l.iters.get? item.source).isSome = true

theorem Follows.advance {m : Merge H} {l : Merger H} (follows : Follows m l) {id : UInt64} {list : List Entry}
    (found : l.iters.get? id = some list) :
    ∃ after, m.advance id = some (.ok after) ∧ Follows after (l.advance id) := by
  obtain ⟨it, here, streams⟩ := follows.iters found
  cases list with
  | nil =>
    obtain ⟨last, next, clean, stays⟩ := streams
    have same : l.advance id = l := by simp only [Merger.advance, found]
    refine ⟨⟨m.iters.insert id last, m.heap⟩, ?_, ?_⟩
    · simp only [Merge.advance, here, Option.bind_eq_bind, Option.bind_some, next, Bool.false_eq_true, if_false, clean,
        Option.pure_def]
    · rw [same]
      refine ⟨follows.heap, fun {other rest} stored => ?_, follows.known⟩
      rw [SortedMap.get?_insert]
      split
      · rename_i again
        rw [again, found] at stored
        cases stored
        exact ⟨last, rfl, last, stays, clean, stays⟩
      · exact follows.iters stored
  | cons e rest =>
    obtain ⟨later, next, handed, streams⟩ := streams
    have moved : l.advance id = ⟨l.iters.insert id rest, H.push l.heap ⟨id, e⟩⟩ := by
      simp only [Merger.advance, found]
    refine ⟨⟨m.iters.insert id later, H.push m.heap ⟨id, e⟩⟩, ?_, ?_⟩
    · simp only [Merge.advance, here, Option.bind_eq_bind, Option.bind_some, next, if_true, handed, Option.pure_def]
    · rw [moved]
      refine ⟨by rw [follows.heap], fun {other left} stored => ?_, fun item present => ?_⟩
      · rw [SortedMap.get?_insert] at stored ⊢
        split
        · rename_i again
          rw [if_pos again] at stored
          cases stored
          exact ⟨later, rfl, streams⟩
        · rename_i elsewhere
          rw [if_neg elsewhere] at stored
          exact follows.iters stored
      · dsimp only
        rw [SortedMap.get?_insert]
        split
        · rfl
        · rename_i elsewhere
          rcases List.mem_cons.mp ((H.items_push l.heap ⟨id, e⟩).mem_iff.mp present) with rfl | old
          · exact absurd rfl elsewhere
          · exact follows.known item old

theorem Follows.advanceAll {ids : List UInt64} {m : Merge H} {l : Merger H} (follows : Follows m l)
    (known : ∀ id ∈ ids, (l.iters.get? id).isSome = true) :
    ∃ after, Merge.advanceAll ids m = some (.ok after) ∧ Follows after (ids.foldl Merger.advance l) := by
  induction ids generalizing m l with
  | nil => exact ⟨m, rfl, follows⟩
  | cons id ids ih =>
    obtain ⟨list, found⟩ := Option.isSome_iff_exists.mp (known id List.mem_cons_self)
    obtain ⟨next, advanced, behind⟩ := follows.advance found
    have still : ∀ other ∈ ids, ((l.advance id).iters.get? other).isSome = true := by
      intro other present
      have before := known other (List.mem_cons_of_mem _ present)
      rcases l.advance_cases id with ⟨_, _, _, iters, _⟩ | ⟨_, same⟩
      · rw [iters, SortedMap.get?_insert]
        split
        · rfl
        · exact before
      · rw [same]
        exact before
    obtain ⟨after, done, end_⟩ := ih behind still
    exact ⟨after, by simp only [Merge.advanceAll, advanced, done], end_⟩

theorem Follows.pop {m : Merge H} {l : Merger H} (follows : Follows m l) {item : Item UInt64 Entry} {rest : H.Carrier}
    (popped : H.pop l.heap = some (item, rest)) :
    Follows { m with heap := rest } { l with heap := rest } ∧ (l.iters.get? item.source).isSome = true := by
  have perm := (H.items_of_some popped).perm
  refine ⟨⟨rfl, follows.iters, fun other present => follows.known other ?_⟩, follows.known item ?_⟩
  · exact perm.mem_iff.mpr (List.mem_cons_of_mem _ present)
  · exact perm.mem_iff.mpr List.mem_cons_self

theorem Follows.collect {key : Bytes} {fuel : Nat} {m : Merge H} {l after : Merger H}
    {before best : Option (Item UInt64 Entry)} (follows : Follows m l)
    (done : l.round key fuel before = some (after, best)) :
    ∃ next, m.collect key fuel before = some (.ok (next, best)) ∧ Follows next after := by
  induction fuel generalizing m l before with
  | zero => cases done
  | succ fuel ih =>
    unfold Merger.round at done
    unfold Merge.collect
    rw [follows.heap]
    cases popped : H.pop l.heap with
    | none =>
      rw [popped] at done
      cases done
      exact ⟨m, rfl, follows⟩
    | some front =>
      obtain ⟨item, rest⟩ := front
      rw [popped] at done
      dsimp only at done ⊢
      split at done
      · rename_i here
        obtain ⟨behind, known⟩ := follows.pop popped
        obtain ⟨list, found⟩ := Option.isSome_iff_exists.mp known
        obtain ⟨next, advanced, along⟩ := behind.advance found
        rw [if_pos here, advanced]
        exact ih along done
      · rename_i elsewhere
        cases done
        exact ⟨m, if_neg elsewhere, follows⟩

theorem Follows.loop {dropTombstones : Bool} {limit fuel : Nat} {m : Merge H} {l : Merger H} {out : List Entry}
    (follows : Follows m l) (done : l.loop (fun e => !(e.tombstone && dropTombstones)) limit fuel = some out) :
    m.loop dropTombstones limit fuel = some (.ok out) := by
  induction fuel generalizing m l out with
  | zero => cases done
  | succ fuel ih =>
    unfold Merger.loop at done
    unfold Merge.loop
    rw [follows.heap]
    cases popped : H.pop l.heap with
    | none =>
      rw [popped] at done
      cases done
      rfl
    | some front =>
      rw [popped] at done
      dsimp only at done ⊢
      split at done
      · cases done
      · rename_i after round
        obtain ⟨next, collected, along⟩ := follows.collect round
        simp only [collected]
        exact ih along done
      · rename_i after best round
        obtain ⟨next, collected, along⟩ := follows.collect round
        obtain ⟨rest, looped, rfl⟩ := Option.map_eq_some_iff.mp done
        simp only [collected, ih along looped, Option.map_some, Except.map]
        cases best.entry.tombstone && dropTombstones <;> rfl

theorem mergeTables_of_mergeWith {readers : List (UInt64 × Reader)} {entries : UInt64 → List Entry}
    {dropTombstones : Bool} {fuel : Nat} {out : List Entry} (distinct : (readers.map Prod.fst).Nodup)
    (yields : ∀ t ∈ readers, Yields t.2 (entries t.1))
    (done : KWayMerge.mergeWith H (fun e => !(e.tombstone && dropTombstones)) fuel
      (readers.map fun t => (t.1, entries t.1)) = some out) :
    mergeTables H fuel readers dropTombstones = some (.ok out) := by
  have same : (readers.map fun t => (t.1, entries t.1)).map Prod.fst = readers.map Prod.fst := by
    rw [List.map_map]
    rfl
  have opened : Follows
      (⟨readers.foldl (fun iters t => iters.insert t.1 t.2.newIterator) SortedMap.empty, H.empty⟩ : Merge H)
      ⟨(readers.map fun t => (t.1, entries t.1)).foldl (fun iters source => iters.insert source.1 source.2)
        SortedMap.empty, H.empty⟩ := by
    refine ⟨rfl, fun {id list} stored => ?_, fun item present => ?_⟩
    · obtain ⟨source, inside, rfl, rfl⟩ := SortedMap.mem_of_get?_foldl Prod.fst Prod.snd (same ▸ distinct) stored
      obtain ⟨t, there, rfl⟩ := List.mem_map.mp inside
      obtain ⟨fuel, last, walked, clean⟩ := yields t there
      exact ⟨t.2.newIterator, SortedMap.get?_foldl_present Prod.fst (fun t => t.2.newIterator) SortedMap.empty distinct
        there, streams_of_walk walked clean⟩
    · rw [show Merger.items _ = H.items H.empty from rfl, H.items_empty] at present
      cases present
  have known : ∀ id ∈ readers.map Prod.fst, (((readers.map fun t => (t.1, entries t.1)).foldl
      (fun iters source => iters.insert source.1 source.2) SortedMap.empty).get? id).isSome = true := by
    intro id present
    obtain ⟨source, inside, rfl⟩ := List.mem_map.mp (same ▸ present)
    rw [SortedMap.get?_foldl_present Prod.fst Prod.snd SortedMap.empty (same ▸ distinct) inside]
    rfl
  obtain ⟨m, advanced, follows⟩ := opened.advanceAll known
  rw [← same] at follows
  simp only [mergeTables, advanced]
  exact follows.loop done

theorem sources_sorted {readers : List (UInt64 × Reader)} {entries : UInt64 → List Entry}
    (distinct : (readers.map Prod.fst).Nodup) (sorted : ∀ t ∈ readers, Sorted (entries t.1)) :
    ((readers.map fun t => (t.1, entries t.1)).map Prod.fst).Nodup ∧
      ∀ source ∈ readers.map fun t => (t.1, entries t.1),
        source.2.Pairwise fun first second => first.key < second.key := by
  refine ⟨?_, fun source present => ?_⟩
  · rw [List.map_map]
    exact distinct
  · obtain ⟨t, there, rfl⟩ := List.mem_map.mp present
    exact sorted t there

theorem mergeTables_ends (H : Heap Entry.key UInt64) {readers : List (UInt64 × Reader)} {entries : UInt64 → List Entry}
    (dropTombstones : Bool) (distinct : (readers.map Prod.fst).Nodup) (yields : ∀ t ∈ readers, Yields t.2 (entries t.1))
    (sorted : ∀ t ∈ readers, Sorted (entries t.1)) :
    ∃ bound, ∀ fuel, bound ≤ fuel → mergeTables H fuel readers dropTombstones =
      some (.ok (KWayMerge.merge Entry.key (fun e => !(e.tombstone && dropTombstones))
        (readers.map fun t => (t.1, entries t.1)))) := by
  obtain ⟨distinctSources, sortedSources⟩ := sources_sorted distinct sorted
  exact ⟨_, fun fuel enough => mergeTables_of_mergeWith distinct yields
    (KWayMerge.mergeWith_eq_merge H _ distinctSources sortedSources enough)⟩

theorem mergeTables_eq (H : Heap Entry.key UInt64) {ids : List UInt64} {reader : UInt64 → Reader}
    {contents : UInt64 → Table} (dropTombstones : Bool) (distinct : ids.Nodup)
    (yields : ∀ id ∈ ids, Yields (reader id) (contents id).entries) :
    ∃ bound, ∀ fuel, bound ≤ fuel → mergeTables H fuel (ids.map fun id => (id, reader id)) dropTombstones =
      some (.ok (Compaction.mergeTables (ids.map fun id => (id, contents id)) dropTombstones)) := by
  have firsts : (ids.map fun id => (id, reader id)).map Prod.fst = ids := by
    rw [List.map_map]
    exact List.map_id ids
  have lists : ((ids.map fun id => (id, contents id)).map fun t => (t.1, t.2.entries)) =
      (ids.map fun id => (id, reader id)).map fun t => (t.1, (contents t.1).entries) := by
    rw [List.map_map, List.map_map]
    rfl
  rw [Compaction.mergeTables, lists]
  refine @mergeTables_ends H _ (fun id => (contents id).entries) dropTombstones (firsts.symm ▸ distinct)
    (fun t present => ?_) fun t _ => (contents t.1).sorted
  obtain ⟨id, there, rfl⟩ := List.mem_map.mp present
  exact yields id there

/-- Newest wins, through any heap: when every table's iterator yields entries in strictly increasing key order without
an error, `mergeTables` ends with the entries, in strictly increasing key order, that no table of a larger ID has a key
of, save for tombstones if they are to be dropped. -/
theorem mergeTables_newest_wins (H : Heap Entry.key UInt64) (readers : List (UInt64 × Reader))
    (entries : UInt64 → List Entry) (dropTombstones : Bool) (distinct : (readers.map Prod.fst).Nodup)
    (yields : ∀ t ∈ readers, Yields t.2 (entries t.1)) (sorted : ∀ t ∈ readers, Sorted (entries t.1)) :
    ∃ out bound, (∀ fuel, bound ≤ fuel → mergeTables H fuel readers dropTombstones = some (.ok out)) ∧ Sorted out ∧
      ∀ e, e ∈ out ↔ ¬(e.tombstone = true ∧ dropTombstones = true) ∧ ∃ t ∈ readers, e ∈ entries t.1 ∧
        ∀ other ∈ readers, ∀ rival ∈ entries other.1, rival.key = e.key → other.1 ≤ t.1 := by
  obtain ⟨distinctSources, sortedSources⟩ := sources_sorted distinct sorted
  have holds : ∀ id e, KWayMerge.Holds (readers.map fun t => (t.1, entries t.1)) id e ↔
      ∃ t ∈ readers, t.1 = id ∧ e ∈ entries t.1 := by
    intro id e
    constructor
    · rintro ⟨list, present, inside⟩
      obtain ⟨t, there, same⟩ := List.mem_map.mp present
      cases same
      exact ⟨t, there, rfl, inside⟩
    · rintro ⟨t, there, rfl, inside⟩
      exact ⟨entries t.1, List.mem_map.mpr ⟨t, there, rfl⟩, inside⟩
  obtain ⟨ordered, members⟩ := @KWayMerge.merge_spec _ _ _ _ _ Entry.key
    (fun e => !(e.tombstone && dropTombstones)) _ distinctSources sortedSources
  obtain ⟨bound, ends⟩ := mergeTables_ends H dropTombstones distinct yields sorted
  refine ⟨_, bound, ends, ordered, fun e => ?_⟩
  rw [members e, Bool.not_eq_true', Bool.and_eq_false_iff, not_and_or, Bool.not_eq_true, Bool.not_eq_true]
  refine and_congr_right fun _ => ?_
  constructor
  · rintro ⟨id, held, greatest⟩
    obtain ⟨t, there, rfl, inside⟩ := (holds _ _).mp held
    exact ⟨t, there, inside, fun other present rival among same =>
      greatest other.1 rival ((holds _ _).mpr ⟨other, present, rfl, among⟩) same⟩
  · rintro ⟨t, there, inside, greatest⟩
    refine ⟨t.1, (holds _ _).mpr ⟨t, there, rfl, inside⟩, fun id rival held same => ?_⟩
    obtain ⟨other, present, rfl, among⟩ := (holds _ _).mp held
    exact greatest other present rival among same

def oneBlock (entries : List Entry) (firstKey : Bytes) : Reader :=
  ⟨SSTable.blockBytes entries, [⟨firstKey, 0, UInt64.ofNat (SSTable.blockBytes entries).length⟩], ⟨1, 64, []⟩,
    ⟨0, [], []⟩⟩

/-- The newer of two tables has a tombstone for the only key of the older one. -/
theorem mergeTables_newest_wins_tombstone :
    let older : List Entry := [⟨[1], [10], false⟩]
    let newer : List Entry := [⟨[1], [], true⟩, ⟨[2], [20], false⟩]
    let readers := [(1, oneBlock older [1]), (2, oneBlock newer [1])]
    ∃ out bound, (∀ fuel, bound ≤ fuel →
      mergeTables (KWayMerge.listHeap Entry.key) fuel readers false = some (.ok out)) ∧ Sorted out := by
  intro older newer readers
  have walks : ∀ t ∈ readers, Yields t.2 (if t.1 = 1 then older else newer) := by
    refine List.forall_mem_cons.mpr ⟨⟨3, ⟨oneBlock older [1], 1, older, 1, none⟩, ?_, rfl⟩,
      List.forall_mem_singleton.mpr ⟨4, ⟨oneBlock newer [1], 1, newer, 2, none⟩, ?_, rfl⟩⟩
    · decide +kernel
    · decide +kernel
  have ordered : ∀ t ∈ readers, Sorted (if t.1 = 1 then older else newer) := by decide
  obtain ⟨out, bound, done, sorted, -⟩ := mergeTables_newest_wins (KWayMerge.listHeap Entry.key) readers
    (fun id => if id = 1 then older else newer) false (by decide) walks ordered
  exact ⟨out, bound, done, sorted⟩

end ForgeDB.Storage.Compaction.Merging
