import ForgeDB.Data.SortedMap
import ForgeDB.Storage.WAL

/-!
The store over the write-ahead log: a change is appended and synced before the table takes it, and a
new store reads the log back. A write that fails half way leaves its bytes in the file, and the store
goes on after them.
-/

namespace ForgeDB.Storage

inductive StoreError where
  | emptyKey
  | walAppend (error : WAL.AppendError)
  | walSync
  deriving DecidableEq, Repr

inductive LoadError where
  | emptyKey
  | unknownType (code : UInt8)
  deriving DecidableEq, Repr

/-- What the errors print; what the file system itself reports is left out at their end. -/
def StoreError.text : StoreError → String
  | emptyKey => "storage: key must not be empty"
  | walAppend (.record error) => "storage: wal append: " ++ error.text
  | walAppend .write => "storage: wal append: wal: append: "
  | walSync => "storage: wal sync: wal: sync: "

def LoadError.text : LoadError → String
  | emptyKey => "memtable: key must not be empty"
  | unknownType code => s!"storage: unknown wal record type {code}"

structure MemStore where
  mt : SortedMap Bytes Bytes
  log : WAL

def Record.change (mt : SortedMap Bytes Bytes) (rec : Record) : SortedMap Bytes Bytes :=
  match rec.type with
  | .put => mt.insert rec.key rec.value
  | .delete => mt.erase rec.key
  | .unknown _ _ => mt

def load (mt : SortedMap Bytes Bytes) (rec : Record) : Except LoadError (SortedMap Bytes Bytes) :=
  match rec.type with
  | .put => if rec.key = [] then .error .emptyKey else .ok (mt.insert rec.key rec.value)
  | .delete => if rec.key = [] then .error .emptyKey else .ok (mt.erase rec.key)
  | .unknown code _ => .error (.unknownType code)

def newMemStore (log : WAL) : Except (ReplayError LoadError) MemStore :=
  match log.replay load SortedMap.empty with
  | .error error => .error error
  | .ok (log, mt) => .ok ⟨mt, log⟩

inductive Mutation where
  | put (key value : Bytes)
  | delete (key : Bytes)
  deriving DecidableEq, Repr

namespace Mutation

def key : Mutation → Bytes
  | put key _ => key
  | delete key => key

def record : Mutation → Record
  | put key value => ⟨.put, key, value⟩
  | delete key => ⟨.delete, key, []⟩

def change (mt : SortedMap Bytes Bytes) : Mutation → SortedMap Bytes Bytes
  | put key value => mt.insert key value
  | delete key => mt.erase key

theorem change_record (mt : SortedMap Bytes Bytes) (m : Mutation) : m.record.change mt = m.change mt := by
  cases m <;> rfl

end Mutation

namespace MemStore

def logged (s : MemStore) (m : Mutation) : MemStore × Except StoreError Unit :=
  if m.key = [] then (s, .error .emptyKey)
  else
    match s.log.append m.record with
    | (log, .error error) => ({ s with log := log }, .error (.walAppend error))
    | (log, .ok _) =>
      match log.sync with
      | (log, false) => ({ s with log := log }, .error .walSync)
      | (log, true) => (⟨m.change s.mt, log⟩, .ok ())

def put (s : MemStore) (key value : Bytes) : MemStore × Except StoreError Unit := s.logged (.put key value)

def delete (s : MemStore) (key : Bytes) : MemStore × Except StoreError Unit := s.logged (.delete key)

end MemStore

/-- A call and what the disk does to it: how many bytes its write gets out before it fails, if it does,
and whether its sync fails. -/
structure Call where
  mutation : Mutation
  write : Option Nat
  syncFails : Bool

namespace Call

def written (c : Call) : Nat :=
  if c.mutation.key = [] then 0
  else
    match encodeRecord c.mutation.record with
    | .error _ => 0
    | .ok data => c.write.elim data.length fun count => min count (data.length - 1)

def Breaks (c : Call) : Prop := c.write.isSome ∧ 0 < c.written

end Call

namespace MemStore

def perform (s : MemStore) (c : Call) : MemStore × Except StoreError Unit :=
  match c.mutation with
  | .put key value => { s with log := { s.log with writes := [c.write], syncs := [c.syncFails] } }.put key value
  | .delete key => { s with log := { s.log with writes := [c.write], syncs := [c.syncFails] } }.delete key

theorem perform_eq (s : MemStore) (c : Call) :
    s.perform c = { s with log := { s.log with writes := [c.write], syncs := [c.syncFails] } }.logged c.mutation := by
  unfold perform
  split <;> rename_i same <;> rw [same] <;> rfl

def performAll (s : MemStore) : List Call → MemStore × List Bool
  | [] => (s, [])
  | c :: more =>
    let (s, outcome) := s.perform c
    let (s, outcomes) := s.performAll more
    (s, outcome.isOk :: outcomes)

end MemStore

/-- The mutations contain those of the calls that returned nil, and some of the others, in call order. -/
inductive Accounted : List Call → List Bool → List Mutation → Prop where
  | nil : Accounted [] [] []
  | took {c : Call} {ok : Bool} {calls : List Call} {outcomes : List Bool} {kept : List Mutation}
    (rest : Accounted calls outcomes kept) : Accounted (c :: calls) (ok :: outcomes) (c.mutation :: kept)
  | left {c : Call} {calls : List Call} {outcomes : List Bool} {kept : List Mutation}
    (rest : Accounted calls outcomes kept) : Accounted (c :: calls) (false :: outcomes) kept

/-- The file holds the records of these mutations, and then possibly the beginning of one more record. -/
structure Shows (f : File) (kept : List Mutation) (part : Bytes) : Prop where
  encoded : ∃ encodings, Encodes (kept.map Mutation.record) encodings ∧ f.content = encodings.flatten ++ part
  atEnd : f.pos = f.content.length
  torn : part = [] ∨ ∃ rec data count, encodeRecord rec = .ok data ∧ count < data.length ∧ part = data.take count

theorem load_encoded {rec : Record} {data : Bytes} (encoded : encodeRecord rec = .ok data)
    (mt : SortedMap Bytes Bytes) : load mt rec = .ok (rec.change mt) := by
  obtain ⟨known, length, _⟩ := encodeRecord_ok encoded
  have named : rec.key ≠ [] := fun empty => length (by rw [empty]; rfl)
  rcases known with type | type <;> simp only [load, Record.change, type, if_neg named]

theorem Encodes.load {records : List Record} {encodings : List Bytes} (valid : Encodes records encodings) :
    ∀ rec ∈ records, ∀ mt, load mt rec = .ok (rec.change mt) := by
  intro rec present mt
  induction valid with
  | nil => cases present
  | cons encoded _ ih =>
    rcases List.mem_cons.mp present with rfl | later
    · exact load_encoded encoded mt
    · exact ih later

theorem Shows.reopens {f : File} {kept : List Mutation} {part : Bytes} (shows' : Shows f kept part) {log : WAL}
    (content : log.f.content = f.content) :
    ∃ opened, newMemStore log = .ok ⟨kept.foldl Mutation.change SortedMap.empty, opened⟩ := by
  obtain ⟨encodings, valid, bytes⟩ := shows'.encoded
  have pairs : (kept.map Mutation.record).foldl Record.change SortedMap.empty =
      kept.foldl Mutation.change SortedMap.empty := by
    rw [List.foldl_map]
    exact congrArg (List.foldl · SortedMap.empty kept) (funext₂ Mutation.change_record)
  rw [bytes] at content
  rcases shows'.torn with rfl | ⟨rec, data, count, encoded, short, rfl⟩
  · rw [List.append_nil] at content
    refine ⟨{ log with f := ⟨encodings.flatten, encodings.flatten.length⟩ }, ?_⟩
    rw [newMemStore, WAL.replay_whole valid content valid.load SortedMap.empty, pairs]
  · -- The file is a longer log that was cut within its last record.
    have longer : Encodes (kept.map Mutation.record ++ [rec]) (encodings ++ [data]) :=
      List.rel_append valid (.cons encoded .nil)
    have size : encodings.flatten.length + count ≤ (encodings ++ [data]).flatten.length := by
      rw [List.flatten_append, List.flatten_singleton, List.length_append]
      omega
    have cut : log.f.content = (encodings ++ [data]).flatten.take (encodings.flatten.length + count) := by
      rw [content, List.flatten_append, List.flatten_singleton, List.take_length_add_append]
    obtain ⟨j, ⟨⟨inside, fits⟩, greatest⟩, read⟩ := WAL.replay_cut longer size cut
    have most : encodings.length ≤ j := by
      refine greatest ⟨by rw [List.length_append]; omega, ?_⟩
      rw [List.take_left]
      omega
    have least : j ≤ encodings.length := by
      by_contra beyond
      have all : (encodings ++ [data]).take j = encodings ++ [data] :=
        List.take_of_length_le (by rw [List.length_append, List.length_singleton]; omega)
      rw [all, List.flatten_append, List.flatten_singleton, List.length_append] at fits
      omega
    have count : (kept.map Mutation.record).length = encodings.length := List.Forall₂.length_eq valid
    have whole := read _ _ load Record.change SortedMap.empty longer.load
    rw [Nat.le_antisymm least most, ← count, List.take_left, pairs] at whole
    rw [newMemStore, whole]
    exact ⟨_, rfl⟩

namespace MemStore

theorem perform_whole {s : MemStore} {kept : List Mutation} (whole : Shows s.log.f kept []) (c : Call) :
    (Shows (s.perform c).1.log.f (kept ++ [c.mutation]) []) ∨
      (s.perform c).2.isOk = false ∧
        ∃ part, Shows (s.perform c).1.log.f kept part ∧ (part ≠ [] → c.Breaks) := by
  obtain ⟨encodings, valid, content⟩ := whole.encoded
  rw [List.append_nil] at content
  rw [perform_eq, logged]
  by_cases blank : c.mutation.key = []
  · rw [if_pos blank]
    exact Or.inr ⟨rfl, [], whole, fun some => absurd rfl some⟩
  rw [if_neg blank]
  cases encoded : encodeRecord c.mutation.record with
  | error error =>
    simp only [WAL.append, encoded]
    exact Or.inr ⟨rfl, [], whole, fun some => absurd rfl some⟩
  | ok data =>
    have positive : 0 < data.length := by
      rw [(encodeRecord_ok encoded).2.2.2.2, List.length_append, recordHeader_length, headerSize]
      omega
    cases write : c.write with
    | some count =>
      simp only [WAL.append, encoded, File.write_end whole.atEnd]
      refine Or.inr ⟨rfl, data.take (min count (data.length - 1)), ⟨⟨encodings, valid, ?_⟩, ?_, ?_⟩, ?_⟩
      · rw [content]
      · rw [List.length_append]
      · exact Or.inr ⟨c.mutation.record, data, _, encoded, by omega, rfl⟩
      · intro some
        refine ⟨by rw [write]; rfl, ?_⟩
        rw [Call.written, if_neg blank]
        simp only [encoded, write, Option.elim_some]
        by_contra none
        exact some (by rw [Nat.le_zero.mp (Nat.le_of_not_lt none), List.take_zero])
    | none =>
      have added : Shows ⟨s.log.f.content ++ data, s.log.f.content.length + data.length⟩ (kept ++ [c.mutation]) [] := by
        refine ⟨⟨encodings ++ [data], ?_, ?_⟩, List.length_append.symm, Or.inl rfl⟩
        · rw [List.map_append]
          exact List.rel_append valid (.cons encoded .nil)
        · rw [content, List.flatten_append, List.flatten_singleton, List.append_nil]
      simp only [WAL.append, encoded, File.write_end whole.atEnd, WAL.sync]
      refine Or.inl ?_
      split <;> rename_i synced <;> split at synced <;> cases synced <;> exact added

theorem perform_silent {s : MemStore} (atEnd : s.log.f.pos = s.log.f.content.length) {c : Call}
    (silent : c.written = 0) :
    (s.perform c).2.isOk = false ∧ (s.perform c).1.log.f = s.log.f := by
  rw [perform_eq, logged]
  rw [Call.written] at silent
  by_cases blank : c.mutation.key = []
  · rw [if_pos blank]
    exact ⟨rfl, rfl⟩
  rw [if_neg blank] at silent ⊢
  cases encoded : encodeRecord c.mutation.record with
  | error error =>
    simp only [WAL.append, encoded]
    exact ⟨rfl, trivial⟩
  | ok data =>
    simp only [encoded] at silent
    have positive : 0 < data.length := by
      rw [(encodeRecord_ok encoded).2.2.2.2, List.length_append, recordHeader_length, headerSize]
      omega
    cases write : c.write with
    | none =>
      rw [write, Option.elim_none] at silent
      omega
    | some count =>
      rw [write, Option.elim_some] at silent
      simp only [WAL.append, encoded, silent, List.take_zero, File.write_end atEnd, List.append_nil,
        List.length_nil, Nat.add_zero]
      refine ⟨rfl, ?_⟩
      rw [← atEnd]

theorem performAll_silent {s : MemStore} (atEnd : s.log.f.pos = s.log.f.content.length) {calls : List Call}
    (silent : ∀ c ∈ calls, c.written = 0) :
    Accounted calls (s.performAll calls).2 [] ∧ (s.performAll calls).1.log.f = s.log.f := by
  induction calls generalizing s with
  | nil => exact ⟨.nil, rfl⟩
  | cons c more ih =>
    obtain ⟨failed, same⟩ := perform_silent atEnd (silent c List.mem_cons_self)
    obtain ⟨accounted, kept⟩ := @ih (s.perform c).1 (by rw [same]; exact atEnd)
      (fun later present => silent later (List.mem_cons_of_mem c present))
    refine ⟨?_, kept.trans same⟩
    simp only [performAll, failed]
    exact .left accounted

/-- As long as nothing is written after a write that broke off, the file shows the mutations of the
calls that returned nil, some of the others, and at most the beginning of one more. -/
theorem performAll_shows {s : MemStore} {kept : List Mutation} (whole : Shows s.log.f kept []) {calls : List Call}
    (intact : calls.Pairwise fun earlier later => earlier.Breaks → later.written = 0) :
    ∃ more part, Accounted calls (s.performAll calls).2 more ∧
      Shows (s.performAll calls).1.log.f (kept ++ more) part := by
  induction calls generalizing s kept with
  | nil => exact ⟨[], [], .nil, by rw [List.append_nil]; exact whole⟩
  | cons c calls ih =>
    obtain ⟨guarded, intact⟩ := List.pairwise_cons.mp intact
    rcases perform_whole whole c with added | ⟨failed, part, shown, broken⟩
    · obtain ⟨more, part, accounted, shown⟩ := ih added intact
      rw [List.append_assoc] at shown
      exact ⟨c.mutation :: more, part, .took accounted, shown⟩
    · by_cases clean : part = []
      · subst clean
        obtain ⟨more, part, accounted, shown⟩ := ih shown intact
        refine ⟨more, part, ?_, shown⟩
        simp only [performAll, failed]
        exact .left accounted
      · obtain ⟨accounted, same⟩ :=
          performAll_silent shown.atEnd (fun later present => guarded later present (broken clean))
        refine ⟨[], part, ?_, ?_⟩
        · simp only [performAll, failed]
          exact .left accounted
        · rw [List.append_nil]
          exact same ▸ shown

def fresh : MemStore := ⟨SortedMap.empty, .openFile []⟩

theorem newMemStore_empty : newMemStore (.openFile []) = .ok fresh := by
  rw [newMemStore, WAL.replay, replayFrom, if_pos (show (WAL.openFile []).f.content = [] from rfl)]
  rfl

/-- The calls on the store of an empty directory, and a store opened on what they have left: as long as
nothing is written after a write that broke off, it opens, and it holds what some sequence of mutations
leaves that contains those of all the calls that returned nil. -/
theorem reopened_holds {calls : List Call}
    (intact : calls.Pairwise fun earlier later => earlier.Breaks → later.written = 0) :
    ∃ kept opened, Accounted calls (fresh.performAll calls).2 kept ∧
      newMemStore (.openFile (fresh.performAll calls).1.log.f.content) =
        .ok ⟨kept.foldl Mutation.change SortedMap.empty, opened⟩ := by
  have empty : Shows fresh.log.f [] [] := ⟨⟨[], .nil, rfl⟩, rfl, Or.inl rfl⟩
  obtain ⟨kept, part, accounted, shown⟩ := performAll_shows empty intact
  obtain ⟨opened, reopened⟩ := @Shows.reopens _ _ _ shown (.openFile _) rfl
  exact ⟨kept, opened, accounted, reopened⟩

theorem reopened_holds_broken :
    ∃ kept opened, Accounted [⟨.put [1] [2], none, false⟩, ⟨.put [1] [3], some 3, false⟩] [true, false] kept ∧
      newMemStore (.openFile (fresh.performAll [⟨.put [1] [2], none, false⟩,
        ⟨.put [1] [3], some 3, false⟩]).1.log.f.content) = .ok ⟨kept.foldl Mutation.change SortedMap.empty, opened⟩ :=
  reopened_holds (List.pairwise_pair.mpr (fun breaks => nomatch breaks.1))

/-- A store that goes on after a write broke off cannot be opened again, although the call that went on
returned nil. -/
theorem reopened_corrupt :
    (fresh.performAll [⟨.put [1] [2], some 1, false⟩, ⟨.put [3] [4], none, false⟩]).2 = [false, true] ∧
      (newMemStore (.openFile (fresh.performAll [⟨.put [1] [2], some 1, false⟩,
        ⟨.put [3] [4], none, false⟩]).1.log.f.content)).isOk = false := by
  decide +kernel

end MemStore

end ForgeDB.Storage
