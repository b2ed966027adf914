import ForgeDB.Storage.Compaction.Compact

/-!
Every table that was ever active has a file of its own, which holds what it held then for as long as the table
is active. Every step keeps that which writes or removes only files of its own or of tables that are no longer
active.
-/

namespace ForgeDB.Storage.Compaction

open SSTable (Entry Sorted)
open Manifest (VersionSet Directory VersionError)

def Gone (born : List Birth) (s : Store) (path : Bytes) : Prop :=
  ∃ b ∈ born, b.name = path ∧ s.vs.tables.get? b.id = none

def Unused (born : List Birth) (path : Bytes) : Prop := ∀ b ∈ born, b.name ≠ path

structure Accounted (s : Store) (born : List Birth) : Prop where
  distinctIds : (born.map Birth.id).Nodup
  distinctNames : (born.map Birth.name).Nodup
  below : ∀ b ∈ born, b.id < s.vs.nextID
  active : ∀ {id name}, s.vs.tables.get? id = some name → ∃ b ∈ born, b.id = id ∧ b.name = name
  files : ∀ b ∈ born, ∃ table, b.table = some table ∧
    (s.files.get? b.name = some table ∨ s.files.get? b.name = none ∧ s.vs.tables.get? b.id = none)
  retired : ∀ {path}, s.tracker.retired.get? path = some () → Gone born s path

namespace Accounted

variable {s : Store} {born : List Birth}

section

variable (accounted : Accounted s born)

include accounted

theorem eq_of_name {b other : Birth} (present : b ∈ born) (there : other ∈ born) (same : b.name = other.name) :
    b = other :=
  List.inj_on_of_nodup_map accounted.distinctNames present there same

theorem eq_of_id {b other : Birth} (present : b ∈ born) (there : other ∈ born) (same : b.id = other.id) : b = other :=
  List.inj_on_of_nodup_map accounted.distinctIds present there same

theorem next_free : s.vs.tables.get? s.vs.nextID = none := by
  cases found : s.vs.tables.get? s.vs.nextID with
  | none => rfl
  | some name =>
    obtain ⟨b, present, same, _⟩ := accounted.active found
    exact absurd (same ▸ accounted.below b present) (lt_irrefl _)

theorem holds {id : UInt64} {name : Bytes} (found : s.vs.tables.get? id = some name) :
    ∃ b ∈ born, b.id = id ∧ b.name = name ∧ ∃ table, b.table = some table ∧ s.files.get? name = some table := by
  obtain ⟨b, present, rfl, rfl⟩ := accounted.active found
  obtain ⟨table, held, there | ⟨_, inactive⟩⟩ := accounted.files b present
  · exact ⟨b, present, rfl, rfl, table, held, there⟩
  · rw [inactive] at found
    cases found

theorem names_apart {first second : UInt64} {name : Bytes} (found : s.vs.tables.get? first = some name)
    (foundSecond : s.vs.tables.get? second = some name) : first = second := by
  obtain ⟨b, present, rfl, named⟩ := accounted.active found
  obtain ⟨other, there, rfl, same⟩ := accounted.active foundSecond
  rw [accounted.eq_of_name present there (named.trans same.symm)]

theorem frame {after : Store} (vs : after.vs = s.vs) (files : after.files = s.files)
    (retired : ∀ {path}, after.tracker.retired.get? path = some () → Gone born s path) : Accounted after born := by
  refine ⟨accounted.distinctIds, accounted.distinctNames, ?_, ?_, ?_, ?_⟩
  · rw [vs]
    exact accounted.below
  · rw [vs]
    exact accounted.active
  · rw [vs, files]
    exact accounted.files
  · intro path marked
    unfold Gone
    rw [vs]
    exact retired marked

theorem writes {files : SortedMap Bytes Table} (kept : ∀ b ∈ born, files.get? b.name = s.files.get? b.name) :
    Accounted { s with files := files } born := by
  refine ⟨accounted.distinctIds, accounted.distinctNames, accounted.below, accounted.active, ?_, accounted.retired⟩
  intro b present
  rw [kept b present]
  exact accounted.files b present

theorem insert_unused {path : Bytes} (unused : Unused born path) (table : Table) :
    Accounted { s with files := s.files.insert path table } born :=
  accounted.writes fun b present => by rw [SortedMap.get?_insert, if_neg (unused b present)]

theorem remove_unused {path : Bytes} (unused : Unused born path) (fails : Bool) :
    Accounted (s.remove path fails) born := by
  cases fails with
  | true => exact accounted
  | false => exact accounted.writes fun b present => by rw [SortedMap.get?_erase, if_neg (unused b present)]

theorem remove_gone {path : Bytes} (gone : Gone born s path) (fails : Bool) :
    Accounted (s.remove path fails) born := by
  cases fails with
  | true => exact accounted
  | false =>
    obtain ⟨old, there, rfl, inactive⟩ := gone
    refine ⟨accounted.distinctIds, accounted.distinctNames, accounted.below, accounted.active, ?_, accounted.retired⟩
    intro b present
    obtain ⟨table, held, kept⟩ := accounted.files b present
    refine ⟨table, held, ?_⟩
    have erased : (s.remove old.name false).files = s.files.erase old.name := rfl
    rw [erased, SortedMap.get?_erase]
    by_cases same : b.name = old.name
    · rw [if_pos same, accounted.eq_of_name present there same]
      exact Or.inr ⟨rfl, inactive⟩
    · rw [if_neg same]
      exact kept

theorem retire {path : Bytes} (gone : Gone born s path) (fails : Bool) : Accounted (s.retire path fails) born := by
  unfold Store.retire
  split
  · refine accounted.frame rfl rfl fun {other} marked => ?_
    dsimp only at marked
    rw [SortedMap.get?_insert] at marked
    split at marked
    · rename_i same
      exact same ▸ gone
    · exact accounted.retired marked
  · exact accounted.remove_gone gone fails

theorem acquire (path : Bytes) : Accounted (s.acquire path) born :=
  accounted.frame rfl rfl fun marked => accounted.retired marked

theorem release (path : Bytes) (fails : Bool) : Accounted (s.release path fails) born := by
  unfold Store.release
  split
  · exact accounted
  · split
    · dsimp only
      split
      · rename_i marked
        have fewer : Accounted
            { s with tracker := ⟨s.tracker.refs.erase path, s.tracker.retired.erase path⟩ } born := by
          refine accounted.frame rfl rfl fun {other} still => ?_
          dsimp only at still
          rw [SortedMap.get?_erase] at still
          split at still
          · cases still
          · exact accounted.retired still
        exact fewer.remove_gone (accounted.retired marked) fails
      · exact accounted.frame rfl rfl fun still => accounted.retired still
    · exact accounted.frame rfl rfl fun still => accounted.retired still

end

/-! ### The version changes -/

theorem deactivate (accounted : Accounted s born) (ids : List UInt64) (dir : Directory) :
    Accounted { s with vs := { s.vs with tables := s.vs.tables.eraseAll ids }, dir := dir } born := by
  have quiet : ∀ {id}, s.vs.tables.get? id = none → (s.vs.tables.eraseAll ids).get? id = none := by
    intro id inactive
    rw [SortedMap.get?_eraseAll, inactive, ite_self]
  refine ⟨accounted.distinctIds, accounted.distinctNames, accounted.below, ?_, ?_, ?_⟩
  · intro id name found
    dsimp only at found
    rw [SortedMap.get?_eraseAll] at found
    split at found
    · cases found
    · exact accounted.active found
  · intro b present
    obtain ⟨table, held, there | ⟨missing, inactive⟩⟩ := accounted.files b present
    · exact ⟨table, held, Or.inl there⟩
    · exact ⟨table, held, Or.inr ⟨missing, quiet inactive⟩⟩
  · intro path marked
    obtain ⟨b, present, named, inactive⟩ := accounted.retired marked
    exact ⟨b, present, named, quiet inactive⟩

theorem activate (accounted : Accounted s born) {name : Bytes} {table : Table} (unused : Unused born name)
    (there : s.files.get? name = some table) (room : s.vs.nextID.toNat + 1 < 2 ^ 64) (dir : Directory) :
    Accounted { s with vs := ⟨s.vs.nextID + 1, s.vs.tables.insert s.vs.nextID name⟩, dir := dir }
      (born ++ [⟨s.vs.nextID, name, some table⟩]) := by
  have next : s.vs.nextID < s.vs.nextID + 1 := by
    rw [UInt64.lt_iff_toNat_lt, UInt64.toNat_add, show (1 : UInt64).toNat = 1 from rfl, Nat.mod_eq_of_lt room]
    exact Nat.lt_succ_self _
  have quiet : ∀ b ∈ born, s.vs.tables.get? b.id = none → (s.vs.tables.insert s.vs.nextID name).get? b.id = none := by
    intro b present inactive
    rw [SortedMap.get?_insert, if_neg (accounted.below b present).ne, inactive]
  refine ⟨?_, ?_, ?_, ?_, ?_, ?_⟩
  · rw [List.map_append, List.map_singleton, List.nodup_append]
    refine ⟨accounted.distinctIds, List.nodup_singleton _, ?_⟩
    intro id old new here same
    obtain ⟨b, present, rfl⟩ := List.mem_map.mp old
    rw [List.mem_singleton.mp here] at same
    exact absurd same (accounted.below b present).ne
  · rw [List.map_append, List.map_singleton, List.nodup_append]
    refine ⟨accounted.distinctNames, List.nodup_singleton _, ?_⟩
    intro other old new here same
    obtain ⟨b, present, rfl⟩ := List.mem_map.mp old
    rw [List.mem_singleton.mp here] at same
    exact unused b present same
  · intro b present
    rcases List.mem_append.mp present with old | new
    · exact UInt64.lt_trans (accounted.below b old) next
    · rw [List.mem_singleton.mp new]
      exact next
  · intro id other found
    dsimp only at found
    rw [SortedMap.get?_insert] at found
    split at found
    · rename_i same
      cases found
      exact ⟨_, List.mem_append_right _ List.mem_cons_self, same.symm, rfl⟩
    · obtain ⟨b, present, both⟩ := accounted.active found
      exact ⟨b, List.mem_append_left _ present, both⟩
  · intro b present
    rcases List.mem_append.mp present with old | new
    · obtain ⟨held, same, still | ⟨missing, inactive⟩⟩ := accounted.files b old
      · exact ⟨held, same, Or.inl still⟩
      · exact ⟨held, same, Or.inr ⟨missing, quiet b old inactive⟩⟩
    · rw [List.mem_singleton.mp new]
      exact ⟨table, rfl, Or.inl there⟩
  · intro path marked
    obtain ⟨b, present, named, inactive⟩ := accounted.retired marked
    exact ⟨b, List.mem_append_left _ present, named, quiet b present inactive⟩

theorem births_none (accounted : Accounted s born) {after : Store}
    (fewer : ∀ {id}, s.vs.tables.get? id = none → after.vs.tables.get? id = none) : births s after = [] := by
  rw [births, fewer accounted.next_free]

end Accounted

end ForgeDB.Storage.Compaction
