import ForgeDB.Data.Cursor
import ForgeDB.Data.SortedMap

/-!
The Manifest: the file that names the active tables, and the version set that keeps it in step with
memory. Every change writes the whole file or, if the write fails, undoes itself in memory.
-/

namespace ForgeDB.Storage.Manifest

def magic : Bytes := [70, 111, 114, 103, 101, 77, 70, 49]

def formatVersion1 : Nat := 1

def maxTables : Nat := 2 ^ 20

def maxFileNameLen : Nat := 4096

def manifestHeaderSize : Nat := 8 + 4 + 8 + 4

structure ManifestFile where
  nextID : UInt64
  tables : List (UInt64 × Bytes)
  deriving DecidableEq, Repr

inductive ManifestError where
  | tooSmall (length : Nat)
  | badMagic
  | badVersion (version : Nat)
  | checksumMismatch
  | tableCount (count : Nat)
  | truncatedEntry (entry : Nat)
  | nameLength (length entry : Nat)
  | truncatedName (entry : Nat)
  | trailingBytes
  deriving DecidableEq, Repr

def ManifestError.text (error : ManifestError) : String :=
  let reason := match error with
    | tooSmall length => s!"file too small ({length} bytes)"
    | badMagic => "bad magic"
    | badVersion version => s!"unsupported format version {version}"
    | checksumMismatch => "checksum mismatch"
    | tableCount count => s!"table count {count} exceeds maximum of {maxTables}"
    | truncatedEntry entry => s!"truncated table entry {entry}"
    | nameLength length entry => s!"invalid file name length {length} at entry {entry}"
    | truncatedName entry => s!"truncated file name at entry {entry}"
    | trailingBytes => "trailing bytes after table entries"
  s!"manifest: {reason}: manifest: corrupt file"

def encodeTable (table : UInt64 × Bytes) : Bytes := putUint64 table.1 ++ putBytes table.2

def manifestBody (m : ManifestFile) : Bytes :=
  magic ++ (putUint32 formatVersion1 ++ (putUint64 m.nextID ++
    (putUint32 m.tables.length ++ m.tables.flatMap encodeTable)))

def encodeManifest (m : ManifestFile) : Bytes := Cursor.sealed checksum (manifestBody m)

open Cursor in
def readTable (i : Nat) : Cursor ManifestError ((UInt64 × Bytes) × Nat) := do
  need (8 + 4) (.truncatedEntry i)
  let id ← u64
  let nameLen ← u32
  refuse (nameLen = 0 ∨ maxFileNameLen < nameLen) (.nameLength nameLen i)
  need nameLen (.truncatedName i)
  let name ← bytes nameLen
  pure ((id, name), i + 1)

open Cursor in
def readManifest (data : Bytes) : Cursor ManifestError ManifestFile := do
  refuse (data.length < manifestHeaderSize + 4) (.tooSmall data.length)
  header data magic formatVersion1 .badMagic .badVersion
  let body ← checkSealed checksum data .checksumMismatch
  let nextID ← slice data 12 20
  let numTables ← slice data 20 24
  refuse (maxTables < uint32 numTables) (.tableCount (uint32 numTables))
  seek (body.drop manifestHeaderSize)
  let (tables, _) ← times readTable (uint32 numTables) 0
  let size ← left
  refuse (size ≠ 0) .trailingBytes
  pure ⟨uint64 nextID, tables⟩

def decodeManifest (data : Bytes) : Option (Except ManifestError ManifestFile) := (readManifest data).run data

/-- The directory: the Manifest, once there is one, and which of the coming writes fail. A failing write
leaves the file as it was. -/
structure Directory where
  manifest : Option Bytes
  faults : List Bool
  deriving DecidableEq, Repr

def Directory.write (dir : Directory) (data : Bytes) : Directory × Bool :=
  match dir.faults with
  | true :: later => ({ dir with faults := later }, false)
  | later => (⟨some data, later.tail⟩, true)

structure VersionSet where
  nextID : UInt64
  tables : SortedMap UInt64 Bytes
  deriving DecidableEq

inductive VersionError where
  | createInitial
  | decode (error : ManifestError)
  | persistAdd
  | persistRemove
  | persistReplace
  deriving DecidableEq, Repr

def VersionError.text : VersionError → String
  | createInitial => "manifest: create initial manifest"
  | decode error => let reason := error.text; s!"manifest: decode: {reason}"
  | persistAdd => "manifest: persist after add"
  | persistRemove => "manifest: persist after remove"
  | persistReplace => "manifest: persist after replace"

namespace VersionSet

def file (vs : VersionSet) : ManifestFile := ⟨vs.nextID, vs.tables.entries⟩

def persist (vs : VersionSet) (dir : Directory) : Directory × Bool := dir.write (encodeManifest vs.file)

def current (vs : VersionSet) : List (UInt64 × Bytes) := vs.tables.entries

/-- What a change of the tables and of the next ID comes to: it is persisted, or undone. -/
def commit {α : Type} (vs after : VersionSet) (dir : Directory) (error : VersionError) (result : α) :
    VersionSet × Directory × Except VersionError α :=
  match after.persist dir with
  | (dir, true) => (after, dir, .ok result)
  | (dir, false) => (vs, dir, .error error)

def addTable (vs : VersionSet) (dir : Directory) (fileName : Bytes) :
    VersionSet × Directory × Except VersionError UInt64 :=
  let id := vs.nextID
  vs.commit ⟨vs.nextID + 1, vs.tables.insert id fileName⟩ dir .persistAdd id

def removeTables (vs : VersionSet) (dir : Directory) (ids : List UInt64) :
    VersionSet × Directory × Except VersionError Unit :=
  vs.commit { vs with tables := vs.tables.eraseAll ids } dir .persistRemove ()

def removeTable (vs : VersionSet) (dir : Directory) (id : UInt64) :
    VersionSet × Directory × Except VersionError Unit := vs.removeTables dir [id]

def replaceTables (vs : VersionSet) (dir : Directory) (oldIDs : List UInt64) (newFileName : Bytes) :
    VersionSet × Directory × Except VersionError UInt64 :=
  let newID := vs.nextID
  vs.commit ⟨vs.nextID + 1, (vs.tables.eraseAll oldIDs).insert newID newFileName⟩ dir .persistReplace newID

def replaceTable (vs : VersionSet) (dir : Directory) (oldID : UInt64) (newFileName : Bytes) :
    VersionSet × Directory × Except VersionError UInt64 := vs.replaceTables dir [oldID] newFileName

end VersionSet

def openDir (dir : Directory) : Directory × Option (Except VersionError VersionSet) :=
  match dir.manifest with
  | none =>
    let vs : VersionSet := ⟨1, SortedMap.empty⟩
    match vs.persist dir with
    | (dir, true) => (dir, some (.ok vs))
    | (dir, false) => (dir, some (.error .createInitial))
  | some data =>
    match decodeManifest data with
    | none => (dir, none)
    | some (.error error) => (dir, some (.error (.decode error)))
    | some (.ok mf) =>
      (dir, some (.ok ⟨mf.nextID, mf.tables.foldl (fun tables t => tables.insert t.1 t.2) SortedMap.empty⟩))

/-! ### Runs of calls and reopenings -/

inductive Call where
  | addTable (fileName : Bytes)
  | removeTable (id : UInt64)
  | removeTables (ids : List UInt64)
  | replaceTable (oldID : UInt64) (newFileName : Bytes)
  | replaceTables (oldIDs : List UInt64) (newFileName : Bytes)
  | reopen
  deriving DecidableEq, Repr

structure Run where
  memory : VersionSet
  dir : Directory
  ids : List UInt64
  deriving DecidableEq

namespace Run

def returned (r : Run) : VersionSet × Directory × Except VersionError UInt64 → Run × Option VersionError
  | (memory, dir, .ok id) => (⟨memory, dir, r.ids ++ [id]⟩, none)
  | (memory, dir, .error error) => (⟨memory, dir, r.ids⟩, some error)

def finished (r : Run) : VersionSet × Directory × Except VersionError Unit → Run × Option VersionError
  | (memory, dir, .ok _) => (⟨memory, dir, r.ids⟩, none)
  | (memory, dir, .error error) => (⟨memory, dir, r.ids⟩, some error)

def call (r : Run) : Call → Run × Option VersionError
  | .addTable fileName => r.returned (r.memory.addTable r.dir fileName)
  | .removeTable id => r.finished (r.memory.removeTable r.dir id)
  | .removeTables ids => r.finished (r.memory.removeTables r.dir ids)
  | .replaceTable oldID newFileName => r.returned (r.memory.replaceTable r.dir oldID newFileName)
  | .replaceTables oldIDs newFileName => r.returned (r.memory.replaceTables r.dir oldIDs newFileName)
  | .reopen =>
    match openDir r.dir with
    | (dir, some (.ok memory)) => ({ r with memory := memory, dir := dir }, none)
    | (dir, some (.error error)) => ({ r with dir := dir }, some error)
    | (dir, none) => ({ r with dir := dir }, none)

def calls (r : Run) (list : List Call) : Run := list.foldl (fun r c => (r.call c).1) r

end Run

def NameFits (fileName : Bytes) : Prop := 0 < fileName.length ∧ fileName.length ≤ maxFileNameLen

instance (fileName : Bytes) : Decidable (NameFits fileName) :=
  inferInstanceAs (Decidable (0 < fileName.length ∧ fileName.length ≤ maxFileNameLen))

/-- The names the call gives are ones the decoder takes back, the tables stay within its bound, and there is
an ID left after this one. -/
def Call.Fits (vs : VersionSet) : Call → Prop
  | addTable fileName =>
    NameFits fileName ∧ vs.tables.entries.length < maxTables ∧ vs.nextID.toNat + 1 < 2 ^ 64
  | replaceTable oldID newFileName =>
    NameFits newFileName ∧ (vs.tables.eraseAll [oldID]).entries.length < maxTables ∧ vs.nextID.toNat + 1 < 2 ^ 64
  | replaceTables oldIDs newFileName =>
    NameFits newFileName ∧ (vs.tables.eraseAll oldIDs).entries.length < maxTables ∧ vs.nextID.toNat + 1 < 2 ^ 64
  | _ => True

def Run.Fits (r : Run) : List Call → Prop
  | [] => True
  | c :: more => c.Fits r.memory ∧ Run.Fits (r.call c).1 more

instance (vs : VersionSet) (c : Call) : Decidable (c.Fits vs) := by
  cases c <;> unfold Call.Fits <;> infer_instance

instance Run.decidableFits (r : Run) : (calls : List Call) → Decidable (r.Fits calls)
  | [] => inferInstanceAs (Decidable True)
  | c :: more =>
    have := Run.decidableFits (r.call c).1 more
    inferInstanceAs (Decidable (c.Fits r.memory ∧ Run.Fits (r.call c).1 more))

/-! ### The file is read back -/

theorem readTable_encode {id : UInt64} {name : Bytes} (fits : NameFits name) (i : Nat) (rest : Bytes) :
    readTable i (encodeTable (id, name) ++ rest) = .ok ((id, name), i + 1) rest := by
  obtain ⟨nonempty, short⟩ := fits
  have small : name.length < 2 ^ 32 := lt_of_le_of_lt short (by decide)
  simp only [encodeTable, putBytes, List.append_assoc]
  rw [readTable,
    Cursor.bind_ok (Cursor.need_long (by simp only [List.length_append, putUint64_length, putUint32_length]; omega) _),
    Cursor.bind_ok (Cursor.u64_put _ _), Cursor.bind_ok (Cursor.u32_put small _),
    Cursor.bind_ok (Cursor.refuse_not (by omega) _ _),
    Cursor.bind_ok (Cursor.need_long (by rw [List.length_append]; omega) _), Cursor.bind_ok (Cursor.bytes_append _ _)]
  rfl

theorem decodeManifest_encode {m : ManifestFile} (few : m.tables.length ≤ maxTables)
    (names : ∀ table ∈ m.tables, NameFits table.2) : decodeManifest (encodeManifest m) = some (.ok m) := by
  have count : m.tables.length < 2 ^ 32 := lt_of_le_of_lt few (by decide)
  have front : ∀ rest, Cursor.header (encodeManifest m) magic formatVersion1
      ManifestError.badMagic ManifestError.badVersion rest = .ok () rest := by
    intro rest
    rw [encodeManifest, Cursor.sealed, manifestBody, List.append_assoc, List.append_assoc]
    exact Cursor.header_put rfl (by decide) _ _ _ rest
  have long : (encodeManifest m).length = 28 + (m.tables.flatMap encodeTable).length := by
    simp only [encodeManifest, Cursor.sealed_length, manifestBody, magic, List.length_append, List.length_cons,
      List.length_nil, putUint32_length, putUint64_length]
    omega
  have next : ∀ rest, (Cursor.slice (encodeManifest m) 12 20 : Cursor ManifestError Bytes) rest =
      .ok (putUint64 m.nextID) rest := by
    intro rest
    have shape : encodeManifest m = (magic ++ putUint32 formatVersion1) ++ (putUint64 m.nextID ++
        (putUint32 m.tables.length ++ m.tables.flatMap encodeTable ++
          putUint32 (checksum (manifestBody m)).toNat)) := by
      simp only [encodeManifest, Cursor.sealed, manifestBody, List.append_assoc]
    rw [shape]
    have before : (magic ++ putUint32 formatVersion1).length = 12 := rfl
    exact Cursor.slice_append before rfl rest
  have tables : ∀ rest, (Cursor.slice (encodeManifest m) 20 24 : Cursor ManifestError Bytes) rest =
      .ok (putUint32 m.tables.length) rest := by
    intro rest
    have shape : encodeManifest m = (magic ++ putUint32 formatVersion1 ++ putUint64 m.nextID) ++
        (putUint32 m.tables.length ++ (m.tables.flatMap encodeTable ++
          putUint32 (checksum (manifestBody m)).toNat)) := by
      simp only [encodeManifest, Cursor.sealed, manifestBody, List.append_assoc]
    rw [shape]
    have before : (magic ++ putUint32 formatVersion1 ++ putUint64 m.nextID).length = 20 := rfl
    exact Cursor.slice_append before rfl rest
  have checked : ∀ rest, Cursor.checkSealed checksum (encodeManifest m) ManifestError.checksumMismatch rest =
      .ok (manifestBody m) rest := Cursor.checkSealed_sealed checksum (manifestBody m) _
  have body : (manifestBody m).drop manifestHeaderSize = m.tables.flatMap encodeTable := by
    have shape : manifestBody m = (magic ++ putUint32 formatVersion1 ++ putUint64 m.nextID ++
        putUint32 m.tables.length) ++ m.tables.flatMap encodeTable := by
      simp only [manifestBody, List.append_assoc]
    rw [shape]
    exact List.drop_left' rfl
  have along : Cursor.Along (fun _ table => NameFits table.2) (fun i _ => i + 1) 0 m.tables :=
    Cursor.Along.of_forall _ (fun table present _ => names table present) 0
  have read := Cursor.times_encode (fun i table rest fits => readTable_encode fits i rest) along []
  rw [List.append_nil] at read
  rw [decodeManifest, Cursor.run, readManifest,
    Cursor.bind_ok (Cursor.refuse_not (by rw [long, manifestHeaderSize]; omega) _ _), Cursor.bind_ok (front _),
    Cursor.bind_ok (checked _), Cursor.bind_ok (next _), Cursor.bind_ok (tables _),
    uint32_putUint32 count, Cursor.bind_ok (Cursor.refuse_not (Nat.not_lt.mpr few) _ _), body,
    Cursor.bind_ok (Cursor.seek_apply _ _), Cursor.bind_ok read]
  dsimp only
  rw [Cursor.bind_ok (Cursor.left_apply _),
    Cursor.bind_ok (Cursor.refuse_not (show ¬([] : Bytes).length ≠ 0 from not_not.mpr rfl) _ _), uint64_putUint64]
  rfl

/-! ### Memory and file stay in step -/

theorem Directory.write_cases (dir : Directory) (data : Bytes) :
    (∃ later, dir.write data = (⟨dir.manifest, later⟩, false)) ∨
      ∃ later, dir.write data = (⟨some data, later⟩, true) := by
  unfold write
  split
  · exact Or.inl ⟨_, rfl⟩
  · exact Or.inr ⟨_, rfl⟩

theorem VersionSet.commit_cases {α : Type} (vs after : VersionSet) (dir : Directory) (error : VersionError)
    (result : α) :
    (∃ later, vs.commit after dir error result = (vs, ⟨dir.manifest, later⟩, .error error)) ∨
      ∃ later, vs.commit after dir error result =
        (after, ⟨some (encodeManifest after.file), later⟩, .ok result) := by
  unfold commit persist
  rcases dir.write_cases (encodeManifest after.file) with ⟨later, same⟩ | ⟨later, same⟩
  · exact Or.inl ⟨later, by rw [same]⟩
  · exact Or.inr ⟨later, by rw [same]⟩

theorem VersionSet.addTable_cases (vs : VersionSet) (dir : Directory) (fileName : Bytes) :
    (∃ later, vs.addTable dir fileName = (vs, ⟨dir.manifest, later⟩, .error .persistAdd)) ∨
      ∃ after, vs.addTable dir fileName =
        (⟨vs.nextID + 1, vs.tables.insert vs.nextID fileName⟩, after, .ok vs.nextID) :=
  (vs.commit_cases _ dir .persistAdd vs.nextID).imp_right fun ⟨_, done⟩ => ⟨_, done⟩

theorem VersionSet.removeTables_cases (vs : VersionSet) (dir : Directory) (ids : List UInt64) :
    (∃ later, vs.removeTables dir ids = (vs, ⟨dir.manifest, later⟩, .error .persistRemove)) ∨
      ∃ after, vs.removeTables dir ids = (⟨vs.nextID, vs.tables.eraseAll ids⟩, after, .ok ()) :=
  (vs.commit_cases _ dir .persistRemove ()).imp_right fun ⟨_, done⟩ => ⟨_, done⟩

theorem VersionSet.replaceTables_cases (vs : VersionSet) (dir : Directory) (oldIDs : List UInt64)
    (newFileName : Bytes) :
    (∃ later, vs.replaceTables dir oldIDs newFileName = (vs, ⟨dir.manifest, later⟩, .error .persistReplace)) ∨
      ∃ after, vs.replaceTables dir oldIDs newFileName =
        (⟨vs.nextID + 1, (vs.tables.eraseAll oldIDs).insert vs.nextID newFileName⟩, after, .ok vs.nextID) :=
  (vs.commit_cases _ dir .persistReplace vs.nextID).imp_right fun ⟨_, done⟩ => ⟨_, done⟩

structure VersionSet.Readable (vs : VersionSet) : Prop where
  few : vs.tables.entries.length ≤ maxTables
  names : ∀ table ∈ vs.tables.entries, NameFits table.2

namespace VersionSet.Readable

variable {vs : VersionSet}

theorem eraseAll (readable : vs.Readable) (ids : List UInt64) :
    Readable { vs with tables := vs.tables.eraseAll ids } := by
  induction ids generalizing vs with
  | nil => exact readable
  | cons id ids ih =>
    have once : Readable { vs with tables := vs.tables.erase id } :=
      ⟨Nat.le_trans (List.length_filter_le _ _) readable.few,
        fun table present => readable.names table (List.mem_of_mem_filter present)⟩
    exact ih once

theorem insert (readable : vs.Readable) {fileName : Bytes} (fits : NameFits fileName)
    (few : vs.tables.entries.length < maxTables) (id nextID : UInt64) :
    Readable ⟨nextID, vs.tables.insert id fileName⟩ := by
  refine ⟨Nat.le_trans (SortedMap.insertEntry_length _ _ _) few, fun table present => ?_⟩
  rcases SortedMap.mem_insertEntry present with rfl | old
  · exact fits
  · exact readable.names table old

end VersionSet.Readable

structure Run.Sound (r : Run) : Prop where
  file : r.dir.manifest = some (encodeManifest r.memory.file)
  readable : r.memory.Readable
  rising : r.ids.Pairwise (· < ·)
  below : ∀ id ∈ r.ids, id < r.memory.nextID

namespace Run.Sound

variable {r : Run}

theorem opens (sound : r.Sound) : openDir r.dir = (r.dir, some (.ok r.memory)) := by
  have decoded : decodeManifest (encodeManifest r.memory.file) = some (.ok r.memory.file) :=
    decodeManifest_encode sound.readable.few sound.readable.names
  unfold openDir
  simp only [sound.file, decoded]
  simp only [VersionSet.file, SortedMap.foldl_insert_entries]

theorem finished (sound : r.Sound) {after : VersionSet} (readable : after.Readable)
    (same : after.nextID = r.memory.nextID) (error : VersionError) :
    (r.finished (r.memory.commit after r.dir error ())).1.Sound := by
  rcases r.memory.commit_cases after r.dir error () with ⟨later, done⟩ | ⟨later, done⟩
  · rw [done]
    exact ⟨sound.file, sound.readable, sound.rising, sound.below⟩
  · rw [done]
    exact ⟨rfl, readable, sound.rising, fun id present => same ▸ sound.below id present⟩

theorem returned (sound : r.Sound) {tables : SortedMap UInt64 Bytes}
    (readable : VersionSet.Readable ⟨r.memory.nextID + 1, tables⟩) (room : r.memory.nextID.toNat + 1 < 2 ^ 64)
    (error : VersionError) :
    (r.returned (r.memory.commit ⟨r.memory.nextID + 1, tables⟩ r.dir error r.memory.nextID)).1.Sound := by
  have next : r.memory.nextID < r.memory.nextID + 1 := by
    rw [UInt64.lt_iff_toNat_lt, UInt64.toNat_add, show (1 : UInt64).toNat = 1 from rfl, Nat.mod_eq_of_lt room]
    exact Nat.lt_succ_self _
  rcases r.memory.commit_cases ⟨r.memory.nextID + 1, tables⟩ r.dir error r.memory.nextID with
    ⟨later, done⟩ | ⟨later, done⟩
  · rw [done]
    exact ⟨sound.file, sound.readable, sound.rising, sound.below⟩
  · rw [done]
    refine ⟨rfl, readable, List.pairwise_append.mpr ⟨sound.rising, List.pairwise_singleton _ _, ?_⟩,
      fun id present => ?_⟩
    · intro id present last here
      rw [List.mem_singleton.mp here]
      exact sound.below id present
    · rcases List.mem_append.mp present with old | here
      · exact UInt64.lt_trans (sound.below id old) next
      · rw [List.mem_singleton.mp here]
        exact next

theorem call (sound : r.Sound) {c : Call} (fits : c.Fits r.memory) : (r.call c).1.Sound := by
  cases c with
  | addTable fileName =>
    obtain ⟨name, few, room⟩ := fits
    exact sound.returned (sound.readable.insert name few _ _) room _
  | removeTable id => exact sound.finished (sound.readable.eraseAll [id]) rfl _
  | removeTables ids => exact sound.finished (sound.readable.eraseAll ids) rfl _
  | replaceTable oldID newFileName =>
    obtain ⟨name, few, room⟩ := fits
    exact sound.returned ((sound.readable.eraseAll [oldID]).insert name few _ _) room _
  | replaceTables oldIDs newFileName =>
    obtain ⟨name, few, room⟩ := fits
    exact sound.returned ((sound.readable.eraseAll oldIDs).insert name few _ _) room _
  | reopen =>
    simp only [Run.call, sound.opens]
    exact sound

theorem calls (sound : r.Sound) {list : List Call} (fits : r.Fits list) : (r.calls list).Sound := by
  induction list generalizing r with
  | nil => exact sound
  | cons c more ih => exact ih (sound.call fits.1) fits.2

end Run.Sound

theorem Run.finished_error {r : Run} {after : VersionSet} {error shown : VersionError}
    (failed : (r.finished (r.memory.commit after r.dir shown ())).2 = some error) :
    (r.finished (r.memory.commit after r.dir shown ())).1.memory = r.memory ∧
      (r.finished (r.memory.commit after r.dir shown ())).1.dir.manifest = r.dir.manifest := by
  rcases r.memory.commit_cases after r.dir shown () with ⟨later, done⟩ | ⟨later, done⟩
  · rw [done]
    exact ⟨rfl, rfl⟩
  · rw [done] at failed
    cases failed

theorem Run.returned_error {r : Run} {after : VersionSet} {id : UInt64} {error shown : VersionError}
    (failed : (r.returned (r.memory.commit after r.dir shown id)).2 = some error) :
    (r.returned (r.memory.commit after r.dir shown id)).1.memory = r.memory ∧
      (r.returned (r.memory.commit after r.dir shown id)).1.dir.manifest = r.dir.manifest := by
  rcases r.memory.commit_cases after r.dir shown id with ⟨later, done⟩ | ⟨later, done⟩
  · rw [done]
    exact ⟨rfl, rfl⟩
  · rw [done] at failed
    cases failed

theorem openDir_error {dir after : Directory} {error : VersionError}
    (failed : openDir dir = (after, some (.error error))) : after.manifest = dir.manifest := by
  unfold openDir VersionSet.persist at failed
  split at failed
  next absent =>
    rcases dir.write_cases (encodeManifest (VersionSet.file ⟨1, SortedMap.empty⟩)) with
      ⟨later, done⟩ | ⟨later, done⟩
    · simp only [done, Prod.mk.injEq] at failed
      rw [← failed.1]
    · simp only [done, Prod.mk.injEq] at failed
      cases failed.2
  next =>
    split at failed <;> cases failed
    rfl

theorem Run.call_error {r : Run} {c : Call} {error : VersionError} (failed : (r.call c).2 = some error) :
    (r.call c).1.memory = r.memory ∧ (r.call c).1.dir.manifest = r.dir.manifest := by
  cases c with
  | addTable fileName => exact Run.returned_error failed
  | removeTable id | removeTables ids => exact Run.finished_error failed
  | replaceTable oldID newFileName | replaceTables oldIDs newFileName => exact Run.returned_error failed
  | reopen =>
    simp only [Run.call] at failed ⊢
    split at failed
    next => cases failed
    next dir refused opened => exact ⟨rfl, openDir_error opened⟩
    next => cases failed

theorem Run.Sound.start {faults : List Bool} {dir : Directory} {vs : VersionSet}
    (opened : openDir ⟨none, faults⟩ = (dir, some (.ok vs))) : Run.Sound ⟨vs, dir, []⟩ := by
  simp only [openDir, VersionSet.persist] at opened
  rcases Directory.write_cases ⟨none, faults⟩ (encodeManifest (VersionSet.file ⟨1, SortedMap.empty⟩)) with
    ⟨later, done⟩ | ⟨later, done⟩
  · simp only [done, Prod.mk.injEq] at opened
    cases opened.2
  · simp only [done, Prod.mk.injEq, Option.some.injEq, Except.ok.injEq] at opened
    obtain ⟨rfl, rfl⟩ := opened
    exact ⟨rfl, ⟨Nat.zero_le _, fun table present => by cases present⟩, List.Pairwise.nil,
      fun id present => by cases present⟩

/-- Over a run of calls with names of 1 to 4096 bytes, at most `maxTables` tables and IDs left, any of the writes
failing: after each call the directory opens to exactly the memory, the IDs returned rise, and a call that
returns an error changes neither memory nor file. -/
theorem manifest_recovers {faults : List Bool} {dir : Directory} {vs : VersionSet}
    (opened : openDir ⟨none, faults⟩ = (dir, some (.ok vs))) (calls : List Call)
    (fits : Run.Fits ⟨vs, dir, []⟩ calls) :
    let r := Run.calls ⟨vs, dir, []⟩ calls
    openDir r.dir = (r.dir, some (.ok r.memory)) ∧ r.ids.Pairwise (· < ·) ∧
      ∀ c error, (r.call c).2 = some error →
        (r.call c).1.memory = r.memory ∧ (r.call c).1.dir.manifest = r.dir.manifest := by
  have sound := (Run.Sound.start opened).calls fits
  exact ⟨sound.opens, sound.rising, fun c error failed => Run.call_error failed⟩

/-- Two tables are added, the write of the third fails, and the two are replaced after a reopening. -/
def exampleCalls : List Call :=
  [.addTable [97], .addTable [98], .addTable [99], .reopen, .replaceTables [1, 2] [100]]

theorem manifest_recovers_replaced :
    let r := Run.calls ⟨⟨1, SortedMap.empty⟩, (openDir ⟨none, [false, false, false, true]⟩).1, []⟩ exampleCalls
    r.memory.current = [(3, [100])] ∧ openDir r.dir = (r.dir, some (.ok r.memory)) ∧ r.ids = [1, 2, 3] ∧
      r.ids.Pairwise (· < ·) :=
  have opened : openDir ⟨none, [false, false, false, true]⟩ =
      ((openDir ⟨none, [false, false, false, true]⟩).1, some (.ok ⟨1, SortedMap.empty⟩)) := by decide +kernel
  have recovers := manifest_recovers opened exampleCalls (by decide +kernel)
  ⟨by decide +kernel, recovers.1, by decide +kernel, recovers.2.1⟩

/-- A table added under an empty name is accepted and persisted, and the directory can no longer be opened. -/
theorem addTable_empty_unopenable :
    let r : Run := ⟨⟨1, SortedMap.empty⟩, (openDir ⟨none, []⟩).1, []⟩
    openDir ⟨none, []⟩ = (r.dir, some (.ok r.memory)) ∧ (r.call (.addTable [])).2 = none ∧
      (r.call (.addTable [])).1.ids = [1] ∧
      (openDir (r.call (.addTable [])).1.dir).2 = some (.error (.decode (.nameLength 0 0))) := by
  decide +kernel

end ForgeDB.Storage.Manifest
