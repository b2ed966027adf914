import ForgeDB.Data.Bisect
import ForgeDB.Data.Cursor

/-!
The sections of an SSTable file: data blocks, the sparse index over them, the metadata block and
the footer. Each is written with its checksum behind it, and each reader gives back what its writer
was given.
-/

namespace ForgeDB.Storage.SSTable

def maxKeySize : Nat := 2 ^ 20

def maxValueSize : Nat := 2 ^ 26

structure Entry where
  key : Bytes
  value : Bytes
  tombstone : Bool
  deriving DecidableEq, Repr

inductive Section where
  | index
  | bloom
  | metadata
  deriving DecidableEq, Repr

def Section.name : Section → String
  | index => "index"
  | bloom => "bloom"
  | metadata => "meta"

inductive FormatError where
  | emptyKey
  | keyTooLong (length : Nat)
  | valueTooLong (length : Nat)
  | blockTooSmall (length : Nat)
  | blockChecksum
  | entryHeader (offset : Nat)
  | keyLength (length offset : Nat)
  | valueLength (length offset : Nat)
  | entryKey (offset : Nat)
  | tombstoneValue (offset : Nat)
  | entryValue (offset : Nat)
  | encodeIndexKey (length : Nat)
  | indexTooSmall (length : Nat)
  | indexChecksum
  | indexEntry (offset : Nat)
  | indexKeyLength (length offset : Nat)
  | indexKey (offset : Nat)
  | bloomTooSmall (length : Nat)
  | hashCount (count : Nat)
  | bitCount (count : Nat)
  | bitArrayLength (length count : Nat)
  | bloomSize
  | bloomChecksum
  | truncatedMeta
  | minKeyLength (length : Nat)
  | maxKeyLength (length : Nat)
  | trailingMeta
  | metaChecksum
  | footerSize (length : Nat)
  | badMagic
  | badVersion (version : Nat)
  | footerChecksum
  | sectionEmpty (part : Section)
  | sectionOffset (part : Section) (offset size : Nat)
  | sectionLength (part : Section) (length offset size : Nat)
  deriving DecidableEq, Repr

namespace FormatError

/-- The writers' own errors, and the footer of a wrong size, do not wrap `ErrCorrupt`. -/
def wrapsErrCorrupt : FormatError → Bool
  | emptyKey | keyTooLong _ | valueTooLong _ | encodeIndexKey _ | footerSize _ => false
  | _ => true

def reason : FormatError → String
  | emptyKey => "entry key must not be empty"
  | keyTooLong length => s!"key of {length} bytes exceeds maximum of {maxKeySize}"
  | valueTooLong length => s!"value of {length} bytes exceeds maximum of {maxValueSize}"
  | blockTooSmall length => s!"block too small ({length} bytes)"
  | blockChecksum => "block checksum mismatch"
  | entryHeader offset => s!"truncated entry header at block offset {offset}"
  | keyLength length offset => s!"invalid key length {length} at block offset {offset}"
  | valueLength length offset => s!"invalid value length {length} at block offset {offset}"
  | entryKey offset => s!"truncated entry key at block offset {offset}"
  | tombstoneValue offset => s!"tombstone entry at block offset {offset} has non-zero value length"
  | entryValue offset => s!"truncated entry value at block offset {offset}"
  | encodeIndexKey length => s!"invalid index key length {length}"
  | indexTooSmall length => s!"index block too small ({length} bytes)"
  | indexChecksum => "index checksum mismatch"
  | indexEntry offset => s!"truncated index entry at offset {offset}"
  | indexKeyLength length offset => s!"invalid index key length {length} at offset {offset}"
  | indexKey offset => s!"truncated index key at offset {offset}"
  | bloomTooSmall length => s!"bloom block too small ({length} bytes)"
  | hashCount count => s!"invalid bloom hash count {count}"
  | bitCount count => s!"invalid bloom bit count {count}"
  | bitArrayLength length count => s!"bloom bit array length {length} does not match bit count {count}"
  | bloomSize => "bloom block size mismatch"
  | bloomChecksum => "bloom checksum mismatch"
  | truncatedMeta => "truncated metadata block"
  | minKeyLength length => s!"invalid min key length {length}"
  | maxKeyLength length => s!"invalid max key length {length}"
  | trailingMeta => "trailing bytes in metadata block"
  | metaChecksum => "metadata checksum mismatch"
  | footerSize length => s!"invalid footer size {length}"
  | badMagic => "bad magic"
  | badVersion version => s!"unsupported format version {version}"
  | footerChecksum => "footer checksum mismatch"
  | sectionEmpty part => let name := part.name; s!"{name} section has zero length"
  | sectionOffset part offset size =>
    let name := part.name; s!"{name} section offset {offset} exceeds file size {size}"
  | sectionLength part length offset size =>
    let name := part.name; s!"{name} section length {length} at offset {offset} exceeds file size {size}"

def text (error : FormatError) : String :=
  let why := error.reason
  if error.wrapsErrCorrupt then s!"sstable: {why}: sstable: corrupt file" else s!"sstable: {why}"

end FormatError

/-! ### Data blocks -/

def entryHeaderSize : Nat := 1 + 4 + 4

def blockChecksumSize : Nat := 4

def tombstoneFlag : UInt8 := 1

def checkEntry (e : Entry) : Except FormatError Unit :=
  if e.key = [] then .error .emptyKey
  else if maxKeySize < e.key.length then .error (.keyTooLong e.key.length)
  else if maxValueSize < e.value.length then .error (.valueTooLong e.value.length)
  else .ok ()

def encodeEntry (e : Entry) : Bytes :=
  let flags := if e.tombstone then tombstoneFlag else 0
  let value := if e.tombstone then [] else e.value
  flags :: (putUint32 e.key.length ++ (putUint32 value.length ++ (e.key ++ value)))

def blockBytes (entries : List Entry) : Bytes := Cursor.sealed checksum (entries.flatMap encodeEntry)

def encodeBlock (entries : List Entry) : Except FormatError Bytes := do
  entries.forM checkEntry
  pure (blockBytes entries)

open Cursor in
def readEntry (off : Nat) : Cursor FormatError (Entry × Nat) := do
  need entryHeaderSize (.entryHeader off)
  let flags ← byte
  let keyLen ← u32
  let valLen ← u32
  refuse (keyLen = 0 ∨ maxKeySize < keyLen) (.keyLength keyLen off)
  refuse (maxValueSize < valLen) (.valueLength valLen off)
  need keyLen (.entryKey (off + entryHeaderSize))
  let key ← bytes keyLen
  refuse (flags &&& tombstoneFlag ≠ 0 ∧ valLen ≠ 0) (.tombstoneValue (off + entryHeaderSize + keyLen))
  need valLen (.entryValue (off + entryHeaderSize + keyLen))
  let value ← bytes valLen
  pure (⟨key, value, flags &&& tombstoneFlag ≠ 0⟩, off + entryHeaderSize + keyLen + valLen)

open Cursor in
def decodeBlock (data : Bytes) (crc : Bytes → UInt32 := checksum) : Cursor FormatError (List Entry) := do
  refuse (data.length < blockChecksumSize) (.blockTooSmall data.length)
  let payload ← checkSealed crc data .blockChecksum
  seek payload
  untilEnd readEntry payload.length 0

def compareBytes (left right : Bytes) : Ordering := if left < right then .lt else if left = right then .eq else .gt

def searchBlockEntries (entries : List Entry) (key : Bytes) : Option Entry :=
  let compare := fun mid =>
    match entries[mid]? with
    | some e => compareBytes e.key key
    | none => .gt
  (probe compare entries.length 0 entries.length).bind fun mid => entries[mid]?

/-! ### The index -/

def indexEntryHeaderSize : Nat := 4 + 8 + 8

structure IndexEntry where
  firstKey : Bytes
  blockOffset : UInt64
  blockLength : UInt64
  deriving DecidableEq, Repr

def checkIndexEntry (e : IndexEntry) : Except FormatError Unit :=
  if e.firstKey.length = 0 ∨ maxKeySize < e.firstKey.length then .error (.encodeIndexKey e.firstKey.length) else .ok ()

def encodeIndexEntry (e : IndexEntry) : Bytes :=
  putUint32 e.firstKey.length ++ (putUint64 e.blockOffset ++ (putUint64 e.blockLength ++ e.firstKey))

def indexBytes (entries : List IndexEntry) : Bytes := Cursor.sealed checksum (entries.flatMap encodeIndexEntry)

def encodeIndex (entries : List IndexEntry) : Except FormatError Bytes := do
  entries.forM checkIndexEntry
  pure (indexBytes entries)

open Cursor in
def readIndexEntry (off : Nat) : Cursor FormatError (IndexEntry × Nat) := do
  need indexEntryHeaderSize (.indexEntry off)
  let keyLen ← u32
  let blockOffset ← u64
  let blockLength ← u64
  refuse (keyLen = 0 ∨ maxKeySize < keyLen) (.indexKeyLength keyLen off)
  need keyLen (.indexKey (off + indexEntryHeaderSize))
  let key ← bytes keyLen
  pure (⟨key, blockOffset, blockLength⟩, off + indexEntryHeaderSize + keyLen)

open Cursor in
def decodeIndex (data : Bytes) (crc : Bytes → UInt32 := checksum) : Cursor FormatError (List IndexEntry) := do
  refuse (data.length < 4) (.indexTooSmall data.length)
  let payload ← checkSealed crc data .indexChecksum
  seek payload
  untilEnd readIndexEntry payload.length 0

/-! ### The metadata block -/

structure Meta where
  numEntries : UInt64
  minKey : Bytes
  maxKey : Bytes
  deriving DecidableEq, Repr

def encodeMeta (m : Meta) : Bytes :=
  Cursor.sealed checksum (putUint64 m.numEntries ++ (putBytes m.minKey ++ putBytes m.maxKey))

open Cursor in
def readKey (badLength : Nat → FormatError) : Cursor FormatError Bytes := do
  need 4 .truncatedMeta
  let keyLen ← u32
  refuse (keyLen = 0 ∨ maxKeySize < keyLen) (badLength keyLen)
  need keyLen .truncatedMeta
  bytes keyLen

open Cursor in
def decodeMeta (data : Bytes) (crc : Bytes → UInt32 := checksum) : Cursor FormatError Meta := do
  seek data
  need 8 .truncatedMeta
  let numEntries ← u64
  let minKey ← readKey .minKeyLength
  let maxKey ← readKey .maxKeyLength
  need 4 .truncatedMeta
  let size ← left
  refuse (size ≠ 4) .trailingMeta
  let _ ← checkSealed crc data .metaChecksum
  pure ⟨numEntries, minKey, maxKey⟩

/-! ### The footer -/

def magic : Bytes := [70, 111, 114, 103, 101, 83, 83, 84]

def formatVersion1 : Nat := 1

def footerSize : Nat := 8 + 4 + 8 * 6 + 4

structure Footer where
  indexOffset : UInt64
  indexLength : UInt64
  bloomOffset : UInt64
  bloomLength : UInt64
  metaOffset : UInt64
  metaLength : UInt64
  deriving DecidableEq, Repr

def footerFields (f : Footer) : Bytes :=
  putUint64 f.indexOffset ++ (putUint64 f.indexLength ++ (putUint64 f.bloomOffset ++ (putUint64 f.bloomLength ++
    (putUint64 f.metaOffset ++ putUint64 f.metaLength))))

def encodeFooter (f : Footer) : Bytes :=
  Cursor.sealed checksum (magic ++ (putUint32 formatVersion1 ++ footerFields f))

def validateSection (part : Section) (offset length : UInt64) (bodySize : Nat) : Cursor FormatError Unit := do
  Cursor.refuse (length = 0) (.sectionEmpty part)
  Cursor.refuse (bodySize < offset.toNat) (.sectionOffset part offset.toNat bodySize)
  Cursor.refuse (bodySize - offset.toNat < length.toNat)
    (.sectionLength part length.toNat offset.toNat bodySize)

open Cursor in
def decodeFooter (buf : Bytes) (fileBodySize : Nat) (crc : Bytes → UInt32 := checksum) : Cursor FormatError Footer := do
  refuse (buf.length ≠ footerSize) (.footerSize buf.length)
  header buf magic formatVersion1 .badMagic .badVersion
  let _ ← checkSealed crc buf .footerChecksum
  let fields ← slice buf 12 60
  seek fields
  let indexOffset ← u64
  let indexLength ← u64
  let bloomOffset ← u64
  let bloomLength ← u64
  let metaOffset ← u64
  let metaLength ← u64
  validateSection .index indexOffset indexLength fileBodySize
  validateSection .bloom bloomOffset bloomLength fileBodySize
  validateSection .metadata metaOffset metaLength fileBodySize
  pure ⟨indexOffset, indexLength, bloomOffset, bloomLength, metaOffset, metaLength⟩

/-! ### What the readers give back -/

structure Entry.Stored (e : Entry) : Prop where
  named : e.key ≠ []
  keyFits : e.key.length ≤ maxKeySize
  valueFits : e.value.length ≤ maxValueSize
  bare : e.tombstone = true → e.value = []

theorem checkEntry_ok {e : Entry} (passed : checkEntry e = .ok ()) :
    e.key ≠ [] ∧ e.key.length ≤ maxKeySize ∧ e.value.length ≤ maxValueSize := by
  unfold checkEntry at passed
  split at passed
  · cases passed
  · rename_i named
    split at passed
    · cases passed
    · rename_i keyFits
      split at passed
      · cases passed
      · rename_i valueFits
        exact ⟨named, Nat.not_lt.mp keyFits, Nat.not_lt.mp valueFits⟩

theorem forM_ok {ε α : Type} {check : α → Except ε Unit} {list : List α} (passed : list.forM check = .ok ()) :
    ∀ value ∈ list, check value = .ok () := by
  induction list with
  | nil => exact fun value present => by cases present
  | cons first rest ih =>
    change (check first >>= fun _ => rest.forM check) = .ok () at passed
    cases found : check first with
    | error error =>
      rw [found] at passed
      cases passed
    | ok done =>
      rw [found] at passed
      exact List.forall_mem_cons.mpr ⟨found, ih passed⟩

theorem checked_ok {ε α : Type} {check : α → Except ε Unit} {list : List α} {bytes result : Bytes}
    (done : (do list.forM check; pure bytes : Except ε Bytes) = .ok result) :
    result = bytes ∧ ∀ value ∈ list, check value = .ok () := by
  cases passed : list.forM check with
  | error error =>
    rw [passed] at done
    cases done
  | ok _ =>
    rw [passed] at done
    cases done
    exact ⟨rfl, forM_ok passed⟩

theorem encodeEntry_stored {e : Entry} (stored : e.Stored) :
    encodeEntry e = (if e.tombstone then tombstoneFlag else 0) ::
      (putUint32 e.key.length ++ (putUint32 e.value.length ++ (e.key ++ e.value))) := by
  unfold encodeEntry
  cases dead : e.tombstone with
  | false => rfl
  | true =>
    rw [stored.bare dead]
    rfl

theorem encodeEntry_filled (e : Entry) : encodeEntry e ≠ [] := List.cons_ne_nil _ _

theorem readEntry_encode {e : Entry} (stored : e.Stored) (off : Nat) (rest : Bytes) :
    readEntry off (encodeEntry e ++ rest) =
      .ok (e, off + entryHeaderSize + e.key.length + e.value.length) rest := by
  have key : e.key.length < 2 ^ 32 := lt_of_le_of_lt stored.keyFits (by decide)
  have value : e.value.length < 2 ^ 32 := lt_of_le_of_lt stored.valueFits (by decide)
  have named : e.key.length ≠ 0 := fun empty => stored.named (List.length_eq_zero_iff.mp empty)
  have flag : ((if e.tombstone then tombstoneFlag else 0) &&& tombstoneFlag ≠ 0) ↔ e.tombstone = true := by
    cases e.tombstone <;> decide
  have keyFits := stored.keyFits
  have valueFits := stored.valueFits
  rw [encodeEntry_stored stored]
  simp only [List.cons_append, List.append_assoc]
  rw [readEntry, Cursor.bind_ok (Cursor.need_long (by
      simp only [List.length_cons, List.length_append, putUint32_length, entryHeaderSize]; omega) _),
    Cursor.bind_ok (Cursor.byte_cons _ _), Cursor.bind_ok (Cursor.u32_put key _),
    Cursor.bind_ok (Cursor.u32_put value _), Cursor.bind_ok (Cursor.refuse_not (by omega) _ _),
    Cursor.bind_ok (Cursor.refuse_not (by omega) _ _),
    Cursor.bind_ok (Cursor.need_long (by rw [List.length_append]; omega) _), Cursor.bind_ok (Cursor.bytes_append _ _),
    Cursor.bind_ok (Cursor.refuse_not (by
      rw [flag]
      rintro ⟨dead, filled⟩
      rw [stored.bare dead] at filled
      exact filled rfl) _ _),
    Cursor.bind_ok (Cursor.need_long (by rw [List.length_append]; omega) _), Cursor.bind_ok (Cursor.bytes_append _ _)]
  simp only [flag, Bool.decide_eq_true]
  rfl

theorem decodeBlock_blockBytes {entries : List Entry} (stored : ∀ e ∈ entries, e.Stored) (data : Bytes) :
    decodeBlock (blockBytes entries) checksum data = .ok entries [] := by
  have checked : ∀ rest, Cursor.checkSealed checksum (blockBytes entries) FormatError.blockChecksum rest =
      .ok (entries.flatMap encodeEntry) rest := Cursor.checkSealed_sealed checksum _ _
  have long : (blockBytes entries).length = (entries.flatMap encodeEntry).length + 4 := Cursor.sealed_length _ _
  rw [decodeBlock, Cursor.bind_ok (Cursor.refuse_not (by rw [long, blockChecksumSize]; omega) _ _),
    Cursor.bind_ok (checked _), Cursor.bind_ok (Cursor.seek_apply _ _)]
  exact Cursor.untilEnd_encode (fun e present off rest => readEntry_encode (stored e present) off rest)
    (fun e _ => encodeEntry_filled e) (Nat.le_refl _) 0

theorem checkIndexEntry_ok {e : IndexEntry} (passed : checkIndexEntry e = .ok ()) :
    0 < e.firstKey.length ∧ e.firstKey.length ≤ maxKeySize := by
  unfold checkIndexEntry at passed
  split at passed
  · cases passed
  · omega

theorem readIndexEntry_encode {e : IndexEntry} (passed : checkIndexEntry e = .ok ()) (off : Nat) (rest : Bytes) :
    readIndexEntry off (encodeIndexEntry e ++ rest) =
      .ok (e, off + indexEntryHeaderSize + e.firstKey.length) rest := by
  obtain ⟨named, fits⟩ := checkIndexEntry_ok passed
  have key : e.firstKey.length < 2 ^ 32 := lt_of_le_of_lt fits (by decide)
  simp only [encodeIndexEntry, List.append_assoc]
  rw [readIndexEntry, Cursor.bind_ok (Cursor.need_long (by
      simp only [List.length_append, putUint32_length, putUint64_length, indexEntryHeaderSize]; omega) _),
    Cursor.bind_ok (Cursor.u32_put key _), Cursor.bind_ok (Cursor.u64_put _ _), Cursor.bind_ok (Cursor.u64_put _ _),
    Cursor.bind_ok (Cursor.refuse_not (by omega) _ _),
    Cursor.bind_ok (Cursor.need_long (by rw [List.length_append]; omega) _), Cursor.bind_ok (Cursor.bytes_append _ _)]
  rfl

theorem encodeIndexEntry_filled (e : IndexEntry) : encodeIndexEntry e ≠ [] := by
  apply List.ne_nil_of_length_pos
  rw [encodeIndexEntry, List.length_append, putUint32_length]
  omega

theorem decodeIndex_indexBytes {entries : List IndexEntry} (passed : ∀ e ∈ entries, checkIndexEntry e = .ok ())
    (data : Bytes) : decodeIndex (indexBytes entries) checksum data = .ok entries [] := by
  have checked : ∀ rest, Cursor.checkSealed checksum (indexBytes entries) FormatError.indexChecksum rest =
      .ok (entries.flatMap encodeIndexEntry) rest := Cursor.checkSealed_sealed checksum _ _
  have long : (indexBytes entries).length = (entries.flatMap encodeIndexEntry).length + 4 := Cursor.sealed_length _ _
  rw [decodeIndex, Cursor.bind_ok (Cursor.refuse_not (by rw [long]; omega) _ _),
    Cursor.bind_ok (checked _), Cursor.bind_ok (Cursor.seek_apply _ _)]
  exact Cursor.untilEnd_encode (fun e present off rest => readIndexEntry_encode (passed e present) off rest)
    (fun e _ => encodeIndexEntry_filled e) (Nat.le_refl _) 0

theorem readKey_put {key : Bytes} (named : key ≠ []) (fits : key.length ≤ maxKeySize) (badLength : Nat → FormatError)
    (rest : Bytes) : readKey badLength (putBytes key ++ rest) = .ok key rest := by
  have positive : key.length ≠ 0 := fun empty => named (List.length_eq_zero_iff.mp empty)
  have word : key.length < 2 ^ 32 := lt_of_le_of_lt fits (by decide)
  rw [putBytes, List.append_assoc, readKey,
    Cursor.bind_ok (Cursor.need_long (by rw [List.length_append, putUint32_length]; omega) _),
    Cursor.bind_ok (Cursor.u32_put word _), Cursor.bind_ok (Cursor.refuse_not (by omega) _ _),
    Cursor.bind_ok (Cursor.need_long (by rw [List.length_append]; omega) _), Cursor.bytes_append]

theorem decodeMeta_encodeMeta {m : Meta} (minNamed : m.minKey ≠ []) (minFits : m.minKey.length ≤ maxKeySize)
    (maxNamed : m.maxKey ≠ []) (maxFits : m.maxKey.length ≤ maxKeySize) (data : Bytes) :
    ∃ rest, decodeMeta (encodeMeta m) checksum data = .ok m rest := by
  have checked : ∀ rest, Cursor.checkSealed checksum (encodeMeta m) FormatError.metaChecksum rest =
      .ok (putUint64 m.numEntries ++ (putBytes m.minKey ++ putBytes m.maxKey)) rest :=
    Cursor.checkSealed_sealed checksum _ _
  have shape : ∃ sum : Bytes, sum.length = 4 ∧
      encodeMeta m = putUint64 m.numEntries ++ (putBytes m.minKey ++ (putBytes m.maxKey ++ sum)) := by
    refine ⟨putUint32 (checksum (putUint64 m.numEntries ++ (putBytes m.minKey ++ putBytes m.maxKey))).toNat,
      putUint32_length _, ?_⟩
    simp only [encodeMeta, Cursor.sealed, List.append_assoc]
  obtain ⟨sum, four, shape⟩ := shape
  refine ⟨sum, ?_⟩
  rw [decodeMeta, Cursor.bind_ok (Cursor.seek_apply _ _)]
  nth_rewrite 2 [shape]
  rw [Cursor.bind_ok (Cursor.need_long (by rw [List.length_append, putUint64_length]; omega) _),
    Cursor.bind_ok (Cursor.u64_put _ _), Cursor.bind_ok (readKey_put minNamed minFits _ _),
    Cursor.bind_ok (readKey_put maxNamed maxFits _ _), Cursor.bind_ok (Cursor.need_long (Nat.le_of_eq four.symm) _),
    Cursor.bind_ok (Cursor.left_apply _), Cursor.bind_ok (Cursor.refuse_not (not_not.mpr four) _ _),
    Cursor.bind_ok (checked _)]
  rfl

theorem validateSection_ok {part : Section} {offset length : UInt64} {bodySize : Nat} (filled : length ≠ 0)
    (inside : offset.toNat + length.toNat ≤ bodySize) (data : Bytes) :
    validateSection part offset length bodySize data = .ok () data := by
  rw [validateSection, Cursor.bind_ok (Cursor.refuse_not filled _ _), Cursor.bind_ok (Cursor.refuse_not (by omega) _ _),
    Cursor.refuse_not (by omega)]

structure Footer.Inside (f : Footer) (bodySize : Nat) : Prop where
  indexFilled : f.indexLength ≠ 0
  index : f.indexOffset.toNat + f.indexLength.toNat ≤ bodySize
  bloomFilled : f.bloomLength ≠ 0
  bloom : f.bloomOffset.toNat + f.bloomLength.toNat ≤ bodySize
  metaFilled : f.metaLength ≠ 0
  metadata : f.metaOffset.toNat + f.metaLength.toNat ≤ bodySize

theorem encodeFooter_length (f : Footer) : (encodeFooter f).length = footerSize := rfl

theorem decodeFooter_encodeFooter {f : Footer} {bodySize : Nat} (inside : f.Inside bodySize) (data : Bytes) :
    decodeFooter (encodeFooter f) bodySize checksum data = .ok f [] := by
  have front : ∀ rest, Cursor.header (encodeFooter f) magic formatVersion1 FormatError.badMagic
      FormatError.badVersion rest = .ok () rest := by
    intro rest
    rw [encodeFooter, Cursor.sealed, List.append_assoc, List.append_assoc]
    exact Cursor.header_put rfl (by decide) _ _ _ rest
  have checked : ∀ rest, Cursor.checkSealed checksum (encodeFooter f) FormatError.footerChecksum rest =
      .ok (magic ++ (putUint32 formatVersion1 ++ footerFields f)) rest := Cursor.checkSealed_sealed checksum _ _
  have fields : ∀ rest, (Cursor.slice (encodeFooter f) 12 60 : Cursor FormatError Bytes) rest =
      .ok (footerFields f) rest := by
    intro rest
    have shape : encodeFooter f = (magic ++ putUint32 formatVersion1) ++ (footerFields f ++
        putUint32 (checksum (magic ++ (putUint32 formatVersion1 ++ footerFields f))).toNat) := by
      simp only [encodeFooter, Cursor.sealed, List.append_assoc]
    have before : (magic ++ putUint32 formatVersion1).length = 12 := rfl
    rw [shape]
    exact Cursor.slice_append before rfl rest
  rw [decodeFooter, Cursor.bind_ok (Cursor.refuse_not (not_not.mpr (encodeFooter_length f)) _ _),
    Cursor.bind_ok (front _), Cursor.bind_ok (checked _), Cursor.bind_ok (fields _),
    Cursor.bind_ok (Cursor.seek_apply _ _), footerFields, Cursor.bind_ok (Cursor.u64_put _ _),
    Cursor.bind_ok (Cursor.u64_put _ _), Cursor.bind_ok (Cursor.u64_put _ _), Cursor.bind_ok (Cursor.u64_put _ _),
    Cursor.bind_ok (Cursor.u64_put _ _), ← List.append_nil (putUint64 f.metaLength),
    Cursor.bind_ok (Cursor.u64_put _ _), Cursor.bind_ok (validateSection_ok inside.indexFilled inside.index _),
    Cursor.bind_ok (validateSection_ok inside.bloomFilled inside.bloom _),
    Cursor.bind_ok (validateSection_ok inside.metaFilled inside.metadata _)]
  rfl

/-! ### The search in a block -/

theorem compareBytes_lt {left right : Bytes} (below : left < right) : compareBytes left right = .lt := if_pos below

theorem compareBytes_eq (key : Bytes) : compareBytes key key = .eq := by
  rw [compareBytes, if_neg (lt_irrefl key), if_pos rfl]

theorem compareBytes_gt {left right : Bytes} (above : right < left) : compareBytes left right = .gt := by
  rw [compareBytes, if_neg (lt_asymm above), if_neg (ne_of_gt above)]

theorem eq_of_compareBytes {left right : Bytes} (same : compareBytes left right = .eq) : left = right := by
  rcases lt_trichotomy left right with below | equal | above
  · rw [compareBytes_lt below] at same
    cases same
  · exact equal
  · rw [compareBytes_gt above] at same
    cases same

theorem searchBlockEntries_absent {entries : List Entry} {key : Bytes} (absent : ∀ e ∈ entries, e.key ≠ key) :
    searchBlockEntries entries key = none := by
  unfold searchBlockEntries
  dsimp only
  rw [probe_eq_none]
  · rfl
  · intro i _ _
    split
    · rename_i e there
      exact fun same => absent e (List.mem_of_getElem? there) (eq_of_compareBytes same)
    · exact Ordering.noConfusion

theorem searchBlockEntries_present {entries : List Entry}
    (sorted : entries.Pairwise fun first second => first.key < second.key) {e : Entry} (present : e ∈ entries) :
    searchBlockEntries entries e.key = some e := by
  obtain ⟨here, inside, there⟩ := List.getElem_of_mem present
  have found : entries[here]? = some e := by rw [List.getElem?_eq_getElem inside, there]
  have ordered := List.pairwise_iff_getElem.mp sorted
  unfold searchBlockEntries
  dsimp only
  rw [probe_eq_some (Nat.le_of_eq (Nat.sub_zero _)) (Nat.zero_le _) inside]
  · exact found
  · rw [found]
    exact compareBytes_eq e.key
  · intro i before
    rw [List.getElem?_eq_getElem (Nat.lt_trans before inside)]
    exact compareBytes_lt (there ▸ ordered i here (Nat.lt_trans before inside) inside before)
  · intro i behind last
    rw [List.getElem?_eq_getElem last]
    exact compareBytes_gt (there ▸ ordered here i inside last behind)

end ForgeDB.Storage.SSTable
