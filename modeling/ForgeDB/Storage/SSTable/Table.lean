import ForgeDB.Storage.SSTable.Bloom

/-!
A whole SSTable: the writer that packs sorted entries into blocks and lays the sections out one
after another, the reader that finds its way back from the footer, and the iterator over the blocks.
-/

namespace ForgeDB.Storage.SSTable

def defaultBlockSize : Nat := 4096

def maxInt : Nat := 2 ^ 63 - 1

inductive TableError where
  | emptyKey
  | unordered (key lastKey : Bytes)
  | noEntries
  | encodeBlock (error : FormatError)
  | encodeIndex (error : FormatError)
  | tooSmall (size : Nat)
  | malformed (error : FormatError)
  | readSection (part : Section)
  | blockOutside
  | emptyLookup
  | readBlock (offset : Nat)
  | decodeBlock (offset : Nat) (error : FormatError)
  | iteratorRead (offset : Nat)
  | iteratorDecode (offset : Nat) (error : FormatError)
  deriving DecidableEq, Repr

/-- The texts around the paths, the quoted keys and the file system's own errors. -/
def TableError.text : TableError → String
  | emptyKey => "sstable: entry key must not be empty"
  | unordered _ _ => "sstable: keys must be added in strictly increasing order"
  | noEntries => "sstable: cannot build an sstable with no entries"
  | encodeBlock error => let why := error.text; s!"sstable: encode data block: {why}"
  | encodeIndex error => let why := error.text; s!"sstable: encode index: {why}"
  | tooSmall size => s!"sstable: is too small ({size} bytes) to contain a footer: sstable: corrupt file"
  | malformed error => let why := error.text; s!"sstable: {why}"
  | readSection part => let name := part.name; s!"sstable: read {name} section"
  | blockOutside => "sstable: index entry references block outside data region: sstable: corrupt file"
  | emptyLookup => "sstable: key must not be empty"
  | readBlock offset => s!"sstable: read block at offset {offset}"
  | decodeBlock offset error => let why := error.text; s!"sstable: decode block at offset {offset}: {why}"
  | iteratorRead offset => s!"sstable: iterator: read block at offset {offset}"
  | iteratorDecode offset error =>
    let why := error.text; s!"sstable: iterator: decode block at offset {offset}: {why}"

/-! ### The writer -/

structure Writer where
  entries : List Entry
  lastKey : Bytes
  hasLast : Bool
  deriving DecidableEq, Repr

def newWriter : Writer := ⟨[], [], false⟩

def Entry.kept (e : Entry) : Entry := { e with value := if e.tombstone then [] else e.value }

def Writer.add (w : Writer) (e : Entry) : Except TableError Writer :=
  if e.key = [] then .error .emptyKey
  else if w.hasLast = true ∧ compareBytes e.key w.lastKey ≠ .gt then .error (.unordered e.key w.lastKey)
  else .ok ⟨w.entries ++ [e.kept], e.key, true⟩

def Writer.addAll (w : Writer) (adds : List Entry) : Except TableError Writer := adds.foldlM Writer.add w

structure Builder where
  body : Bytes
  index : List IndexEntry
  block : List Entry
  blockSize : Nat

def Builder.flushBlock (b : Builder) : Except TableError Builder :=
  match b.block with
  | [] => .ok b
  | first :: _ =>
    match SSTable.encodeBlock b.block with
    | .error error => .error (.encodeBlock error)
    | .ok encoded =>
      .ok ⟨b.body ++ encoded,
        b.index ++ [⟨first.key, UInt64.ofNat b.body.length, UInt64.ofNat encoded.length⟩], [], 0⟩

def Builder.pack (b : Builder) (e : Entry) : Except TableError Builder :=
  let blockSize := b.blockSize + (entryHeaderSize + e.key.length + e.value.length)
  let b := { b with block := b.block ++ [e], blockSize := blockSize }
  if defaultBlockSize ≤ blockSize then b.flushBlock else .ok b

/-- The sections behind the data blocks, each at the offset where the one before it ended. -/
def sections (data indexBytes : Bytes) (bloom : BloomFilter) (summary : Meta) : Bytes :=
  let bloomBytes := encodeBloom bloom
  let metaBytes := encodeMeta summary
  let bloomOffset := data.length + indexBytes.length
  let metaOffset := bloomOffset + bloomBytes.length
  indexBytes ++ (bloomBytes ++ (metaBytes ++ encodeFooter
    ⟨UInt64.ofNat data.length, UInt64.ofNat indexBytes.length, UInt64.ofNat bloomOffset,
      UInt64.ofNat bloomBytes.length, UInt64.ofNat metaOffset, UInt64.ofNat metaBytes.length⟩))

/-- What `Build` hands to the file system. The Bloom filter is sized by the number of entries. -/
def Writer.contents (w : Writer) (sizing : Nat → BloomSize) : Except TableError Bytes :=
  match w.entries, w.entries.getLast? with
  | first :: _, some last => do
    let b ← w.entries.foldlM Builder.pack ⟨[], [], [], 0⟩
    let b ← b.flushBlock
    match SSTable.encodeIndex b.index with
    | .error error => .error (.encodeIndex error)
    | .ok indexBytes =>
      let bloom := (w.entries.map Entry.key).foldl BloomFilter.add (newBloomFilter (sizing w.entries.length))
      .ok (b.body ++ sections b.body indexBytes bloom ⟨UInt64.ofNat w.entries.length, first.key, last.key⟩)
  | _, _ => .error .noEntries

/-- The file of the table; nothing if the buffer outgrows an `int`, which panics. -/
def Writer.build (w : Writer) (sizing : Nat → BloomSize) : Option (Except TableError Bytes) :=
  match w.contents sizing with
  | .error error => some (.error error)
  | .ok file => if maxInt < file.length then none else some (.ok file)

/-! ### The reader -/

structure Reader where
  file : Bytes
  index : List IndexEntry
  bloom : BloomFilter
  summary : Meta
  deriving DecidableEq, Repr

inductive Result where
  | notFound
  | found
  | tombstone
  deriving DecidableEq, Repr

open Cursor in
def readSection {α : Type} (file : Bytes) (part : Section) (offset length : UInt64)
    (decode : Bytes → Cursor FormatError α) : Cursor TableError α := do
  let buf ← readAt file offset.toNat length.toNat (.readSection part)
  wrap .malformed (decode buf)

open Cursor in
def readTable (file : Bytes) (crc : Bytes → UInt32 := checksum) : Cursor TableError Reader := do
  refuse (file.length < footerSize) (.tooSmall file.length)
  let footerBuf ← slice file (file.length - footerSize) file.length
  let ft ← wrap .malformed (decodeFooter footerBuf (file.length - footerSize) crc)
  let index ← readSection file .index ft.indexOffset ft.indexLength fun buf => decodeIndex buf crc
  let bloom ← readSection file .bloom ft.bloomOffset ft.bloomLength fun buf => decodeBloom buf crc
  let summary ← readSection file .metadata ft.metaOffset ft.metaLength fun buf => decodeMeta buf crc
  refuse (∃ e ∈ index, ft.indexOffset < e.blockOffset ∨ ft.indexOffset - e.blockOffset < e.blockLength) .blockOutside
  pure ⟨file, index, bloom, summary⟩

def openTable (file : Bytes) (crc : Bytes → UInt32 := checksum) : Option (Except TableError Reader) :=
  (readTable file crc).run file

namespace Reader

def candidateBlock (r : Reader) (key : Bytes) : Option Nat :=
  let notAbove := fun mid =>
    match r.index[mid]? with
    | some e => compareBytes e.firstKey key ≠ .gt
    | none => false
  match bisect notAbove r.index.length 0 r.index.length with
  | 0 => none
  | lo + 1 => some lo

theorem candidateBlock_inside {r : Reader} {key : Bytes} {i : Nat} (found : r.candidateBlock key = some i) :
    i < r.index.length := by
  unfold candidateBlock at found
  dsimp only at found
  split at found
  · cases found
  · rename_i lo reached
    cases found
    rw [← Nat.succ_le_iff, ← reached]
    exact (bisect_within _ (Nat.zero_le r.index.length)).2

def block (r : Reader) (loc : IndexEntry) (unread : TableError) (undecoded : FormatError → TableError)
    (crc : Bytes → UInt32 := checksum) : Cursor TableError (List Entry) := do
  let buf ← Cursor.readAt r.file loc.blockOffset.toNat loc.blockLength.toNat unread
  Cursor.wrap undecoded (SSTable.decodeBlock buf crc)

open Cursor in
def lookUp (r : Reader) (key : Bytes) (crc : Bytes → UInt32 := checksum) : Cursor TableError (Bytes × Result) := do
  refuse (key = []) .emptyLookup
  if r.bloom.mightContain key then
    match r.candidateBlock key with
    | none => pure ([], .notFound)
    | some i => do
      let loc ← item r.index i
      let entries ← r.block loc (.readBlock loc.blockOffset.toNat) (.decodeBlock loc.blockOffset.toNat) crc
      match searchBlockEntries entries key with
      | none => pure ([], .notFound)
      | some e => if e.tombstone then pure ([], .tombstone) else pure (e.value, .found)
  else pure ([], .notFound)

def get (r : Reader) (key : Bytes) (crc : Bytes → UInt32 := checksum) : Option (Except TableError (Bytes × Result)) :=
  (r.lookUp key crc).run []

def count (r : Reader) : UInt64 := r.summary.numEntries

def minKey (r : Reader) : Bytes := r.summary.minKey

def maxKey (r : Reader) : Bytes := r.summary.maxKey

end Reader

/-! ### The iterator -/

structure Iterator where
  r : Reader
  nextBlock : Nat
  entries : List Entry
  served : Nat
  err : Option TableError
  deriving DecidableEq, Repr

def Reader.newIterator (r : Reader) : Iterator := ⟨r, 0, [], 0, none⟩

namespace Iterator

def advance : Nat → Iterator → (crc : Bytes → UInt32 := checksum) → Option (Iterator × Bool)
  | 0, _, _ => none
  | fuel + 1, it, crc =>
    if it.served < it.entries.length then some ({ it with served := it.served + 1 }, true)
    else
      match it.r.index[it.nextBlock]? with
      | none => some (it, false)
      | some loc =>
        match (it.r.block loc (.iteratorRead loc.blockOffset.toNat)
          (.iteratorDecode loc.blockOffset.toNat) crc).run [] with
        | none => none
        | some (.error error) => some ({ it with nextBlock := it.nextBlock + 1, err := some error }, false)
        | some (.ok entries) =>
          advance fuel { it with nextBlock := it.nextBlock + 1, entries := entries, served := 0 } crc

def next (it : Iterator) (crc : Bytes → UInt32 := checksum) : Option (Iterator × Bool) :=
  if it.err.isSome then some (it, false) else advance (it.r.index.length - it.nextBlock + 1) it crc

def entry (it : Iterator) : Option Entry :=
  match it.served with
  | 0 => none
  | pos + 1 => it.entries[pos]?

/-- The entries of `for it.Next()`, with the iterator at the end; nothing if it panics or the fuel runs out. -/
def walk : Nat → Iterator → (crc : Bytes → UInt32 := checksum) → Option (List Entry × Iterator)
  | 0, _, _ => none
  | fuel + 1, it, crc => do
    let (it, more) ← it.next crc
    if more then
      let e ← it.entry
      let (rest, last) ← walk fuel it crc
      pure (e :: rest, last)
    else pure ([], it)

end Iterator

end ForgeDB.Storage.SSTable
