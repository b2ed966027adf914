import ForgeDB.Storage.SSTable.Format

/-!
The Bloom filter of a table. A key that was added is never reported absent: `mightContain` looks at
exactly the bits that `add` set, and no later key clears a bit.
-/

namespace ForgeDB.Storage.SSTable

structure BloomFilter where
  numHashes : UInt8
  numBits : UInt64
  bits : Bytes
  deriving DecidableEq, Repr

def maxBloomBits : Nat := 2 ^ 34

/-- What the floating-point formulas of `newBloomFilter` come to: numbers within these bounds. -/
structure BloomSize where
  numHashes : UInt8
  numBits : UInt64
  someHashes : 1 ≤ numHashes.toNat
  fewHashes : numHashes.toNat ≤ 30
  someBits : 64 ≤ numBits.toNat
  fewBits : numBits.toNat ≤ maxBloomBits

def newBloomFilter (size : BloomSize) : BloomFilter :=
  ⟨size.numHashes, size.numBits, List.replicate ((size.numBits.toNat + 7) / 8) 0⟩

def offset64 : UInt64 := 14695981039346656037

def prime64 : UInt64 := 1099511628211

def fnv64a (key : Bytes) : UInt64 := key.foldl (fun hash byte => (hash ^^^ byte.toUInt64) * prime64) offset64

def fnv64 (key : Bytes) : UInt64 := key.foldl (fun hash byte => (hash * prime64) ^^^ byte.toUInt64) offset64

def bitMask (idx : Nat) : UInt8 := 1 <<< UInt8.ofNat (idx % 8)

def setBit (bits : Bytes) (idx : Nat) : Bytes := bits.modify (idx / 8) fun byte => byte ||| bitMask idx

def hasBit (bits : Bytes) (idx : Nat) : Bool :=
  match bits[idx / 8]? with
  | some byte => byte &&& bitMask idx ≠ 0
  | none => false

namespace BloomFilter

def probes (b : BloomFilter) (key : Bytes) : List Nat :=
  let h1 := fnv64a key
  let h2 := fnv64 key
  (List.range b.numHashes.toNat).map fun i => ((h1 + UInt64.ofNat i * h2) % b.numBits).toNat

def add (b : BloomFilter) (key : Bytes) : BloomFilter := { b with bits := (b.probes key).foldl setBit b.bits }

def mightContain (b : BloomFilter) (key : Bytes) : Bool := (b.probes key).all (hasBit b.bits)

end BloomFilter

def bloomHeaderSize : Nat := 1 + 8 + 4

def bloomBody (b : BloomFilter) : Bytes :=
  b.numHashes :: (putUint64 b.numBits ++ (putUint32 b.bits.length ++ b.bits))

def encodeBloom (b : BloomFilter) : Bytes := Cursor.sealed checksum (bloomBody b)

open Cursor in
def decodeBloom (data : Bytes) (crc : Bytes → UInt32 := checksum) : Cursor FormatError BloomFilter := do
  refuse (data.length < bloomHeaderSize + 4) (.bloomTooSmall data.length)
  seek data
  let numHashes ← byte
  let numBits ← u64
  let bitsLen ← u32
  refuse (numHashes = 0 ∨ 64 < numHashes) (.hashCount numHashes.toNat)
  refuse (numBits = 0 ∨ maxBloomBits < numBits.toNat) (.bitCount numBits.toNat)
  refuse (bitsLen ≠ (numBits.toNat + 7) / 8) (.bitArrayLength bitsLen numBits.toNat)
  refuse (data.length ≠ bloomHeaderSize + bitsLen + 4) .bloomSize
  let _ ← checkSealed crc data .bloomChecksum
  let bits ← slice data bloomHeaderSize (bloomHeaderSize + bitsLen)
  pure ⟨numHashes, numBits, bits⟩

/-! ### No key added is reported absent -/

theorem bitMask_ne_zero (idx : Nat) : bitMask idx ≠ 0 := by
  have few : ∀ k < 8, (1 : UInt8) <<< UInt8.ofNat k ≠ 0 := by decide
  exact few _ (Nat.mod_lt _ (by decide))

theorem or_and_self (byte mask : UInt8) : (byte ||| mask) &&& mask = mask := by
  apply UInt8.toBitVec_inj.mp
  ext i
  simp only [UInt8.toBitVec_and, UInt8.toBitVec_or, BitVec.getElem_and, BitVec.getElem_or]
  cases byte.toBitVec[i] <;> cases mask.toBitVec[i] <;> rfl

theorem and_ne_zero_or {byte mask : UInt8} (other : UInt8) (set : byte &&& mask ≠ 0) :
    (byte ||| other) &&& mask ≠ 0 := by
  intro cleared
  apply set
  have absorbed : byte &&& mask = byte &&& ((byte ||| other) &&& mask) := by
    apply UInt8.toBitVec_inj.mp
    ext i
    simp only [UInt8.toBitVec_and, UInt8.toBitVec_or, BitVec.getElem_and, BitVec.getElem_or]
    cases byte.toBitVec[i] <;> cases mask.toBitVec[i] <;> cases other.toBitVec[i] <;> rfl
  rw [absorbed, cleared]
  simp

theorem hasBit_iff (bits : Bytes) (idx : Nat) :
    hasBit bits idx = true ↔ ∃ byte, bits[idx / 8]? = some byte ∧ byte &&& bitMask idx ≠ 0 := by
  unfold hasBit
  cases bits[idx / 8]? with
  | none =>
    constructor
    · intro set
      cases set
    · rintro ⟨byte, there, _⟩
      cases there
  | some byte =>
    constructor
    · intro set
      exact ⟨byte, rfl, of_decide_eq_true set⟩
    · rintro ⟨byte, there, set⟩
      cases there
      exact decide_eq_true set

theorem hasBit_setBit_self {bits : Bytes} {idx : Nat} (inside : idx / 8 < bits.length) :
    hasBit (setBit bits idx) idx = true := by
  refine (hasBit_iff _ _).mpr ⟨bits[idx / 8] ||| bitMask idx, ?_, ?_⟩
  · rw [setBit, List.getElem?_modify_eq, List.getElem?_eq_getElem inside]
    rfl
  · rw [or_and_self]
    exact bitMask_ne_zero idx

theorem hasBit_setBit {bits : Bytes} {idx : Nat} (other : Nat) (set : hasBit bits idx = true) :
    hasBit (setBit bits other) idx = true := by
  obtain ⟨byte, there, set⟩ := (hasBit_iff _ _).mp set
  rw [hasBit_iff, setBit, List.getElem?_modify, there]
  by_cases same : other / 8 = idx / 8
  · exact ⟨byte ||| bitMask other, congrArg some (if_pos same), and_ne_zero_or _ set⟩
  · exact ⟨byte, congrArg some (if_neg same), set⟩

theorem setBit_length (bits : Bytes) (idx : Nat) : (setBit bits idx).length = bits.length := List.length_modify ..

theorem foldl_setBit_length (positions : List Nat) (bits : Bytes) :
    (positions.foldl setBit bits).length = bits.length := by
  induction positions generalizing bits with
  | nil => rfl
  | cons first rest ih => rw [List.foldl_cons, ih, setBit_length]

theorem hasBit_foldl (positions : List Nat) {bits : Bytes} {idx : Nat} (set : hasBit bits idx = true) :
    hasBit (positions.foldl setBit bits) idx = true := by
  induction positions generalizing bits with
  | nil => exact set
  | cons first rest ih => exact ih (hasBit_setBit first set)

theorem hasBit_foldl_mem {positions : List Nat} {bits : Bytes} {idx : Nat} (present : idx ∈ positions)
    (inside : idx / 8 < bits.length) : hasBit (positions.foldl setBit bits) idx = true := by
  induction positions generalizing bits with
  | nil => cases present
  | cons first rest ih =>
    rw [List.foldl_cons]
    rcases List.mem_cons.mp present with rfl | later
    · exact hasBit_foldl rest (hasBit_setBit_self inside)
    · exact ih later (by rw [setBit_length]; exact inside)

namespace BloomFilter

structure Sized (b : BloomFilter) : Prop where
  someHashes : 1 ≤ b.numHashes.toNat
  fewHashes : b.numHashes.toNat ≤ 64
  someBits : b.numBits ≠ 0
  fewBits : b.numBits.toNat ≤ maxBloomBits
  bytes : b.bits.length = (b.numBits.toNat + 7) / 8

variable {b : BloomFilter}

theorem probes_inside (sized : b.Sized) {key : Bytes} {idx : Nat} (present : idx ∈ b.probes key) :
    idx / 8 < b.bits.length := by
  obtain ⟨i, _, rfl⟩ := List.mem_map.mp present
  have positive : 0 < b.numBits.toNat := Nat.pos_of_ne_zero fun zero => sized.someBits (UInt64.toNat_inj.mp zero)
  have below := Nat.mod_lt (fnv64a key + UInt64.ofNat i * fnv64 key).toNat positive
  rw [UInt64.toNat_mod, sized.bytes]
  omega

theorem mightContain_add_self (sized : b.Sized) (key : Bytes) : (b.add key).mightContain key = true :=
  List.all_eq_true.mpr fun _ present => hasBit_foldl_mem present (probes_inside sized present)

theorem mightContain_add (other : Bytes) {key : Bytes} (contained : b.mightContain key = true) :
    (b.add other).mightContain key = true :=
  List.all_eq_true.mpr fun _ present => hasBit_foldl _ (List.all_eq_true.mp contained _ present)

theorem Sized.add (sized : b.Sized) (key : Bytes) : (b.add key).Sized :=
  ⟨sized.someHashes, sized.fewHashes, sized.someBits, sized.fewBits, (foldl_setBit_length _ _).trans sized.bytes⟩

theorem Sized.addAll (sized : b.Sized) (keys : List Bytes) : (keys.foldl BloomFilter.add b).Sized := by
  induction keys generalizing b with
  | nil => exact sized
  | cons key keys ih => exact ih (sized.add key)

theorem mightContain_foldl (keys : List Bytes) {key : Bytes} (contained : b.mightContain key = true) :
    (keys.foldl add b).mightContain key = true := by
  induction keys generalizing b with
  | nil => exact contained
  | cons other keys ih => exact ih (mightContain_add other contained)

theorem mightContain_of_mem (sized : b.Sized) {keys : List Bytes} {key : Bytes} (present : key ∈ keys) :
    (keys.foldl add b).mightContain key = true := by
  induction keys generalizing b with
  | nil => cases present
  | cons first keys ih =>
    rw [List.foldl_cons]
    rcases List.mem_cons.mp present with rfl | later
    · exact mightContain_foldl keys (mightContain_add_self sized key)
    · exact ih (sized.add first) later

end BloomFilter

theorem newBloomFilter_sized (size : BloomSize) : (newBloomFilter size).Sized := by
  refine ⟨size.someHashes, Nat.le_trans size.fewHashes (by decide), fun zero => ?_, size.fewBits, List.length_replicate⟩
  have some := size.someBits
  rw [show size.numBits = 0 from zero] at some
  exact absurd some (by decide)

theorem decodeBloom_encodeBloom {b : BloomFilter} (sized : b.Sized) (data : Bytes) :
    ∃ rest, decodeBloom (encodeBloom b) checksum data = .ok b rest := by
  have fewBits := sized.fewBits
  have bytes := sized.bytes
  have word : b.bits.length < 2 ^ 32 := by
    unfold maxBloomBits at fewBits
    omega
  have hashes : ¬(b.numHashes = 0 ∨ 64 < b.numHashes) := by
    have some := sized.someHashes
    have few := sized.fewHashes
    rintro (zero | many)
    · rw [zero] at some
      exact absurd some (by decide)
    · rw [UInt8.lt_iff_toNat_lt] at many
      exact absurd few (Nat.not_le.mpr many)
  have long : (encodeBloom b).length = bloomHeaderSize + b.bits.length + 4 := by
    rw [encodeBloom, Cursor.sealed_length, bloomBody, List.length_cons, List.length_append, List.length_append,
      putUint64_length, putUint32_length, bloomHeaderSize]
    omega
  have shape : encodeBloom b = b.numHashes :: (putUint64 b.numBits ++ (putUint32 b.bits.length ++ (b.bits ++
      putUint32 (checksum (bloomBody b)).toNat))) := by
    simp only [encodeBloom, Cursor.sealed, bloomBody, List.cons_append, List.append_assoc]
  have checked : ∀ rest, Cursor.checkSealed checksum (encodeBloom b) FormatError.bloomChecksum rest =
      .ok (bloomBody b) rest := Cursor.checkSealed_sealed checksum _ _
  have bits : ∀ rest, (Cursor.slice (encodeBloom b) bloomHeaderSize (bloomHeaderSize + b.bits.length) :
      Cursor FormatError Bytes) rest = .ok b.bits rest := by
    intro rest
    have split : encodeBloom b = (b.numHashes :: (putUint64 b.numBits ++ putUint32 b.bits.length)) ++ (b.bits ++
        putUint32 (checksum (bloomBody b)).toNat) := by
      simp only [shape, List.cons_append, List.append_assoc]
    have before : (b.numHashes :: (putUint64 b.numBits ++ putUint32 b.bits.length)).length = bloomHeaderSize := rfl
    rw [split]
    exact Cursor.slice_append before rfl rest
  refine ⟨b.bits ++ putUint32 (checksum (bloomBody b)).toNat, ?_⟩
  rw [decodeBloom, Cursor.bind_ok (Cursor.refuse_not (by rw [long]; omega) _ _),
    Cursor.bind_ok (Cursor.seek_apply _ _), Cursor.bind_ok (by rw [shape]; exact Cursor.byte_cons _ _),
    Cursor.bind_ok (Cursor.u64_put _ _), Cursor.bind_ok (Cursor.u32_put word _),
    Cursor.bind_ok (Cursor.refuse_not hashes _ _),
    Cursor.bind_ok (Cursor.refuse_not (not_or.mpr ⟨sized.someBits, Nat.not_lt.mpr fewBits⟩) _ _),
    Cursor.bind_ok (Cursor.refuse_not (not_not.mpr bytes) _ _),
    Cursor.bind_ok (Cursor.refuse_not (not_not.mpr long) _ _), Cursor.bind_ok (checked _), Cursor.bind_ok (bits _)]
  rfl

end ForgeDB.Storage.SSTable
