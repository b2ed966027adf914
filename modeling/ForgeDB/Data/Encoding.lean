import Mathlib.Data.List.Lex
import Mathlib.Data.List.Basic
import Mathlib.Order.Lattice
import Mathlib.Algebra.GroupWithZero.Nat
import Mathlib.Algebra.Ring.Int.Defs

/-!
Bytes as the wire and the disk hold them: numbers of a fixed width written with the low byte
first, fields that carry their length, and the CRC-32C checksum.
-/

namespace ForgeDB

abbrev Bytes := List UInt8

instance linearOrderUInt8 : LinearOrder UInt8 where
  le_refl _ := UInt8.le_refl _
  le_trans _ _ _ := UInt8.le_trans
  le_antisymm _ _ := UInt8.le_antisymm
  le_total := UInt8.le_total
  lt_iff_le_not_ge first second := by
    rw [UInt8.not_le]
    exact ⟨fun lt => ⟨UInt8.le_of_lt lt, lt⟩, fun both => both.2⟩
  toDecidableLE := inferInstance
  toDecidableEq := inferInstance
  toDecidableLT := inferInstance

instance linearOrderUInt64 : LinearOrder UInt64 where
  le_refl _ := UInt64.le_refl _
  le_trans _ _ _ := UInt64.le_trans
  le_antisymm _ _ := UInt64.le_antisymm
  le_total := UInt64.le_total
  lt_iff_le_not_ge first second := by
    rw [UInt64.not_le]
    exact ⟨fun lt => ⟨UInt64.le_of_lt lt, lt⟩, fun both => both.2⟩
  toDecidableLE := inferInstance
  toDecidableEq := inferInstance
  toDecidableLT := inferInstance

/-- One bit of the reflected CRC over the Castagnoli polynomial; the register is below `2 ^ 32`. -/
def crcBit (crc : Nat) : Nat :=
  if crc % 2 = 1 then (crc / 2) ^^^ 0x82f63b78 else crc / 2

def crcTable (byte : Nat) : Nat := (List.range 8).foldl (fun crc _ => crcBit crc) byte

def crcByte (crc : Nat) (byte : UInt8) : Nat :=
  crcTable ((crc ^^^ byte.toNat) % 256) ^^^ (crc / 256)

def checksum (data : Bytes) : UInt32 :=
  UInt32.ofNat (data.foldl crcByte 0xffffffff ^^^ 0xffffffff)

-- The check value of CRC-32C for the bytes of "123456789".
example : checksum [49, 50, 51, 52, 53, 54, 55, 56, 57] = 0xe3069283 := by decide +kernel

def littleEndian : Nat → Nat → Bytes
  | 0, _ => []
  | width + 1, value => UInt8.ofNat value :: littleEndian width (value / 256)

def fromLittleEndian : Bytes → Nat
  | [] => 0
  | byte :: rest => byte.toNat + 256 * fromLittleEndian rest

@[simp] theorem littleEndian_length (width value : Nat) : (littleEndian width value).length = width := by
  induction width generalizing value with
  | zero => rfl
  | succ width ih => simp only [littleEndian, List.length_cons, ih]

theorem fromLittleEndian_littleEndian (width value : Nat) :
    fromLittleEndian (littleEndian width value) = value % 256 ^ width := by
  induction width generalizing value with
  | zero => simp only [littleEndian, fromLittleEndian, Nat.pow_zero, Nat.mod_one]
  | succ width ih =>
    simp only [littleEndian, fromLittleEndian, ih, UInt8.toNat_ofNat', Nat.pow_succ', Nat.mod_mul]
    omega

theorem fromLittleEndian_lt (data : Bytes) : fromLittleEndian data < 256 ^ data.length := by
  induction data with
  | nil => exact Nat.one_pos
  | cons byte rest ih =>
    have low := byte.toNat_lt
    simp only [fromLittleEndian, List.length_cons, Nat.pow_succ']
    omega

theorem littleEndian_fromLittleEndian (data : Bytes) : littleEndian data.length (fromLittleEndian data) = data := by
  induction data with
  | nil => rfl
  | cons byte rest ih =>
    have low := byte.toNat_lt
    have quotient : (byte.toNat + 256 * fromLittleEndian rest) / 256 = fromLittleEndian rest := by omega
    have digit : UInt8.ofNat (byte.toNat + 256 * fromLittleEndian rest) = byte := by
      apply UInt8.toNat_inj.mp
      rw [UInt8.toNat_ofNat']
      omega
    rw [List.length_cons, littleEndian, fromLittleEndian, quotient, digit, ih]

def uint32 (data : Bytes) : Nat := fromLittleEndian (data.take 4)

def uint64 (data : Bytes) : UInt64 := UInt64.ofNat (fromLittleEndian (data.take 8))

def putUint32 (value : Nat) : Bytes := littleEndian 4 value

def putUint64 (value : UInt64) : Bytes := littleEndian 8 value.toNat

@[simp] theorem putUint32_length (value : Nat) : (putUint32 value).length = 4 := littleEndian_length 4 value

@[simp] theorem putUint64_length (value : UInt64) : (putUint64 value).length = 8 := littleEndian_length 8 _

theorem uint32_put {value : Nat} (bound : value < 2 ^ 32) (rest : Bytes) :
    uint32 (putUint32 value ++ rest) = value := by
  rw [uint32, List.take_left' (putUint32_length value), putUint32, fromLittleEndian_littleEndian]
  exact Nat.mod_eq_of_lt (by omega)

theorem uint64_put (value : UInt64) (rest : Bytes) : uint64 (putUint64 value ++ rest) = value := by
  rw [uint64, List.take_left' (putUint64_length value), putUint64, fromLittleEndian_littleEndian,
    Nat.mod_eq_of_lt (by have := value.toNat_lt; omega)]
  exact UInt64.ofNat_toNat

@[simp] theorem uint32_putUint32 {value : Nat} (bound : value < 2 ^ 32) : uint32 (putUint32 value) = value := by
  have read := uint32_put bound []
  rwa [List.append_nil] at read

@[simp] theorem uint64_putUint64 (value : UInt64) : uint64 (putUint64 value) = value := by
  have read := uint64_put value []
  rwa [List.append_nil] at read

theorem uint32_lt (data : Bytes) : uint32 data < 2 ^ 32 := by
  have bound := fromLittleEndian_lt (data.take 4)
  have short : (data.take 4).length ≤ 4 := List.length_take_le 4 data
  exact lt_of_lt_of_le bound (Nat.pow_le_pow_right (by decide) short)

theorem putUint32_uint32 {data : Bytes} (long : 4 ≤ data.length) : putUint32 (uint32 data) ++ data.drop 4 = data := by
  have same := littleEndian_fromLittleEndian (data.take 4)
  rw [List.length_take_of_le long] at same
  rw [putUint32, uint32, same, List.take_append_drop]

theorem putUint64_uint64 {data : Bytes} (long : 8 ≤ data.length) : putUint64 (uint64 data) ++ data.drop 8 = data := by
  have small := fromLittleEndian_lt (data.take 8)
  have same := littleEndian_fromLittleEndian (data.take 8)
  rw [List.length_take_of_le long] at same small
  have bound : fromLittleEndian (data.take 8) < 2 ^ 64 := Nat.lt_of_lt_of_le small (by decide)
  rw [putUint64, uint64, UInt64.toNat_ofNat', Nat.mod_eq_of_lt bound, same, List.take_append_drop]

@[simp] theorem drop_putUint32 (value : Nat) (rest : Bytes) : (putUint32 value ++ rest).drop 4 = rest :=
  List.drop_left' (putUint32_length value)

@[simp] theorem drop_putUint64 (value : UInt64) (rest : Bytes) : (putUint64 value ++ rest).drop 8 = rest :=
  List.drop_left' (putUint64_length value)

def putBytes (field : Bytes) : Bytes := putUint32 field.length ++ field

@[simp] theorem putBytes_length (field : Bytes) : (putBytes field).length = 4 + field.length := by
  rw [putBytes, List.length_append, putUint32_length]

end ForgeDB
