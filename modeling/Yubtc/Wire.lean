import Yubtc.Lib.LittleEndian

/-!
# Bytes, fixed-width fields and compact sizes

Byte strings are lists of bytes. The numeric wire fields are little-endian, and
their types carry the range that `struct.pack` enforces, so a field that would
not pack cannot be built.
-/
namespace Yubtc.Wire

open LittleEndian

abbrev Bytes := List UInt8

/-- Membership of byte strings is decided by one named instance. -/
instance : LawfulBEq Bytes := inferInstance

/-- `data[start:stop]`. -/
def slice (data : Bytes) (start stop : Nat) : Bytes := (data.drop start).take (stop - start)

/-- `pack('<L', n)`. -/
def packL (n : UInt32) : Bytes := packLE 4 n.toNat
/-- `pack('<Q', n)`. -/
def packQ (n : UInt64) : Bytes := packLE 8 n.toNat
/-- `pack('<l', n)`: the two's complement of a signed field. -/
def packl (n : Int32) : Bytes := packLE 4 n.toUInt32.toNat

@[simp] theorem packL_length (n : UInt32) : (packL n).length = 4 := packLE_length 4 _
@[simp] theorem packQ_length (n : UInt64) : (packQ n).length = 8 := packLE_length 8 _
@[simp] theorem packl_length (n : Int32) : (packl n).length = 4 := packLE_length 4 _

theorem packL_injective : Function.Injective packL := by
  intro a b h
  have ha := unpackLE_packLE 4 a.toNat a.toNat_lt
  have hb := unpackLE_packLE 4 b.toNat b.toNat_lt
  simp only [packL] at h
  rw [h, hb] at ha
  exact UInt32.toNat.inj ha.symm

/-- Bitcoin CompactSize, as every transaction count and length is written. Lengths of
byte strings in memory are far below `2 ^ 64`, where `pack('<cQ')` would refuse. -/
def compactSize (n : Nat) : Bytes :=
  if n < 0xfd then packLE 1 n
  else if n ≤ 0xffff then 0xfd :: packLE 2 n
  else if n ≤ 0xffffffff then 0xfe :: packLE 4 n
  else 0xff :: packLE 8 n

/-- The PSBT container's own CompactSize writer. -/
def writeCompactSize (n : Nat) : Bytes :=
  if n < 0xfd then packLE 1 n
  else if n ≤ 0xffff then 0xfd :: packLE 2 n
  else if n ≤ 0xffffffff then 0xfe :: packLE 4 n
  else 0xff :: packLE 8 n

theorem writeCompactSize_eq (n : Nat) : writeCompactSize n = compactSize n := rfl

/-- Number of bytes of a compact size. -/
def compactSizeLen (n : Nat) : Nat :=
  if n < 0xfd then 1 else if n ≤ 0xffff then 3 else if n ≤ 0xffffffff then 5 else 9

@[simp] theorem compactSize_length (n : Nat) : (compactSize n).length = compactSizeLen n := by
  unfold compactSize compactSizeLen
  split
  · rfl
  · split
    · rfl
    · split <;> rfl

theorem compactSizeLen_mono {m n : Nat} (h : m ≤ n) : compactSizeLen m ≤ compactSizeLen n := by
  unfold compactSizeLen
  split <;> split <;> (try split) <;> (try split) <;> (try split) <;> (try split) <;> omega

theorem compactSize_ne_nil (n : Nat) : compactSize n ≠ [] := by
  intro h
  have := congrArg List.length h
  simp only [compactSize_length, List.length_nil] at this
  unfold compactSizeLen at this
  split at this <;> (try split at this) <;> (try split at this) <;> omega

/-- A length-prefixed byte string. -/
def varBytes (data : Bytes) : Bytes := compactSize data.length ++ data

end Yubtc.Wire
