import Mathlib

/-!
Little-endian numbers of a fixed width, as lists of bytes with the least
significant byte first.
-/
namespace LittleEndian

/-- A little-endian field of the given width. -/
def packLE : Nat → Nat → List UInt8
  | 0, _ => []
  | w + 1, n => UInt8.ofNat n :: packLE w (n / 256)

/-- The value of a little-endian field. -/
def unpackLE : List UInt8 → Nat
  | [] => 0
  | b :: rest => b.toNat + 256 * unpackLE rest

@[simp] theorem packLE_length (w n : Nat) : (packLE w n).length = w := by
  induction w generalizing n with
  | zero => rfl
  | succ w ih => simp [packLE, ih]

theorem unpackLE_lt (bs : List UInt8) : unpackLE bs < 256 ^ bs.length := by
  induction bs with
  | nil => simp [unpackLE]
  | cons b rest ih =>
    have hb := b.toNat_lt
    simp only [unpackLE, List.length_cons, pow_succ]
    omega

/-- Reading a packed field gives its value back, up to the width of the field. -/
theorem unpackLE_packLE (w n : Nat) (h : n < 256 ^ w) : unpackLE (packLE w n) = n := by
  induction w generalizing n with
  | zero => simp only [pow_zero] at h; simp [packLE, unpackLE]; omega
  | succ w ih =>
    have hd : n / 256 < 256 ^ w := by
      apply (Nat.div_lt_iff_lt_mul (by decide)).mpr
      simpa [pow_succ] using h
    simp only [packLE, unpackLE, ih _ hd, UInt8.toNat_ofNat']
    exact Nat.mod_add_div n 256

/-- Packing the value of a field gives its bytes back. -/
theorem packLE_unpackLE (bs : List UInt8) : packLE bs.length (unpackLE bs) = bs := by
  induction bs with
  | nil => rfl
  | cons b rest ih =>
    have hb := b.toNat_lt
    have hq : (b.toNat + 256 * unpackLE rest) / 256 = unpackLE rest := by omega
    have hr : UInt8.ofNat (b.toNat + 256 * unpackLE rest) = b := by
      apply UInt8.toNat.inj
      rw [UInt8.toNat_ofNat']
      omega
    simp only [List.length_cons, packLE, unpackLE, hq, hr, ih]

/-- The last byte is the most significant one. -/
theorem unpackLE_concat_lt (bs : List UInt8) (b : UInt8) :
    unpackLE (bs ++ [b]) < 256 ^ bs.length * (b.toNat + 1) := by
  induction bs with
  | nil =>
    simp only [List.nil_append, unpackLE, List.length_nil, pow_zero]
    omega
  | cons c bs ih =>
    have hc := c.toNat_lt
    rw [List.cons_append, unpackLE, List.length_cons, pow_succ]
    have hmul : 256 ^ bs.length * 256 * (b.toNat + 1) =
        256 * (256 ^ bs.length * (b.toNat + 1)) := by ring
    omega

end LittleEndian
