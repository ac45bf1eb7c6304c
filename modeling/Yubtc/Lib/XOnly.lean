import Mathlib

/-!
Keys of which only one coordinate is kept. A point and its negative share the coordinate and
exactly one of them is even, so a coordinate stands for the even one; a scalar is normalised the
same way.
-/
namespace XOnly

/-- A group with a generator, a coordinate and a parity. -/
structure Curve (E X : Type) [AddCommGroup E] where
  order : Nat
  gen : E
  addOrderOf_gen : addOrderOf gen = order
  x : E → X
  IsEven : E → Prop
  x_neg : ∀ p, x (-p) = x p
  even_iff : ∀ p, p ≠ 0 → (IsEven p ↔ ¬ IsEven (-p))

variable {E X : Type} [AddCommGroup E] (C : Curve E X)

namespace Curve

/-- The point that the coordinate of `p` stands for. -/
def IsLift (p q : E) : Prop := C.IsEven q ∧ (q = p ∨ q = -p)

theorem x_lift {p q : E} (h : C.IsLift p q) : C.x q = C.x p := by
  rcases h.2 with rfl | rfl
  · rfl
  · exact C.x_neg p

theorem lift_even {p : E} (h : C.IsEven p) : C.IsLift p p := ⟨h, .inl rfl⟩

theorem lift_odd {p : E} (hp : p ≠ 0) (h : ¬ C.IsEven p) : C.IsLift p (-p) := by
  refine ⟨?_, .inr rfl⟩
  have hneg := C.even_iff (-p) (neg_ne_zero.mpr hp)
  rw [neg_neg] at hneg
  exact hneg.mpr h

theorem order_nsmul : C.order • C.gen = 0 := by
  rw [← C.addOrderOf_gen]
  exact addOrderOf_nsmul_eq_zero C.gen

theorem nsmul_eq_zero {k : Nat} : k • C.gen = 0 ↔ C.order ∣ k := by
  rw [← C.addOrderOf_gen]
  exact addOrderOf_dvd_iff_nsmul_eq_zero.symm

/-- A scalar counts modulo the order. -/
theorem mod_nsmul (k : Nat) : (k % C.order) • C.gen = k • C.gen := by
  conv_rhs => rw [← Nat.mod_add_div k C.order]
  rw [add_nsmul, mul_nsmul, C.order_nsmul, smul_zero, add_zero]

theorem nsmul_ne_zero {k : Nat} (hpos : 0 < k) (hlt : k < C.order) : k • C.gen ≠ 0 := fun h =>
  absurd (Nat.le_of_dvd hpos (C.nsmul_eq_zero.mp h)) (Nat.not_le.mpr hlt)

theorem sub_nsmul {k : Nat} (h : k ≤ C.order) : (C.order - k) • C.gen = -(k • C.gen) := by
  rw [eq_neg_iff_add_eq_zero, ← add_nsmul, Nat.sub_add_cancel h, C.order_nsmul]

open Classical in
/-- The scalar of the even point. -/
noncomputable def evenScalar (d : Nat) : Nat :=
  if C.IsEven (d • C.gen) then d else C.order - d

theorem lift_evenScalar {d : Nat} (hpos : 0 < d) (hlt : d < C.order) :
    C.IsLift (d • C.gen) (C.evenScalar d • C.gen) := by
  unfold evenScalar
  split
  · next h => exact C.lift_even h
  · next h =>
    rw [C.sub_nsmul hlt.le]
    exact C.lift_odd (C.nsmul_ne_zero hpos hlt) h

/-- Tweaking the scalar is tweaking the point. -/
theorem tweak_nsmul (d t : Nat) :
    ((C.evenScalar d + t) % C.order) • C.gen = C.evenScalar d • C.gen + t • C.gen := by
  rw [C.mod_nsmul, add_nsmul]

end Curve

end XOnly
