import Mathlib

/-!
The true division of two integers, as a correctly rounded binary64 number, and its integer
part. A significand has 53 bits; a quotient from `2 ^ 1024` on does not fit.
-/
namespace Binary64

/-- The integer nearest to `n / d`, the even one of two. -/
def roundEven (n d : Nat) : Nat :=
  let q := n / d
  let r := n % d
  if 2 * r < d then q
  else if d < 2 * r then q + 1
  else if q % 2 = 0 then q else q + 1

/-- The integer part of the rounded quotient of two natural numbers. A quotient below `2 ^ 53`
keeps bits after the point, a larger one loses low bits. -/
def truncNat (n d : Nat) : Nat :=
  let q := n / d
  if q = 0 then roundEven (n * 2 ^ 53) d / 2 ^ 53
  else if Nat.log 2 q ≤ 52 then
    roundEven (n * 2 ^ (52 - Nat.log 2 q)) d / 2 ^ (52 - Nat.log 2 q)
  else roundEven n (d * 2 ^ (Nat.log 2 q - 52)) * 2 ^ (Nat.log 2 q - 52)

/-- Where floats end, `2 ^ 1024`. -/
def limit : Nat := (2 ^ 128) ^ 8

/-- `int(n / d)`; `none` when the quotient is too large for a float. -/
def truncDiv (n : Int) (d : Nat) : Option Int :=
  let q := truncNat n.natAbs d
  if q < limit then some (n.sign * q) else none

theorem roundEven_ge (n d : Nat) : n / d ≤ roundEven n d := by
  unfold roundEven
  dsimp only
  split
  · exact le_rfl
  · split
    · exact Nat.le_succ _
    · split
      · exact le_rfl
      · exact Nat.le_succ _

/-- Rounding moves a quotient by half a unit at most. -/
theorem roundEven_le (n d : Nat) : 2 * (roundEven n d * d) ≤ 2 * n + d := by
  have h := Nat.div_add_mod n d
  unfold roundEven
  dsimp only
  have hmul : (n / d + 1) * d = d * (n / d) + d := by ring
  have hmul' : n / d * d = d * (n / d) := Nat.mul_comm _ _
  split
  · rw [hmul']
    omega
  · split
    · rw [hmul]
      omega
    · split
      · rw [hmul']
        omega
      · rw [hmul]
        omega

/-- With `k` bits after the point, more than the divisor needs, rounding does not reach the
next integer. -/
theorem roundEven_div {n d k : Nat} (hd : 0 < d) (hk : d < 2 ^ (k + 1)) :
    roundEven (n * 2 ^ k) d / 2 ^ k = n / d := by
  have hpos : 0 < 2 ^ k := Nat.two_pow_pos k
  refine Nat.div_eq_of_lt_le ?_ ?_
  · have hfloor : n / d * 2 ^ k ≤ n * 2 ^ k / d := by
      rw [Nat.le_div_iff_mul_le hd, Nat.mul_right_comm]
      exact Nat.mul_le_mul_right _ (Nat.div_mul_le_self n d)
    exact hfloor.trans (roundEven_ge _ _)
  · by_contra hge
    have hge : (n / d + 1) * 2 ^ k ≤ roundEven (n * 2 ^ k) d := by
      simpa using hge
    have hround := roundEven_le (n * 2 ^ k) d
    -- The next integer lies at least `1 / d` above the quotient.
    have hnext : n + 1 ≤ (n / d + 1) * d := by
      rw [Nat.add_mul, Nat.one_mul]
      exact Nat.lt_div_mul_add hd
    have hscaled : 2 * ((n / d + 1) * 2 ^ k * d) ≤ 2 * (n * 2 ^ k) + d :=
      (Nat.mul_le_mul_left 2 (Nat.mul_le_mul_right d hge)).trans hround
    have hstep : 2 * ((n + 1) * 2 ^ k) ≤ 2 * ((n / d + 1) * 2 ^ k * d) := by
      refine Nat.mul_le_mul_left 2 ?_
      calc (n + 1) * 2 ^ k ≤ (n / d + 1) * d * 2 ^ k := Nat.mul_le_mul_right _ hnext
        _ = (n / d + 1) * 2 ^ k * d := by ring
    rw [pow_succ] at hk
    rw [Nat.add_mul, Nat.one_mul] at hstep
    omega

/-- Below `2 ^ 53` the integer part of the rounded quotient is the exact one. -/
theorem truncNat_eq {n d : Nat} (hd : 0 < d) (hn : n < 2 ^ 53) : truncNat n d = n / d := by
  unfold truncNat
  dsimp only
  split
  · rename_i hzero
    have hlt : d < 2 ^ (53 + 1) ∨ 2 ^ 54 ≤ d := Nat.lt_or_ge _ _
    rcases hlt with hlt | hge
    · rw [roundEven_div hd hlt]
    · -- A tiny quotient stays far below one.
      have hround := roundEven_le (n * 2 ^ 53) d
      rw [hzero]
      refine Nat.div_eq_of_lt ?_
      by_contra hbig
      have hbig : 2 ^ 53 * d ≤ roundEven (n * 2 ^ 53) d * d :=
        Nat.mul_le_mul_right d (Nat.le_of_not_lt hbig)
      omega
  · rename_i hq
    have hlog : Nat.log 2 (n / d) ≤ 52 := by
      have hlt : n / d < 2 ^ 53 := lt_of_le_of_lt (Nat.div_le_self n d) hn
      have := Nat.log_lt_of_lt_pow hq hlt
      omega
    rw [if_pos hlog]
    refine roundEven_div hd ?_
    -- `d * 2 ^ l ≤ d * (n / d) ≤ n < 2 ^ 53`
    have hpow : 2 ^ Nat.log 2 (n / d) ≤ n / d := Nat.pow_log_le_self 2 hq
    have hle : d * 2 ^ Nat.log 2 (n / d) ≤ n :=
      (Nat.mul_le_mul_left d hpow).trans (Nat.mul_div_le n d)
    by_contra hge
    have hge : 2 ^ (52 - Nat.log 2 (n / d) + 1) ≤ d := Nat.le_of_not_lt hge
    have hprod := Nat.mul_le_mul_right (2 ^ Nat.log 2 (n / d)) hge
    rw [← pow_add, show 52 - Nat.log 2 (n / d) + 1 + Nat.log 2 (n / d) = 53 by omega] at hprod
    omega

theorem truncDiv_eq {n d : Nat} (hd : 0 < d) (hn : n < 2 ^ 53) :
    truncDiv n d = some ((n / d : Nat) : Int) := by
  have hq : truncNat (n : Int).natAbs d = n / d := by
    rw [Int.natAbs_natCast, truncNat_eq hd hn]
  have hlt : n / d < limit := by
    have h : n / d < 2 ^ 53 := lt_of_le_of_lt (Nat.div_le_self n d) hn
    exact h.trans (by decide)
  unfold truncDiv
  dsimp only
  rw [hq, if_pos hlt]
  cases n with
  | zero => simp
  | succ n => simp [Int.sign]

end Binary64
