import Mathlib

/-!
Standard base58. The bytes are the digits of a number, which is written in base 58; every
leading zero byte is written as a leading zero digit.
-/
namespace Base58

def alphabet : List Char :=
  ['1', '2', '3', '4', '5', '6', '7', '8', '9', 'A', 'B', 'C', 'D', 'E', 'F', 'G', 'H', 'J', 'K',
   'L', 'M', 'N', 'P', 'Q', 'R', 'S', 'T', 'U', 'V', 'W', 'X', 'Y', 'Z', 'a', 'b', 'c', 'd', 'e',
   'f', 'g', 'h', 'i', 'j', 'k', 'm', 'n', 'o', 'p', 'q', 'r', 's', 't', 'u', 'v', 'w', 'x', 'y',
   'z']

def charOf (d : Nat) : Char := alphabet.getD d '1'

/-- A character outside the alphabet is no digit. -/
def digitOf (c : Char) : Option Nat := alphabet.idxOf? c

/-- Digits of another base, most significant first, with as many leading zeros as `ds` has. -/
def rebase (source target : Nat) (ds : List Nat) : List Nat :=
  List.replicate (ds.takeWhile (· = 0)).length 0 ++
    (Nat.digits target (Nat.ofDigits source ds.reverse)).reverse

def encode (data : List UInt8) : String :=
  String.ofList ((rebase 256 58 (data.map UInt8.toNat)).map charOf)

def decode (s : String) : Option (List UInt8) := do
  let ds ← s.toList.mapM digitOf
  return (rebase 58 256 ds).map UInt8.ofNat

theorem digitOf_charOf {d : Nat} (h : d < 58) : digitOf (charOf d) = some d := by
  revert d
  decide

theorem rebase_lt {source target : Nat} (h : 1 < target) (ds : List Nat) :
    ∀ d ∈ rebase source target ds, d < target := by
  intro d hd
  rcases List.mem_append.mp hd with hd | hd
  · rw [List.eq_of_mem_replicate hd]
    omega
  · exact Nat.digits_lt_base h (List.mem_reverse.mp hd)

theorem ofDigits_zeros (base n : Nat) (ds : List Nat) :
    Nat.ofDigits base (List.replicate n 0 ++ ds).reverse = Nat.ofDigits base ds.reverse := by
  rw [List.reverse_append, List.reverse_replicate, Nat.ofDigits_append, Nat.ofDigits_replicate_zero,
    Nat.mul_zero, Nat.add_zero]

theorem takeWhile_zeros {n : Nat} {ds : List Nat} (h : ds.head? ≠ some 0) :
    (List.replicate n 0 ++ ds).takeWhile (· = 0) = List.replicate n 0 := by
  induction n with
  | zero =>
    cases ds with
    | nil => rfl
    | cons d ds =>
      have hd : d ≠ 0 := fun he => h (congrArg some he)
      simp [hd]
  | succ n ih =>
    rw [List.replicate_succ, List.cons_append, List.takeWhile_cons_of_pos (by simp), ih]

theorem eq_zeros_append (ds : List Nat) :
    ds = List.replicate (ds.takeWhile (· = 0)).length 0 ++ ds.dropWhile (· = 0) := by
  induction ds with
  | nil => rfl
  | cons d ds ih =>
    by_cases hd : d = 0
    · rw [List.takeWhile_cons_of_pos (by simpa using hd), List.dropWhile_cons_of_pos (by simpa using hd),
        List.length_cons, List.replicate_succ, List.cons_append, ← ih, hd]
    · rw [List.takeWhile_cons_of_neg (by simpa using hd), List.dropWhile_cons_of_neg (by simpa using hd)]
      rfl

theorem head?_dropWhile_zeros (ds : List Nat) : (ds.dropWhile (· = 0)).head? ≠ some 0 := by
  induction ds with
  | nil => exact nofun
  | cons d ds ih =>
    by_cases hd : d = 0
    · rw [List.dropWhile_cons_of_pos (by simpa using hd)]
      exact ih
    · rw [List.dropWhile_cons_of_neg (by simpa using hd)]
      exact fun h => hd (Option.some.inj h)

theorem head?_digits_reverse {base : Nat} (n : Nat) :
    (Nat.digits base n).reverse.head? ≠ some 0 := by
  rw [List.head?_reverse]
  intro h
  rcases Nat.eq_zero_or_pos n with rfl | hpos
  · simp at h
  · have hlast := Nat.getLast_digit_ne_zero base hpos.ne'
    rw [List.getLast?_eq_some_getLast (Nat.digits_ne_nil_iff_ne_zero.mpr hpos.ne')] at h
    exact hlast (Option.some.inj h)

/-- Rebasing there and back. -/
theorem rebase_rebase {source target : Nat} (hs : 1 < source) {ds : List Nat}
    (h : ∀ d ∈ ds, d < source) : rebase target source (rebase source target ds) = ds := by
  have hnumber : Nat.ofDigits target (rebase source target ds).reverse =
      Nat.ofDigits source (ds.dropWhile (· = 0)).reverse := by
    rw [rebase, ofDigits_zeros, List.reverse_reverse, Nat.ofDigits_digits]
    conv_lhs => rw [eq_zeros_append ds]
    exact ofDigits_zeros _ _ _
  have hcount : ((rebase source target ds).takeWhile (· = 0)).length =
      (ds.takeWhile (· = 0)).length := by
    rw [rebase, takeWhile_zeros (head?_digits_reverse _), List.length_replicate]
  have hdigits : Nat.digits source (Nat.ofDigits source (ds.dropWhile (· = 0)).reverse) =
      (ds.dropWhile (· = 0)).reverse := by
    refine Nat.digits_ofDigits source hs _ (fun d hd => ?_) fun hne => ?_
    · exact h d ((List.dropWhile_sublist _).subset (List.mem_reverse.mp hd))
    · intro hzero
      refine head?_dropWhile_zeros ds ?_
      rw [← List.getLast?_reverse, List.getLast?_eq_some_getLast hne, hzero]
  rw [rebase, hcount, hnumber, hdigits, List.reverse_reverse]
  exact (eq_zeros_append ds).symm

theorem mapM_digitOf {ds : List Nat} (h : ∀ d ∈ ds, d < 58) :
    (ds.map charOf).mapM digitOf = some ds := by
  induction ds with
  | nil => rfl
  | cons d ds ih =>
    rw [List.map_cons, List.mapM_cons, digitOf_charOf (h d List.mem_cons_self),
      ih fun x hx => h x (List.mem_cons_of_mem _ hx)]
    rfl

/-- Decoding inverts encoding. -/
theorem decode_encode (data : List UInt8) : decode (encode data) = some data := by
  have hbytes : ∀ d ∈ data.map UInt8.toNat, d < 256 := by
    intro d hd
    obtain ⟨b, -, rfl⟩ := List.mem_map.mp hd
    exact b.toNat_lt
  have hback : (data.map UInt8.toNat).map UInt8.ofNat = data := by
    rw [List.map_map]
    exact List.map_id'' (fun _ => UInt8.ofNat_toNat) data
  rw [decode, encode, String.toList_ofList,
    mapM_digitOf (rebase_lt (show 1 < 58 by decide) (data.map UInt8.toNat))]
  change some ((rebase 58 256 (rebase 256 58 (data.map UInt8.toNat))).map UInt8.ofNat) = _
  rw [rebase_rebase (show 1 < 256 by decide) hbytes, hback]

/-- A leading zero byte is written first. -/
theorem encode_zero (data : List UInt8) : (encode (0 :: data)).toList.head? = some '1' := by
  rw [encode, String.toList_ofList, List.map_cons, rebase, List.takeWhile_cons_of_pos (by rfl)]
  rfl

theorem getLast?_digits {base k d n : Nat} (hd : 0 < d) (hdb : d < base)
    (hlo : d * base ^ k ≤ n) (hhi : n < (d + 1) * base ^ k) :
    (Nat.digits base n).getLast? = some d := by
  induction k generalizing n with
  | zero =>
    obtain rfl : n = d := by
      simp only [pow_zero, Nat.mul_one] at hlo hhi
      omega
    rw [Nat.digits_of_lt base n hd.ne' hdb]
    rfl
  | succ k ih =>
    have hb : 0 < base := Nat.zero_lt_of_lt hdb
    rw [pow_succ, ← Nat.mul_assoc] at hlo hhi
    have hlast := ih ((Nat.le_div_iff_mul_le hb).mpr hlo) ((Nat.div_lt_iff_lt_mul hb).mpr hhi)
    have hpos : 0 < n := Nat.lt_of_lt_of_le
      (Nat.mul_pos (Nat.mul_pos hd (Nat.pow_pos hb)) hb) hlo
    rw [Nat.digits_def' (by omega) hpos]
    cases hrest : Nat.digits base (n / base) with
    | nil =>
      rw [hrest] at hlast
      cases hlast
    | cons x xs =>
      rw [hrest] at hlast
      rw [List.getLast?_cons_cons]
      exact hlast

/-- A first byte that is not zero, and a count of bytes, can fix the first character. -/
theorem encode_first {b : UInt8} {data : List UInt8} {k d : Nat} (hb : b ≠ 0) (hd : 0 < d)
    (hd58 : d < 58) (hlo : d * 58 ^ k ≤ b.toNat * 256 ^ data.length)
    (hhi : (b.toNat + 1) * 256 ^ data.length ≤ (d + 1) * 58 ^ k) :
    (encode (b :: data)).toList.head? = some (charOf d) := by
  have hne : ¬ b.toNat = 0 := fun he => hb (UInt8.toNat_inj.mp he)
  have hlt : Nat.ofDigits 256 (data.map UInt8.toNat).reverse < 256 ^ data.length := by
    have h := Nat.ofDigits_lt_base_pow_length (b := 256) (l := (data.map UInt8.toNat).reverse)
      (by decide) fun x hx => by
        obtain ⟨y, -, rfl⟩ := List.mem_map.mp (List.mem_reverse.mp hx)
        exact y.toNat_lt
    rwa [List.length_reverse, List.length_map] at h
  have hn : Nat.ofDigits 256 ((b :: data).map UInt8.toNat).reverse =
      Nat.ofDigits 256 (data.map UInt8.toNat).reverse + 256 ^ data.length * b.toNat := by
    rw [List.map_cons, List.reverse_cons, Nat.ofDigits_append, List.length_reverse,
      List.length_map, Nat.ofDigits_singleton]
  have hlast := @getLast?_digits 58 k _
    (Nat.ofDigits 256 ((b :: data).map UInt8.toNat).reverse) hd hd58
    (by rw [hn, Nat.mul_comm (256 ^ data.length)]; omega)
    (by rw [hn, Nat.mul_comm (256 ^ data.length)]; rw [Nat.add_mul] at hhi; omega)
  rw [encode, String.toList_ofList, rebase, List.map_cons, List.takeWhile_cons_of_neg (by simpa),
    List.length_nil, List.replicate_zero, List.nil_append, List.head?_map, List.head?_reverse,
    ← List.map_cons, hlast]
  rfl

end Base58
