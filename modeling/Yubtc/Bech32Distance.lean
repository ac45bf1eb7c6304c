import Yubtc.Bech32RoundTrip
import Yubtc.Lib.BchCode

/-!
# How far apart Bech32 strings are

The generators of the checksum are those of a code whose register reads, at three consecutive
powers of one element, as an element of the field of 1024. Two strings of one length that the
decoder accepts with one human-readable part differ in five characters after it, or in none.
-/
namespace Yubtc.Bech32Distance

open Wire Text Errors ExceptRules Bech32 Bech32RoundTrip BchCode

/-- The multiplication by the element: ten bits, moved up by one. -/
def mulAlpha (v : Nat) : Nat := CheckCode.shift [0x123] 9 1 v

/-- For each distance, the logarithm of one more than that power. -/
def zechLogs : List Nat :=
  [0, 220, 440, 120, 880, 609, 240, 797, 737, 530, 195, 133, 480, 620, 571, 384, 451, 679, 37, 1005,
   390, 577, 266, 179, 960, 336, 217, 658, 119, 441, 768, 560, 902, 429, 335, 961, 74, 18, 987, 250,
   780, 88, 131, 173, 532, 691, 358, 982, 897, 685, 672, 160, 434, 663, 293, 256, 238, 202, 882,
   273, 513, 506, 97, 87, 781, 490, 858, 874, 670, 236, 899, 295, 148, 444, 36, 680, 951, 746, 500,
   355, 537, 707, 176, 350, 262, 393, 346, 63]

/-- The table as one number, ten bits an entry: looked up without walking along it. -/
def zechWord : Nat := zechLogs.foldr (fun z word => word <<< 10 ||| z) 0

def zech (d : Nat) : Nat := (zechWord >>> (10 * d)) &&& 1023

/-- The characters after the separator are at most so many. -/
def dataSpan : Nat := 88

theorem mulAlpha_linear (a b : Nat) : mulAlpha (a ^^^ b) = mulAlpha a ^^^ mulAlpha b :=
  CheckCode.shift_xor a b

/-- A period of 1023 that none of its largest proper divisors is. -/
theorem mulAlpha_minimal : Function.minimalPeriod mulAlpha 1 = 1023 := by
  have hperiod : Function.IsPeriodicPt mulAlpha 1023 1 := by
    have hfix : mulAlpha^[1023] 1 = 1 := by decide +kernel
    exact hfix
  have hnot : ∀ n ∈ [341, 93, 33], ¬ Function.minimalPeriod mulAlpha 1 ∣ n := by
    intro n hn hdvd
    have hmoved : ∀ m ∈ [341, 93, 33], mulAlpha^[m] 1 ≠ 1 := by decide +kernel
    exact hmoved n hn (Function.isPeriodicPt_iff_minimalPeriod_dvd.mpr hdvd)
  have hdivisors : ∀ d ∈ Nat.divisors 1023, (∀ n ∈ [341, 93, 33], ¬ d ∣ n) → d = 1023 := by
    decide +kernel
  have hmem : Function.minimalPeriod mulAlpha 1 ∈ Nat.divisors 1023 :=
    Nat.mem_divisors.mpr ⟨hperiod.minimalPeriod_dvd, by decide⟩
  exact hdivisors _ hmem hnot

theorem alpha : Element mulAlpha zech 1023 dataSpan where
  linear := mulAlpha_linear
  minimal := mulAlpha_minimal
  positive := by decide
  sums := by decide +kernel

/-- A five-bit value in the field. -/
def embed (v : Nat) : Nat := CheckCode.fallout [1, 14, 84, 856, 191] v

/-- The logarithm of a value that is not zero: a multiple of 33, for the values are the field of
32. -/
def symbolLog (v : Nat) : Nat :=
  33 * [0, 0, 28, 20, 25, 9, 17, 27, 22, 16, 6, 15, 14, 10, 24, 29, 19, 18, 13, 1, 3, 23, 12, 30, 11,
    8, 7, 5, 21, 4, 26, 2].getD v 0

/-- What each of the thirty bits is worth. -/
def bitWorths (r : Nat) : List Nat :=
  (List.range 30).map fun b => mulAlpha^[b / 5 * r] (embed (2 ^ (b % 5)))

def read (r c : Nat) : Nat := CheckCode.fallout (bitWorths r) c

theorem read_linear (r a b : Nat) : read r (a ^^^ b) = read r a ^^^ read r b :=
  CheckCode.fallout_xor a b

/-- The three powers at which the register is read are consecutive. -/
theorem reading {j : Nat} (hj : j < 3) :
    Reading gen 25 5 mulAlpha symbolLog (24 + j) (read (24 + j)) where
  linear := read_linear (24 + j)
  shift := by
    have hbits : ∀ j < 3, ∀ b < 30, read (24 + j) (CheckCode.shift gen 25 5 (2 ^ b)) =
        mulAlpha^[24 + j] (read (24 + j) (2 ^ b)) := by
      decide +kernel
    apply linear_ext
    · intro a b
      rw [CheckCode.shift_xor, read_linear]
    · intro a b
      rw [read_linear, iterate_linear mulAlpha_linear]
    · exact hbits j hj
  symbol := by
    have hvalues : ∀ j < 3, ∀ v < 2 ^ 5, 0 < v →
        read (24 + j) v = power mulAlpha (symbolLog v) := by
      decide +kernel
    exact hvalues j hj

/-- A check of all numbers below a bound, in a shape that reduces in few steps. -/
def allBelow (p : Nat → Bool) (n : Nat) : Bool :=
  n.rec true fun k below => bif p k then below else false

theorem allBelow_spec {p : Nat → Bool} {n : Nat} (h : allBelow p n = true) {k : Nat} (hk : k < n) :
    p k = true := by
  induction n with
  | zero => exact absurd hk (Nat.not_lt_zero k)
  | succ n ih =>
    rw [show allBelow p (n + 1) = bif p n then allBelow p n else false by rfl] at h
    cases hp : p n
    · rw [hp] at h
      cases h
    · rw [hp, cond_true] at h
      cases Nat.lt_succ_iff_lt_or_eq.mp hk with
      | inl hlt => exact ih h hlt
      | inr he => exact he ▸ hp

/-- How much more a place counts to the lowest place than to the one `a` above it. -/
def lead (a d : Nat) : Nat := (zech d + 32 * zech (d - a)) % 33

/-- Places at `a`, `b` and `c` above the lowest do not all balance it. -/
def unbalanced (a b c : Nat) : Bool :=
  bif Nat.beq ((lead a b + lead a c) % 33) (26 * a % 33) then
    bif Nat.beq ((zech a + zech c) % 33) ((a + 25 * b + zech (c - b) + zech (b - a)) % 33) then
      !Nat.beq ((zech a + zech b) % 33) ((a + b + 24 * c + zech (c - b) + zech (c - a)) % 33)
    else true
  else true

/-- All triples of distances below the span. -/
theorem unbalanced_below : allBelow (fun c => allBelow (fun b =>
    allBelow (fun a => unbalanced (a + 1) b c) (b - 1)) c) dataSpan = true := by
  decide +kernel

theorem unbalanced_of_lt {a b c : Nat} (ha : 0 < a) (hab : a < b) (hbc : b < c)
    (hc : c < dataSpan) : unbalanced a b c = true := by
  obtain ⟨k, rfl⟩ := Nat.exists_eq_succ_of_ne_zero ha.ne'
  have hall := allBelow_spec (allBelow_spec unbalanced_below hc) hbc
  exact allBelow_spec hall (show k < b - 1 by omega)

/-- The lowest of four places is not balanced by the other three. -/
theorem not_balanced {a b c : Nat} (ha : 0 < a) (hab : a < b) (hbc : b < c) (hc : c < dataSpan)
    (hx : 26 * a + zech (c - a) + zech (b - a) ≡ zech b + zech c [MOD 33])
    (hy : a + 25 * b + zech (c - b) + zech (b - a) ≡ zech a + zech c [MOD 33])
    (hz : a + b + 24 * c + zech (c - b) + zech (c - a) ≡ zech a + zech b [MOD 33]) : False := by
  have hlead : (lead a b + lead a c) % 33 = 26 * a % 33 := by
    rw [lead, lead]
    unfold Nat.ModEq at hx
    omega
  have hclear := unbalanced_of_lt ha hab hbc hc
  rw [unbalanced, hlead, hy.symm, hz.symm, Nat.beq_refl, Nat.beq_refl, Nat.beq_refl] at hclear
  cases hclear

/-- A place over the lowest: what their logarithms differ by is known modulo 33. -/
theorem over_lowest {p q x w m n : Nat} (hwx : w < x) (hp : p ≡ 24 * x [MOD 33])
    (hq : q ≡ 24 * w [MOD 33]) (h : p + (2 * w + m) ≡ q + (2 * w + n) [MOD 33]) :
    24 * (x - w) + m ≡ n [MOD 33] := by
  have hsplit : 24 * x = 24 * w + 24 * (x - w) := by omega
  have hsum : 24 * w + 2 * w + (24 * (x - w) + m) ≡ 24 * w + 2 * w + n [MOD 33] := by
    calc 24 * w + 2 * w + (24 * (x - w) + m)
        = 24 * x + (2 * w + m) := by omega
      _ ≡ p + (2 * w + m) [MOD 33] := hp.symm.add_right _
      _ ≡ q + (2 * w + n) [MOD 33] := h
      _ ≡ 24 * w + (2 * w + n) [MOD 33] := hq.add_right _
      _ = 24 * w + 2 * w + n := by omega
  exact Nat.ModEq.add_left_cancel' _ hsum

/-- Logarithms that the places determine modulo 33: such a sum of four powers does not vanish at
three places. -/
theorem four_terms {s t u v : Nat × Nat} (htu : t.2 < s.2) (huv : u.2 < t.2) (hvw : v.2 < u.2)
    (hs : s.2 < dataSpan) (hlogs : ∀ x ∈ [s, t, u, v], x.1 ≡ 24 * x.2 [MOD 33])
    (hzero : ∀ j < 3, sumAt mulAlpha j [s, t, u, v] = 0) : False := by
  have hspan : ∀ x ∈ [s, t, u, v], x.2 < dataSpan := by
    simp only [List.forall_mem_cons]
    exact ⟨hs, by omega, by omega, by omega, fun _ h => absurd h List.not_mem_nil⟩
  have hsmall : 33 ∣ 1023 := by decide
  simp only [List.forall_mem_cons] at hspan hlogs
  obtain ⟨-, ht, hu, hv, -⟩ := hspan
  obtain ⟨hslog, htlog, hulog, hvlog, -⟩ := hlogs
  -- Each higher place against the lowest, the other two struck out.
  have hx := (alpha.balance (a := u) (b := v) (c := t) (d := s) (by simp [hs, ht, hu, hv])
    huv.ne (huv.trans htu).ne (hvw.trans huv).ne (hvw.trans (huv.trans htu)).ne htu.ne
    (by simpa only [sumAt, Nat.xor_comm, Nat.xor_left_comm] using hzero)).of_dvd hsmall
  have hy := (alpha.balance (a := t) (b := v) (c := u) (d := s) (by simp [hs, ht, hu, hv])
    huv.ne' htu.ne hvw.ne (hvw.trans (huv.trans htu)).ne (huv.trans htu).ne
    (by simpa only [sumAt, Nat.xor_comm, Nat.xor_left_comm] using hzero)).of_dvd hsmall
  have hz := (alpha.balance (a := s) (b := v) (c := u) (d := t) (by simp [hs, ht, hu, hv])
    (huv.trans htu).ne' htu.ne' hvw.ne (hvw.trans huv).ne huv.ne
    (by simpa only [sumAt, Nat.xor_comm, Nat.xor_left_comm] using hzero)).of_dvd hsmall
  rw [gap_of_lt huv, gap_of_lt (huv.trans htu), gap_of_lt (hvw.trans huv),
    gap_of_lt (hvw.trans (huv.trans htu))] at hx
  rw [gap_comm t.2 u.2, gap_of_lt huv, gap_of_lt htu, gap_of_lt hvw,
    gap_of_lt (hvw.trans (huv.trans htu))] at hy
  rw [gap_comm s.2 u.2, gap_comm s.2 t.2, gap_of_lt (huv.trans htu), gap_of_lt htu, gap_of_lt hvw,
    gap_of_lt (hvw.trans huv)] at hz
  have hxlow : 24 * (u.2 - v.2) + (2 * (u.2 - v.2) + zech (t.2 - u.2) + zech (s.2 - u.2)) ≡
      zech (t.2 - v.2) + zech (s.2 - v.2) [MOD 33] := by
    apply over_lowest hvw hulog hvlog
    convert hx using 1 <;> omega
  have hylow : 24 * (t.2 - v.2) +
      ((u.2 - v.2) + (t.2 - v.2) + zech (t.2 - u.2) + zech (s.2 - t.2)) ≡
      zech (u.2 - v.2) + zech (s.2 - v.2) [MOD 33] := by
    apply over_lowest (hvw.trans huv) htlog hvlog
    convert hy using 1 <;> omega
  have hzlow : 24 * (s.2 - v.2) +
      ((u.2 - v.2) + (t.2 - v.2) + zech (s.2 - u.2) + zech (s.2 - t.2)) ≡
      zech (u.2 - v.2) + zech (t.2 - v.2) [MOD 33] := by
    apply over_lowest (hvw.trans (huv.trans htu)) hslog hvlog
    convert hz using 1 <;> omega
  have hca : s.2 - v.2 - (u.2 - v.2) = s.2 - u.2 := by omega
  have hcb : s.2 - v.2 - (t.2 - v.2) = s.2 - t.2 := by omega
  have hba : t.2 - v.2 - (u.2 - v.2) = t.2 - u.2 := by omega
  apply @not_balanced (u.2 - v.2) (t.2 - v.2) (s.2 - v.2) (by omega) (by omega) (by omega)
    (by omega)
  · rw [hca, hba]
    convert hxlow using 1
    omega
  · rw [hcb, hba]
    convert hylow using 1
    omega
  · rw [hcb, hca]
    convert hzlow using 1
    omega

theorem symbolLog_modEq (v b : Nat) : symbolLog v + 24 * b ≡ 24 * b [MOD 33] := by
  rw [symbolLog]
  exact Nat.modEq_iff_dvd' (Nat.le_add_left _ _) |>.mpr (by simp) |>.symm

/-- A word of at most four values that leaves the empty register empty has none. -/
theorem eq_zero_of_few {word : List Nat} (hlen : word.length ≤ dataSpan)
    (hword : ∀ v ∈ word, v < 2 ^ 5) (hzero : word.foldl (CheckCode.step gen 25 5) 0 = 0)
    (hfew : word.countP (· ≠ 0) ≤ 4) : word.countP (· ≠ 0) = 0 := by
  rw [← @support_length symbolLog 24] at hfew ⊢
  have hsums : ∀ j < 3, sumAt mulAlpha j (support symbolLog 24 word) = 0 := fun j hj =>
    (reading hj).sumAt_eq_zero mulAlpha_linear gen_lt hword hzero
  have hsorted := @support_sorted symbolLog 24 word
  have hspan : ∀ t ∈ support symbolLog 24 word, t.2 < dataSpan := fun t ht =>
    (support_lt ht).trans_le hlen
  have hlogs : ∀ t ∈ support symbolLog 24 word, t.1 ≡ 24 * t.2 [MOD 33] := by
    intro t ht
    obtain ⟨v, -, -, he⟩ := support_eq ht
    exact he ▸ symbolLog_modEq v t.2
  generalize support symbolLog 24 word = terms at hfew hsums hsorted hspan hlogs
  by_cases hthree : terms.length ≤ 3
  · have hdistinct : (terms.map Prod.snd).Nodup := by
      rw [List.Nodup, List.pairwise_map]
      exact hsorted.imp fun h => h.ne'
    rw [alpha.eq_nil_of_sumAt hspan hdistinct fun j hj => hsums j (by omega), List.length_nil]
  · obtain ⟨s, t, u, v, rfl⟩ := List.length_eq_four.mp (show terms.length = 4 by omega)
    simp only [List.pairwise_cons, List.forall_mem_cons] at hsorted
    obtain ⟨⟨hts, -⟩, ⟨hut, -⟩, ⟨hvu, -⟩, -⟩ := hsorted
    exact (four_terms hts hut hvu (hspan s List.mem_cons_self) hlogs hsums).elim

/-- In how many places two lists differ. -/
def differences {α : Type} [DecidableEq α] (s t : List α) : Nat :=
  (s.zip t).countP fun p => p.1 ≠ p.2

section Differences

variable {α : Type} [DecidableEq α]

theorem differences_cons (a b : α) (s t : List α) :
    differences (a :: s) (b :: t) = differences s t + if a = b then 0 else 1 := by
  rw [differences, List.zip_cons_cons, List.countP_cons, differences]
  by_cases h : a = b <;> simp [h]

theorem eq_of_differences {s t : List α} (hlen : s.length = t.length)
    (h : differences s t = 0) : s = t := by
  induction s generalizing t with
  | nil => exact (List.eq_nil_of_length_eq_zero hlen.symm).symm
  | cons a s ih =>
    cases t with
    | nil => exact absurd hlen (Nat.succ_ne_zero _)
    | cons b t =>
      rw [differences_cons] at h
      obtain ⟨hrest, hhead⟩ := Nat.add_eq_zero_iff.mp h
      by_cases hab : a = b
      · rw [hab, ih (Nat.succ.inj hlen) hrest]
      · rw [if_neg hab] at hhead
        cases hhead

end Differences

/-- The exclusive or is not zero where the values differ. -/
theorem differences_xor (v w : List Nat) :
    (List.zipWith (· ^^^ ·) v w).countP (· ≠ 0) = differences v w := by
  induction v generalizing w with
  | nil => rfl
  | cons a v ih =>
    cases w with
    | nil => rfl
    | cons b w =>
      rw [List.zipWith_cons_cons, List.countP_cons, ih, differences_cons]
      by_cases hab : a = b <;> simp [hab]

theorem differences_charOf {v w : List Nat} (hv : ∀ x ∈ v, x < 32) (hw : ∀ x ∈ w, x < 32) :
    differences (v.map charOf) (w.map charOf) = differences v w := by
  induction v generalizing w with
  | nil => rfl
  | cons a v ih =>
    cases w with
    | nil => rfl
    | cons b w =>
      obtain ⟨ha, hv⟩ := List.forall_mem_cons.mp hv
      obtain ⟨hb, hw⟩ := List.forall_mem_cons.mp hw
      have hchar : charOf a = charOf b ↔ a = b := by
        constructor
        · intro he
          have hfind := charsetFind_charOf ha
          rw [he, charsetFind_charOf hb] at hfind
          exact (Option.some.inj hfind).symm
        · exact congrArg charOf
      simp only [List.map_cons, differences_cons, ih hv hw, hchar]

/-- Two payloads of one length under one human-readable part. -/
theorem payload_differences {hrp : Str} {encoding : Encoding} {d d' : Bytes}
    (hd : ∀ v ∈ d, v.toNat < 32) (hd' : ∀ v ∈ d', v.toNat < 32)
    (hlen : d.length = d'.length) (hmax : d.length + 6 ≤ dataSpan)
    (hne : payload hrp encoding d ≠ payload hrp encoding d') :
    4 < differences (payload hrp encoding d) (payload hrp encoding d') := by
  have hsame : (payload hrp encoding d).length = (payload hrp encoding d').length := by
    rw [payload_length, payload_length, hlen]
  have hpolymod : ∀ data : Bytes, (payload hrp encoding data).foldl (CheckCode.step gen 25 5)
      (polymod (hrpExpand hrp)) = encoding.checksumConst := by
    intro data
    rw [polymod, ← List.foldl_append, payload, ← List.append_assoc]
    exact polymod_check _ encoding
  -- The two registers end alike, so the exclusive or of the payloads leaves nothing.
  have hzero : (List.zipWith (· ^^^ ·) (payload hrp encoding d) (payload hrp encoding d')).foldl
      (CheckCode.step gen 25 5) 0 = 0 := by
    have hfold := @foldl_xor gen 25 5 _ _ hsame (polymod (hrpExpand hrp)) (polymod (hrpExpand hrp))
    rwa [hpolymod, hpolymod, Nat.xor_self, Nat.xor_self] at hfold
  have hsmall : ∀ v ∈ List.zipWith (· ^^^ ·) (payload hrp encoding d) (payload hrp encoding d'),
      v < 2 ^ 5 := by
    intro v hv
    obtain ⟨i, hi, rfl⟩ := List.getElem_of_mem hv
    rw [List.getElem_zipWith]
    exact Nat.xor_lt_two_pow (payload_lt hd _ (List.getElem_mem _))
      (payload_lt hd' _ (List.getElem_mem _))
  by_contra hfew
  apply hne
  apply eq_of_differences hsame
  rw [← differences_xor] at hfew ⊢
  apply eq_zero_of_few _ hsmall hzero (Nat.not_lt.mp hfew)
  rw [List.length_zipWith, payload_length, payload_length, hlen, Nat.min_self]
  exact hlen ▸ hmax

/-- Two different strings that the decoder accepts under one constant with one human-readable
part, both in lower case and of one length, differ in more than four characters after the
separator. -/
theorem decode_distance (encoding : Encoding) (hrp s t : Str) (d d' : Bytes)
    (hs : decode s = .ok (hrp, encoding, d)) (ht : decode t = .ok (hrp, encoding, d'))
    (hsLower : s.any isUpper = false) (htLower : t.any isUpper = false)
    (hlen : s.length = t.length) (hne : s ≠ t) :
    4 < differences (s.drop (hrp.length + 1)) (t.drop (hrp.length + 1)) := by
  have hlowered : ∀ {s : Str}, s.any isUpper = false → s.map lower = s := fun h =>
    map_lower fun c hc => Bool.eq_false_iff.mpr (List.any_eq_false.mp h c hc)
  obtain ⟨hsEnc, hhrp, hd, hsize⟩ := encoded_of_decode hs
  obtain ⟨htEnc, -, hd', -⟩ := encoded_of_decode ht
  rw [hlowered hsLower] at hsEnc
  rw [hlowered htLower] at htEnc
  have hdrop : ∀ data, (encoded hrp encoding data).drop (hrp.length + 1) =
      (payload hrp encoding data).map charOf := by
    intro data
    rw [encoded, ← List.drop_drop, List.drop_left, List.drop_one, List.tail_cons]
  have hlength : ∀ data, (encoded hrp encoding data).length = hrp.length + data.length + 7 := by
    intro data
    rw [encoded, List.length_append, List.length_cons, List.length_map, payload_length]
    omega
  have hdlen : d.length = d'.length := by
    rw [hsEnc, htEnc, hlength, hlength] at hlen
    omega
  have hpos := List.length_pos_iff.mpr hhrp
  have hmax : d.length + 6 ≤ dataSpan := by
    rw [bech32MaxLen] at hsize
    rw [dataSpan]
    omega
  rw [hsEnc, htEnc, hdrop, hdrop, differences_charOf (payload_lt hd) (payload_lt hd')]
  apply payload_differences hd hd' hdlen hmax
  intro hsame
  apply hne
  rw [hsEnc, htEnc, encoded, encoded, hsame]

theorem decode_distance_sample : ∃ s t : Str, s.length = t.length ∧ s ≠ t ∧
    4 < differences (s.drop 2) (t.drop 2) := by
  have hreadable : Readable [ofChar '1'] :=
    ⟨List.cons_ne_nil _ _, List.forall_mem_singleton.mpr (by decide),
      List.forall_mem_singleton.mpr (by decide)⟩
  have hdecode : ∀ v : UInt8, v.toNat < 32 →
      decode (encoded [ofChar '1'] .bech32 [v]) = .ok ([ofChar '1'], .bech32, [v]) := fun v hv =>
    decode_encoded hreadable (List.forall_mem_singleton.mpr hv)
      (show 1 + 1 + 7 ≤ bech32MaxLen by decide)
  have hne : encoded [ofChar '1'] .bech32 [0] ≠ encoded [ofChar '1'] .bech32 [1] := by
    decide +kernel
  refine ⟨encoded [ofChar '1'] .bech32 [0], encoded [ofChar '1'] .bech32 [1], by decide +kernel,
    hne, ?_⟩
  exact decode_distance .bech32 [ofChar '1'] _ _ [0] [1] (hdecode 0 (by decide))
    (hdecode 1 (by decide)) (by decide +kernel) (by decide +kernel) (by decide +kernel) hne

end Yubtc.Bech32Distance
