import Yubtc.Lib.CheckCode

/-!
How many symbols a checksum can tell apart. The register of a checksum reads, in several ways,
as an element of a field whose nonzero elements are the powers of one of them; a word that leaves
the register empty is then a sum of powers that vanishes at consecutive places. Only long sums do.
The field is never built: all that is used of it is the multiplication by the one element, which
is linear in exclusive or, its order, and a table of the sums of two powers.
-/
namespace BchCode

/-- What the multiplication by the element makes of one. -/
def power (next : Nat → Nat) (n : Nat) : Nat := next^[n] 1

/-- The element, its order, and which power one more than a power is. -/
structure Element (next zech : Nat → Nat) (order span : Nat) : Prop where
  linear : ∀ a b, next (a ^^^ b) = next a ^^^ next b
  minimal : Function.minimalPeriod next 1 = order
  positive : 0 < order
  sums : ∀ d < span, 0 < d → power next d ^^^ 1 = power next (zech d)

variable {next zech : Nat → Nat} {order span : Nat}

theorem linear_zero {f : Nat → Nat} (h : ∀ a b, f (a ^^^ b) = f a ^^^ f b) : f 0 = 0 := by
  have hzero := h 0 0
  rwa [Nat.xor_self, Nat.xor_self] at hzero

theorem iterate_linear {f : Nat → Nat} (h : ∀ a b, f (a ^^^ b) = f a ^^^ f b) (n a b : Nat) :
    f^[n] (a ^^^ b) = f^[n] a ^^^ f^[n] b := by
  induction n generalizing a b with
  | zero => rfl
  | succ n ih => rw [Function.iterate_succ_apply, h, ih]; rfl

/-- The lowest bits, and the one above them. -/
theorem split_top (n c : Nat) (h : c < 2 ^ (n + 1)) :
    c = (c % 2 ^ n) ^^^ CheckCode.pick (c.testBit n) (2 ^ n) := by
  refine Nat.eq_of_testBit_eq fun i => ?_
  rw [Nat.testBit_xor, Nat.testBit_mod_two_pow]
  rcases lt_trichotomy i n with hi | rfl | hi
  · cases c.testBit n <;> simp [CheckCode.pick, hi, hi.ne']
  · cases hbit : c.testBit i <;> simp [CheckCode.pick]
  · have hhigh : c.testBit i = false :=
      Nat.testBit_lt_two_pow (h.trans_le (Nat.pow_le_pow_right Nat.two_pos hi))
    cases c.testBit n <;> simp [CheckCode.pick, hhigh, hi.not_gt, hi.ne]

/-- Linear maps that agree on the bits agree. -/
theorem linear_ext {f g : Nat → Nat} (hf : ∀ a b, f (a ^^^ b) = f a ^^^ f b)
    (hg : ∀ a b, g (a ^^^ b) = g a ^^^ g b) {n : Nat} (hbits : ∀ b < n, f (2 ^ b) = g (2 ^ b)) :
    ∀ c < 2 ^ n, f c = g c := by
  induction n with
  | zero =>
    intro c hc
    obtain rfl : c = 0 := by simpa using hc
    rw [linear_zero hf, linear_zero hg]
  | succ n ih =>
    intro c hc
    have hlow := ih (fun b hb => hbits b (by omega)) (c % 2 ^ n) (Nat.mod_lt _ (Nat.two_pow_pos n))
    rw [split_top n c hc, hf, hg, hlow]
    cases c.testBit n
    · rw [CheckCode.pick, if_neg Bool.false_ne_true, linear_zero hf, linear_zero hg]
    · rw [CheckCode.pick, if_pos rfl, hbits n (by omega)]

theorem iterate_power (m n : Nat) : next^[m] (power next n) = power next (m + n) :=
  (Function.iterate_add_apply next m n 1).symm

namespace Element

theorem power_ne_zero (he : Element next zech order span) (n : Nat) : power next n ≠ 0 := by
  intro hzero
  have hperiod : power next (order * (n + 1)) = 1 := by
    have hone : Function.IsPeriodicPt next order 1 :=
      he.minimal ▸ Function.isPeriodicPt_minimalPeriod next 1
    exact hone.mul_const (n + 1)
  have hle : n ≤ order * (n + 1) := n.le_succ.trans (Nat.le_mul_of_pos_left _ he.positive)
  rw [← Nat.sub_add_cancel hle, ← iterate_power, hzero] at hperiod
  have hfix : next^[order * (n + 1) - n] 0 = 0 := Function.iterate_fixed (linear_zero he.linear) _
  exact absurd (hfix.symm.trans hperiod) Nat.zero_ne_one

/-- Equal powers have logarithms that agree modulo the order. -/
theorem modEq_of_power (he : Element next zech order span) {a b : Nat}
    (h : power next a = power next b) : a ≡ b [MOD order] := by
  have hmod : ∀ n, power next n = next^[n % order] 1 := by
    intro n
    rw [← he.minimal]
    exact Function.iterate_mod_minimalPeriod_eq.symm
  rw [hmod a, hmod b] at h
  refine (Function.iterate_eq_iterate_iff_of_lt_minimalPeriod ?_ ?_).mp h
  · rw [he.minimal]
    exact Nat.mod_lt _ he.positive
  · rw [he.minimal]
    exact Nat.mod_lt _ he.positive

end Element

/-- The logarithm of the sum of two powers that differ. -/
def gap (zech : Nat → Nat) (a b : Nat) : Nat := min a b + zech (Nat.dist a b)

theorem gap_comm (a b : Nat) : gap zech a b = gap zech b a := by
  rw [gap, gap, Nat.min_comm, Nat.dist_comm]

theorem gap_of_lt {a b : Nat} (h : a < b) : gap zech a b = a + zech (b - a) := by
  rw [gap, Nat.min_eq_left h.le, Nat.dist_eq_sub_of_le h.le]

theorem Element.power_xor_of_lt (he : Element next zech order span) {a b : Nat} (hab : a < b)
    (hb : b < span) : power next a ^^^ power next b = power next (gap zech a b) := by
  calc power next a ^^^ power next b
      = next^[a] (power next 0) ^^^ next^[a] (power next (b - a)) := by
        rw [iterate_power, iterate_power, Nat.add_zero, Nat.add_sub_cancel' hab.le]
    _ = next^[a] (power next (b - a) ^^^ 1) := by
        rw [← iterate_linear he.linear, Nat.xor_comm]; rfl
    _ = power next (gap zech a b) := by
        rw [he.sums (b - a) (by omega) (by omega), iterate_power, gap_of_lt hab]

theorem Element.power_xor (he : Element next zech order span) {a b : Nat} (ha : a < span)
    (hb : b < span) (hne : a ≠ b) : power next a ^^^ power next b = power next (gap zech a b) := by
  cases Nat.lt_or_gt_of_ne hne with
  | inl hlt => exact he.power_xor_of_lt hlt hb
  | inr hgt => rw [Nat.xor_comm, gap_comm, he.power_xor_of_lt hgt ha]

/-- A sum of powers, at a place. A term is a logarithm and how fast it grows from place to
place. -/
def sumAt (next : Nat → Nat) (j : Nat) : List (Nat × Nat) → Nat
  | [] => 0
  | t :: terms => power next (t.1 + j * t.2) ^^^ sumAt next j terms

/-- Without the terms of a growth: the sum at the next place, less that growth of the sum here. -/
def strike (zech : Nat → Nat) (i : Nat) : List (Nat × Nat) → List (Nat × Nat)
  | [] => []
  | t :: terms =>
    if t.2 = i then strike zech i terms else (t.1 + gap zech t.2 i, t.2) :: strike zech i terms

@[simp] theorem strike_nil (i : Nat) : strike zech i [] = [] := rfl

@[simp] theorem strike_cons_self (i a : Nat) (terms : List (Nat × Nat)) :
    strike zech i ((a, i) :: terms) = strike zech i terms := if_pos rfl

theorem strike_cons_ne {i : Nat} {t : Nat × Nat} (h : t.2 ≠ i) (terms : List (Nat × Nat)) :
    strike zech i (t :: terms) = (t.1 + gap zech t.2 i, t.2) :: strike zech i terms := if_neg h

/-- A growth that does not occur strikes nothing out. -/
theorem strike_map_snd {i : Nat} {terms : List (Nat × Nat)} (h : ∀ t ∈ terms, t.2 ≠ i) :
    (strike zech i terms).map Prod.snd = terms.map Prod.snd := by
  induction terms with
  | nil => rfl
  | cons t terms ih =>
    rw [strike_cons_ne (h t List.mem_cons_self), List.map_cons, List.map_cons,
      ih fun s hs => h s (List.mem_cons_of_mem _ hs)]

theorem strike_snd {i : Nat} {terms : List (Nat × Nat)} {s : Nat × Nat}
    (hs : s ∈ strike zech i terms) : ∃ t ∈ terms, t.2 = s.2 := by
  induction terms with
  | nil => exact absurd hs List.not_mem_nil
  | cons t terms ih =>
    by_cases hi : t.2 = i
    · rw [strike, if_pos hi] at hs
      obtain ⟨u, hu, he⟩ := ih hs
      exact ⟨u, List.mem_cons_of_mem _ hu, he⟩
    · rw [strike_cons_ne hi] at hs
      cases List.mem_cons.mp hs with
      | inl he => exact ⟨t, List.mem_cons_self, by rw [he]⟩
      | inr hs =>
        obtain ⟨u, hu, he⟩ := ih hs
        exact ⟨u, List.mem_cons_of_mem _ hu, he⟩

/-- One term: the growth that is struck cancels it, another only moves it. -/
theorem Element.strike_term (he : Element next zech order span) {t : Nat × Nat} {i : Nat} (j : Nat)
    (ht : t.2 < span) (hi : i < span) (hne : t.2 ≠ i) :
    power next (t.1 + (j + 1) * t.2) ^^^ next^[i] (power next (t.1 + j * t.2)) =
      power next (t.1 + gap zech t.2 i + j * t.2) := by
  calc power next (t.1 + (j + 1) * t.2) ^^^ next^[i] (power next (t.1 + j * t.2))
      = next^[t.1 + j * t.2] (power next t.2) ^^^ next^[t.1 + j * t.2] (power next i) := by
        rw [iterate_power, iterate_power, iterate_power, Nat.add_comm i]
        congr 2
        ring
    _ = next^[t.1 + j * t.2] (power next (gap zech t.2 i)) := by
        rw [← iterate_linear he.linear, he.power_xor ht hi hne]
    _ = power next (t.1 + gap zech t.2 i + j * t.2) := by
        rw [iterate_power]
        congr 1
        ring

theorem Element.sumAt_strike (he : Element next zech order span) {i : Nat} (hi : i < span)
    {terms : List (Nat × Nat)} (hterms : ∀ t ∈ terms, t.2 < span) (j : Nat) :
    sumAt next j (strike zech i terms) =
      sumAt next (j + 1) terms ^^^ next^[i] (sumAt next j terms) := by
  induction terms with
  | nil =>
    have hfix : next^[i] 0 = 0 := Function.iterate_fixed (linear_zero he.linear) i
    rw [strike, sumAt, sumAt, hfix, Nat.xor_self]
  | cons t terms ih =>
    have hrest := ih fun s hs => hterms s (List.mem_cons_of_mem _ hs)
    have hsplit : sumAt next (j + 1) (t :: terms) ^^^ next^[i] (sumAt next j (t :: terms)) =
        (power next (t.1 + (j + 1) * t.2) ^^^ next^[i] (power next (t.1 + j * t.2))) ^^^
          sumAt next j (strike zech i terms) := by
      rw [hrest, sumAt, sumAt, iterate_linear he.linear]
      ac_rfl
    rw [hsplit]
    by_cases hti : t.2 = i
    · have hcancel : next^[i] (power next (t.1 + j * t.2)) = power next (t.1 + (j + 1) * t.2) := by
        rw [iterate_power, hti]
        congr 1
        ring
      rw [strike, if_pos hti, hcancel, Nat.xor_self, Nat.zero_xor]
    · rw [strike_cons_ne hti, sumAt, he.strike_term j (hterms t List.mem_cons_self) hi hti]

/-- Striking a growth costs one place. -/
theorem Element.strike_zero (he : Element next zech order span) {i n : Nat} (hi : i < span)
    {terms : List (Nat × Nat)} (hterms : ∀ t ∈ terms, t.2 < span)
    (hzero : ∀ j < n + 1, sumAt next j terms = 0) :
    ∀ j < n, sumAt next j (strike zech i terms) = 0 := by
  intro j hj
  have hfix : next^[i] 0 = 0 := Function.iterate_fixed (linear_zero he.linear) i
  rw [he.sumAt_strike hi hterms, hzero j (by omega), hzero (j + 1) (by omega), hfix,
    Nat.xor_self]

/-- A sum that vanishes at as many consecutive places as it has terms has none. -/
theorem Element.eq_nil_of_sumAt (he : Element next zech order span)
    {terms : List (Nat × Nat)} (hspan : ∀ t ∈ terms, t.2 < span)
    (hdistinct : (terms.map Prod.snd).Nodup)
    (hzero : ∀ j < terms.length, sumAt next j terms = 0) : terms = [] := by
  generalize hn : terms.length = n at hzero
  induction n generalizing terms with
  | zero => exact List.eq_nil_of_length_eq_zero hn
  | succ n ih =>
    cases terms with
    | nil => rfl
    | cons t terms =>
      obtain ⟨hnotMem, hnodup⟩ := List.nodup_cons.mp (List.map_cons ▸ hdistinct)
      have hother : ∀ s ∈ terms, s.2 ≠ t.2 := by
        intro s hs hst
        exact hnotMem (hst ▸ List.mem_map_of_mem hs)
      have hsnd := @strike_map_snd zech _ _ hother
      have hlength : (strike zech t.2 terms).length = n := by
        have hmap := congrArg List.length hsnd
        rw [List.length_map, List.length_map] at hmap
        exact hmap.trans (Nat.succ.inj hn)
      -- Struck by its own growth, the sum has one term less and vanishes at one place less.
      have hnil : strike zech t.2 terms = [] := by
        refine ih ?_ (hsnd ▸ hnodup) hlength ?_
        · intro s hs
          obtain ⟨u, hu, hus⟩ := strike_snd hs
          exact hus ▸ hspan u (List.mem_cons_of_mem _ hu)
        · have hstruck := he.strike_zero (hspan t List.mem_cons_self) hspan hzero
          rwa [strike, if_pos rfl] at hstruck
      have hlast : terms = [] := by
        rw [hnil] at hsnd
        exact List.map_eq_nil_iff.mp hsnd.symm
      have hone := hzero 0 (Nat.succ_pos n)
      rw [hlast, sumAt, sumAt, Nat.xor_zero] at hone
      exact absurd hone (he.power_ne_zero _)

/-- Two terms that cancel have one logarithm. -/
theorem Element.modEq_of_pair (he : Element next zech order span) {s t : Nat × Nat}
    (h : sumAt next 0 [s, t] = 0) : s.1 ≡ t.1 [MOD order] := by
  rw [sumAt, sumAt, sumAt, Nat.xor_zero, Nat.zero_mul, Nat.zero_mul, Nat.add_zero,
    Nat.add_zero, Nat.xor_eq_zero_iff] at h
  exact he.modEq_of_power h

/-- Four terms that vanish at three places, two of them struck out. -/
theorem Element.balance (he : Element next zech order span) {a b c d : Nat × Nat}
    (hspan : ∀ t ∈ [a, b, c, d], t.2 < span) (hac : a.2 ≠ c.2) (had : a.2 ≠ d.2) (hbc : b.2 ≠ c.2)
    (hbd : b.2 ≠ d.2) (hcd : c.2 ≠ d.2) (hzero : ∀ j < 3, sumAt next j [a, b, c, d] = 0) :
    a.1 + gap zech a.2 c.2 + gap zech a.2 d.2 ≡
      b.1 + gap zech b.2 c.2 + gap zech b.2 d.2 [MOD order] := by
  have hfirst : strike zech c.2 [a, b, c, d] = [(a.1 + gap zech a.2 c.2, a.2),
      (b.1 + gap zech b.2 c.2, b.2), (d.1 + gap zech d.2 c.2, d.2)] := by
    simp [strike, hac, hbc, hcd.symm]
  have hsecond : strike zech d.2 (strike zech c.2 [a, b, c, d]) =
      [(a.1 + gap zech a.2 c.2 + gap zech a.2 d.2, a.2),
        (b.1 + gap zech b.2 c.2 + gap zech b.2 d.2, b.2)] := by
    rw [hfirst]
    simp [strike, had, hbd]
  have hspanStruck : ∀ t ∈ strike zech c.2 [a, b, c, d], t.2 < span := by
    intro t ht
    obtain ⟨u, hu, hut⟩ := strike_snd ht
    exact hut ▸ hspan u hu
  have honce := he.strike_zero (hspan c (by simp)) hspan hzero
  have htwice := he.strike_zero (hspan d (by simp)) hspanStruck honce 0 Nat.one_pos
  rw [hsecond] at htwice
  exact he.modEq_of_pair htwice

/-- A reading of the register as an element of the field: moving up multiplies by a power, and a
symbol is a power by itself. -/
structure Reading (gens : List Nat) (keep width : Nat) (next logarithm : Nat → Nat) (r : Nat)
    (read : Nat → Nat) : Prop where
  linear : ∀ a b, read (a ^^^ b) = read a ^^^ read b
  shift : ∀ c < 2 ^ (keep + width), read (CheckCode.shift gens keep width c) = next^[r] (read c)
  symbol : ∀ v < 2 ^ width, 0 < v → read v = power next (logarithm v)

/-- The symbols of a word that are not zero: the logarithm of each at its place, and the place,
counted from the end. -/
def support (logarithm : Nat → Nat) (base : Nat) : List Nat → List (Nat × Nat)
  | [] => []
  | v :: word =>
    if v = 0 then support logarithm base word
    else (logarithm v + base * word.length, word.length) :: support logarithm base word

variable {logarithm : Nat → Nat} {base : Nat}

theorem support_length (word : List Nat) :
    (support logarithm base word).length = word.countP (· ≠ 0) := by
  induction word with
  | nil => rfl
  | cons v word ih =>
    by_cases hv : v = 0
    · rw [support, if_pos hv, ih, List.countP_cons_of_neg (by simpa using hv)]
    · rw [support, if_neg hv, List.length_cons, ih, List.countP_cons_of_pos (by simpa using hv)]

theorem support_lt {word : List Nat} {t : Nat × Nat} (ht : t ∈ support logarithm base word) :
    t.2 < word.length := by
  induction word with
  | nil => exact absurd ht List.not_mem_nil
  | cons v word ih =>
    rw [support] at ht
    split at ht
    · exact (ih ht).trans (Nat.lt_succ_self _)
    · cases List.mem_cons.mp ht with
      | inl he =>
        rw [he]
        exact Nat.lt_succ_self _
      | inr ht => exact (ih ht).trans (Nat.lt_succ_self _)

/-- The places come in falling order. -/
theorem support_sorted (word : List Nat) :
    (support logarithm base word).Pairwise fun s t => t.2 < s.2 := by
  induction word with
  | nil => exact List.Pairwise.nil
  | cons v word ih =>
    rw [support]
    split
    · exact ih
    · exact List.pairwise_cons.mpr ⟨fun t ht => support_lt ht, ih⟩

theorem support_eq {word : List Nat} {t : Nat × Nat} (ht : t ∈ support logarithm base word) :
    ∃ v ∈ word, v ≠ 0 ∧ t.1 = logarithm v + base * t.2 := by
  induction word with
  | nil => exact absurd ht List.not_mem_nil
  | cons v word ih =>
    rw [support] at ht
    split at ht
    · obtain ⟨u, hu, htu⟩ := ih ht
      exact ⟨u, List.mem_cons_of_mem _ hu, htu⟩
    · next hv =>
      cases List.mem_cons.mp ht with
      | inl he => exact ⟨v, List.mem_cons_self, hv, by rw [he]⟩
      | inr ht =>
        obtain ⟨u, hu, htu⟩ := ih ht
        exact ⟨u, List.mem_cons_of_mem _ hu, htu⟩

section Reading

variable {gens : List Nat} {keep width : Nat}

/-- What a word makes of the register, as read: what was there, moved up, and the sum of the
word's symbols. -/
theorem Reading.foldl_step (hlinear : ∀ a b, next (a ^^^ b) = next a ^^^ next b)
    (hgens : ∀ g ∈ gens, g < 2 ^ (keep + width)) {j : Nat} {read : Nat → Nat}
    (hr : Reading gens keep width next logarithm (base + j) read) {word : List Nat}
    (hword : ∀ v ∈ word, v < 2 ^ width) {c : Nat} (hc : c < 2 ^ (keep + width)) :
    read (word.foldl (CheckCode.step gens keep width) c) =
      next^[(base + j) * word.length] (read c) ^^^ sumAt next j (support logarithm base word) := by
  induction word generalizing c with
  | nil => exact (Nat.xor_zero _).symm
  | cons v word ih =>
    have hv := hword v List.mem_cons_self
    have hwide : v < 2 ^ (keep + width) :=
      hv.trans_le (Nat.pow_le_pow_right Nat.two_pos (Nat.le_add_left _ _))
    have hstep : CheckCode.step gens keep width c v < 2 ^ (keep + width) := by
      rw [CheckCode.step_eq]
      exact Nat.xor_lt_two_pow (CheckCode.shift_lt hgens c) hwide
    have hmoved : next^[(base + j) * word.length] (next^[base + j] (read c)) =
        next^[(base + j) * (v :: word).length] (read c) := by
      rw [← Function.iterate_add_apply, List.length_cons, Nat.mul_succ]
    rw [List.foldl_cons, ih (fun x hx => hword x (List.mem_cons_of_mem _ hx)) hstep,
      CheckCode.step_eq, hr.linear, hr.shift c hc, iterate_linear hlinear, hmoved, support]
    by_cases hzero : v = 0
    · have hnone : next^[(base + j) * word.length] (read v) = 0 := by
        rw [hzero, linear_zero hr.linear, Function.iterate_fixed (linear_zero hlinear)]
      rw [if_pos hzero, hnone, Nat.xor_zero]
    · have hterm : next^[(base + j) * word.length] (read v) =
          power next (logarithm v + base * word.length + j * word.length) := by
        rw [hr.symbol v hv (Nat.pos_of_ne_zero hzero), iterate_power]
        congr 1
        ring
      rw [if_neg hzero, sumAt, hterm, Nat.xor_assoc]

/-- A word that leaves the empty register empty vanishes wherever it is read. -/
theorem Reading.sumAt_eq_zero (hlinear : ∀ a b, next (a ^^^ b) = next a ^^^ next b)
    (hgens : ∀ g ∈ gens, g < 2 ^ (keep + width)) {j : Nat} {read : Nat → Nat}
    (hr : Reading gens keep width next logarithm (base + j) read) {word : List Nat}
    (hword : ∀ v ∈ word, v < 2 ^ width)
    (hzero : word.foldl (CheckCode.step gens keep width) 0 = 0) :
    sumAt next j (support logarithm base word) = 0 := by
  have hfold := hr.foldl_step hlinear hgens hword (Nat.two_pow_pos _)
  rw [hzero, linear_zero hr.linear, Function.iterate_fixed (linear_zero hlinear),
    Nat.zero_xor] at hfold
  exact hfold.symm

end Reading

/-- Two words of one length: where they differ is what the exclusive or brings. -/
theorem foldl_xor {gens : List Nat} {keep width : Nat} {v w : List Nat} (hlen : v.length = w.length)
    (p q : Nat) :
    (List.zipWith (· ^^^ ·) v w).foldl (CheckCode.step gens keep width) (p ^^^ q) =
      v.foldl (CheckCode.step gens keep width) p ^^^
        w.foldl (CheckCode.step gens keep width) q := by
  induction v generalizing w p q with
  | nil =>
    obtain rfl : w = [] := List.eq_nil_of_length_eq_zero hlen.symm
    rfl
  | cons a v ih =>
    cases w with
    | nil => exact absurd hlen (Nat.succ_ne_zero _)
    | cons b w =>
      have hstep : CheckCode.step gens keep width (p ^^^ q) (a ^^^ b) =
          CheckCode.step gens keep width p a ^^^ CheckCode.step gens keep width q b := by
        simp only [CheckCode.step_eq, CheckCode.shift_xor]
        ac_rfl
      rw [List.zipWith_cons_cons, List.foldl_cons, hstep, ih (Nat.succ.inj hlen), List.foldl_cons,
        List.foldl_cons]

end BchCode
