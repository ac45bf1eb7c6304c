import Mathlib

/-!
Checksums by linear feedback. A register takes in one symbol a step: it keeps its low part,
moved up by the width of a symbol, and adds a generator for every bit that falls out at the top.
All of it is linear in exclusive or, so a check part that brings the register to a constant can
be computed.
-/
namespace CheckCode

/-- The generators whose bit is set in `top` are added to the register. -/
def feedback (gens : List Nat) (top chk : Nat) : Nat :=
  gens.zipIdx.foldl (fun chk g => if (top >>> g.2) &&& 1 = 1 then chk ^^^ g.1 else chk) chk

/-- One symbol. -/
def step (gens : List Nat) (keep width chk v : Nat) : Nat :=
  feedback gens (chk >>> keep) (((chk &&& (2 ^ keep - 1)) <<< width) ^^^ v)

/-- The `n` symbols of a number, most significant first. -/
def symbols (width : Nat) : Nat → Nat → List Nat
  | 0, _ => []
  | n + 1, c => symbols width n (c >>> width) ++ [c &&& (2 ^ width - 1)]

variable {gens : List Nat} {keep width : Nat}

/-- A generator, or nothing. -/
def pick (bit : Bool) (g : Nat) : Nat := if bit then g else 0

theorem pick_xor (a b : Bool) (g : Nat) : pick (a ^^ b) g = pick a g ^^^ pick b g := by
  cases a <;> cases b <;> simp [pick]

theorem bit_eq_testBit (top i : Nat) : ((top >>> i) &&& 1 = 1) = (top.testBit i = true) := by
  rw [Nat.testBit, Nat.and_comm 1]
  rcases Nat.mod_two_eq_zero_or_one (top >>> i) with h | h <;> simp [Nat.and_one_is_mod, h]

theorem foldl_pick (gs : List (Nat × Nat)) (top chk : Nat) :
    gs.foldl (fun chk g => if (top >>> g.2) &&& 1 = 1 then chk ^^^ g.1 else chk) chk =
      chk ^^^ (gs.map fun g => pick (top.testBit g.2) g.1).foldr (· ^^^ ·) 0 := by
  induction gs generalizing chk with
  | nil => simp
  | cons g gs ih =>
    rw [List.foldl_cons, ih, List.map_cons, List.foldr_cons, ← Nat.xor_assoc]
    congr 1
    simp only [bit_eq_testBit]
    cases top.testBit g.2 <;> simp [pick]

/-- What falls out at the top adds. -/
def fallout (gens : List Nat) (top : Nat) : Nat :=
  (gens.zipIdx.map fun g => pick (top.testBit g.2) g.1).foldr (· ^^^ ·) 0

theorem feedback_eq (top chk : Nat) : feedback gens top chk = chk ^^^ fallout gens top :=
  foldl_pick gens.zipIdx top chk

theorem fallout_xor (a b : Nat) : fallout gens (a ^^^ b) = fallout gens a ^^^ fallout gens b := by
  unfold fallout
  induction gens.zipIdx with
  | nil => exact (Nat.xor_self 0).symm
  | cons g gs ih =>
    rw [List.map_cons, List.foldr_cons, ih, Nat.testBit_xor, pick_xor]
    simp only [List.map_cons, List.foldr_cons]
    ac_rfl

@[simp] theorem fallout_zero : fallout gens 0 = 0 := by
  unfold fallout
  induction gens.zipIdx with
  | nil => rfl
  | cons g gs ih =>
    rw [List.map_cons, List.foldr_cons, ih, Nat.zero_testBit, Nat.xor_zero]
    rfl

theorem fallout_lt {size : Nat} (h : ∀ g ∈ gens, g < 2 ^ size) (top : Nat) :
    fallout gens top < 2 ^ size := by
  have hall : ∀ g ∈ gens.zipIdx, g.1 < 2 ^ size := fun g hg =>
    h g.1 (List.fst_mem_of_mem_zipIdx hg)
  unfold fallout
  revert hall
  induction gens.zipIdx with
  | nil => exact fun _ => Nat.two_pow_pos size
  | cons g gs ih =>
    intro hall
    have hg : pick (top.testBit g.2) g.1 < 2 ^ size := by
      unfold pick
      split
      · exact hall g List.mem_cons_self
      · exact Nat.two_pow_pos size
    exact Nat.xor_lt_two_pow hg (ih fun x hx => hall x (List.mem_cons_of_mem _ hx))

/-- A step without a symbol. -/
def shift (gens : List Nat) (keep width chk : Nat) : Nat := step gens keep width chk 0

theorem shift_eq (chk : Nat) : shift gens keep width chk =
    ((chk &&& (2 ^ keep - 1)) <<< width) ^^^ fallout gens (chk >>> keep) := by
  rw [shift, step, feedback_eq, Nat.xor_zero]

theorem step_eq (chk v : Nat) : step gens keep width chk v = shift gens keep width chk ^^^ v := by
  rw [shift_eq, step, feedback_eq]
  ac_rfl

theorem shift_xor (a b : Nat) : shift gens keep width (a ^^^ b) =
    shift gens keep width a ^^^ shift gens keep width b := by
  simp only [shift_eq, Nat.and_xor_distrib_right, Nat.shiftLeft_xor_distrib,
    Nat.shiftRight_xor_distrib, fallout_xor]
  ac_rfl

/-- Nothing falls out of a register whose top is empty. -/
theorem shift_small {c : Nat} (h : c < 2 ^ keep) : shift gens keep width c = c <<< width := by
  rw [shift_eq, Nat.and_two_pow_sub_one_of_lt_two_pow h,
    Nat.shiftRight_eq_zero c keep h, fallout_zero, Nat.xor_zero]

theorem shift_lt (h : ∀ g ∈ gens, g < 2 ^ (keep + width)) (chk : Nat) :
    shift gens keep width chk < 2 ^ (keep + width) := by
  rw [shift_eq]
  refine Nat.xor_lt_two_pow ?_ (fallout_lt h _)
  rw [Nat.and_two_pow_sub_one_eq_mod, Nat.shiftLeft_eq, pow_add]
  exact Nat.mul_lt_mul_of_pos_right (Nat.mod_lt _ (Nat.two_pow_pos keep)) (Nat.two_pow_pos width)

theorem foldl_zeros (n p : Nat) : (List.replicate n 0).foldl (step gens keep width) p =
    (shift gens keep width)^[n] p := by
  induction n generalizing p with
  | zero => rfl
  | succ n ih => rw [List.replicate_succ, List.foldl_cons, ih, Function.iterate_succ_apply, shift]

theorem shift_parts (c : Nat) : ((c >>> width) <<< width) ^^^ (c &&& (2 ^ width - 1)) = c := by
  refine Nat.eq_of_testBit_eq fun i => ?_
  simp only [Nat.testBit_xor, Nat.testBit_shiftLeft, Nat.testBit_shiftRight, Nat.testBit_and,
    Nat.testBit_two_pow_sub_one]
  by_cases hi : width ≤ i
  · simp [hi, Nat.add_sub_cancel' hi, Nat.not_lt.mpr hi]
  · simp [hi, Nat.not_le.mp hi]

theorem foldl_symbols {n c : Nat} (p : Nat) (hc : c < 2 ^ (width * n)) (hn : width * n ≤ keep + width) :
    (symbols width n c).foldl (step gens keep width) p = (shift gens keep width)^[n] p ^^^ c := by
  induction n generalizing c with
  | zero =>
    obtain rfl : c = 0 := by simpa using hc
    exact (Nat.xor_zero p).symm
  | succ n ih =>
    rw [Nat.mul_succ] at hc hn
    have hsmall : c >>> width < 2 ^ (width * n) := by
      rw [Nat.shiftRight_eq_div_pow, Nat.div_lt_iff_lt_mul (Nat.two_pow_pos width), ← pow_add]
      exact hc
    have hkeep : c >>> width < 2 ^ keep :=
      hsmall.trans_le (Nat.pow_le_pow_right Nat.two_pos (by omega))
    rw [symbols, List.foldl_append, ih hsmall (by omega), List.foldl_cons, List.foldl_nil, step_eq,
      shift_xor, shift_small hkeep, Nat.xor_assoc, shift_parts, Function.iterate_succ_apply']

/-- With the check part of a constant, the register ends in that constant. -/
theorem foldl_check {n const : Nat} (p : Nat) (hpos : 0 < n) (hn : width * n = keep + width)
    (hgens : ∀ g ∈ gens, g < 2 ^ (keep + width)) (hconst : const < 2 ^ (keep + width)) :
    (symbols width n ((List.replicate n 0).foldl (step gens keep width) p ^^^ const)).foldl
      (step gens keep width) p = const := by
  have hlt : (shift gens keep width)^[n] p < 2 ^ (keep + width) := by
    obtain ⟨m, rfl⟩ := Nat.exists_eq_succ_of_ne_zero hpos.ne'
    rw [Function.iterate_succ_apply']
    exact shift_lt hgens _
  rw [foldl_zeros, foldl_symbols p (hn ▸ Nat.xor_lt_two_pow hlt hconst) hn.le, ← Nat.xor_assoc,
    Nat.xor_self, Nat.zero_xor]

/-- Every list of symbols is a number's. -/
theorem exists_symbols {values : List Nat} (h : ∀ v ∈ values, v < 2 ^ width) :
    ∃ c < 2 ^ (width * values.length), symbols width values.length c = values := by
  induction values using List.reverseRecOn with
  | nil => exact ⟨0, Nat.two_pow_pos _, rfl⟩
  | append_singleton values v ih =>
    obtain ⟨c, hc, hvalues⟩ := ih fun x hx => h x (List.mem_append_left _ hx)
    have hv : v < 2 ^ width := h v (by simp)
    have hpow : 2 ^ (width * (values.length + 1)) = 2 ^ (width * values.length) * 2 ^ width := by
      rw [Nat.mul_succ, pow_add]
    rw [List.length_append, List.length_singleton]
    refine ⟨c * 2 ^ width + v, ?_, ?_⟩
    · calc c * 2 ^ width + v < (c + 1) * 2 ^ width := by
            rw [Nat.add_mul, Nat.one_mul]
            exact Nat.add_lt_add_left hv _
        _ ≤ 2 ^ (width * values.length) * 2 ^ width := Nat.mul_le_mul_right _ hc
        _ = 2 ^ (width * (values.length + 1)) := hpow.symm
    · have hhigh : (c * 2 ^ width + v) >>> width = c := by
        rw [Nat.shiftRight_eq_div_pow, Nat.mul_comm, Nat.mul_add_div (Nat.two_pow_pos width),
          Nat.div_eq_of_lt hv, Nat.add_zero]
      have hlow : (c * 2 ^ width + v) &&& (2 ^ width - 1) = v := by
        rw [Nat.and_two_pow_sub_one_eq_mod, Nat.mul_comm, Nat.mul_add_mod, Nat.mod_eq_of_lt hv]
      rw [symbols, hhigh, hlow, hvalues]

/-- The check part is the only one that brings the register to its constant. -/
theorem check_unique {const : Nat} {p : Nat} {check : List Nat}
    (hn : width * check.length = keep + width) (hcheck : ∀ v ∈ check, v < 2 ^ width)
    (h : check.foldl (step gens keep width) p = const) :
    symbols width check.length
      ((List.replicate check.length 0).foldl (step gens keep width) p ^^^ const) = check := by
  obtain ⟨c, hc, hsymbols⟩ := exists_symbols hcheck
  rw [← hsymbols, foldl_symbols p hc hn.le] at h
  have hsame : (List.replicate check.length 0).foldl (step gens keep width) p ^^^ const = c := by
    rw [foldl_zeros, ← h, ← Nat.xor_assoc, Nat.xor_self, Nat.zero_xor]
  rw [hsame, hsymbols]

end CheckCode
