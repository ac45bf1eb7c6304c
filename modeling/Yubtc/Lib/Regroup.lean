import Mathlib

/-!
Digits of one width regrouped into digits of another, most significant first. A buffer takes in
digits of the first width and gives out digits of the second as soon as it holds enough bits.
-/
namespace Regroup

/-- The number that digits of the given width stand for. -/
def value (width : Nat) (digits : List Nat) : Nat :=
  digits.foldl (fun n d => n * 2 ^ width + d) 0

@[simp] theorem value_nil (width : Nat) : value width [] = 0 := rfl

@[simp] theorem value_concat (width : Nat) (digits : List Nat) (d : Nat) :
    value width (digits ++ [d]) = value width digits * 2 ^ width + d := by
  rw [value, List.foldl_append]
  rfl

theorem concat_unique {b v w d e : Nat} (hd : d < b) (he : e < b) (h : v * b + d = w * b + e) :
    v = w ∧ d = e := by
  have hpos : 0 < b := Nat.zero_lt_of_lt hd
  have hv : (v * b + d) / b = v ∧ (v * b + d) % b = d :=
    (Nat.div_mod_unique hpos).mpr ⟨by rw [Nat.add_comm, Nat.mul_comm], hd⟩
  have hw : (w * b + e) / b = w ∧ (w * b + e) % b = e :=
    (Nat.div_mod_unique hpos).mpr ⟨by rw [Nat.add_comm, Nat.mul_comm], he⟩
  rw [h] at hv
  exact ⟨hv.1.symm.trans hw.1, hv.2.symm.trans hw.2⟩

/-- Digits of one width are determined by their number and their value. -/
theorem value_injective {width : Nat} {ds es : List Nat} (hlen : ds.length = es.length)
    (hd : ∀ d ∈ ds, d < 2 ^ width) (he : ∀ e ∈ es, e < 2 ^ width)
    (h : value width ds = value width es) : ds = es := by
  induction ds using List.reverseRecOn generalizing es with
  | nil => exact (List.eq_nil_of_length_eq_zero hlen.symm).symm
  | append_singleton ds d ih =>
    cases es using List.reverseRecOn with
    | nil => simp at hlen
    | append_singleton es e =>
      have hdlt := hd d (List.mem_append_right _ List.mem_cons_self)
      have helt := he e (List.mem_append_right _ List.mem_cons_self)
      rw [value_concat, value_concat] at h
      obtain ⟨hv, hde⟩ := concat_unique hdlt helt h
      simp only [List.length_append, List.length_singleton, Nat.add_right_cancel_iff] at hlen
      rw [ih hlen (fun x hx => hd x (List.mem_append_left _ hx))
        (fun x hx => he x (List.mem_append_left _ hx)) hv, hde]

/-- The lowest digits of a number, as many as are asked for. -/
def digits (width : Nat) : Nat → Nat → List Nat
  | 0, _ => []
  | count + 1, n => digits width count (n / 2 ^ width) ++ [n % 2 ^ width]

@[simp] theorem digits_length (width count n : Nat) : (digits width count n).length = count := by
  induction count generalizing n with
  | zero => rfl
  | succ count ih => rw [digits, List.length_append, ih, List.length_singleton]

theorem digits_lt (width count n : Nat) : ∀ d ∈ digits width count n, d < 2 ^ width := by
  induction count generalizing n with
  | zero => exact fun d hd => absurd hd List.not_mem_nil
  | succ count ih =>
    intro d hd
    rw [digits] at hd
    cases List.mem_append.mp hd with
    | inl hd => exact ih _ d hd
    | inr hd =>
      rw [List.mem_singleton.mp hd]
      exact Nat.mod_lt _ (Nat.two_pow_pos width)

theorem value_digits {width count n : Nat} (h : n < 2 ^ (width * count)) :
    value width (digits width count n) = n := by
  induction count generalizing n with
  | zero =>
    rw [Nat.mul_zero, pow_zero, Nat.lt_one_iff] at h
    rw [h]
    rfl
  | succ count ih =>
    have hhigh : n / 2 ^ width < 2 ^ (width * count) := by
      apply Nat.div_lt_of_lt_mul
      rwa [← pow_add, Nat.add_comm, ← Nat.mul_succ]
    rw [digits, value_concat, ih hhigh]
    exact Nat.div_add_mod' n _

theorem value_lt {width : Nat} {ds : List Nat} (h : ∀ d ∈ ds, d < 2 ^ width) :
    value width ds < 2 ^ (width * ds.length) := by
  induction ds using List.reverseRecOn with
  | nil => exact Nat.two_pow_pos _
  | append_singleton ds d ih =>
    have hd := h d (List.mem_append_right _ List.mem_cons_self)
    have hrest := ih fun x hx => h x (List.mem_append_left _ hx)
    rw [value_concat, List.length_append, List.length_singleton, Nat.mul_succ, pow_add]
    calc value width ds * 2 ^ width + d < (value width ds + 1) * 2 ^ width := by
          rw [Nat.add_mul, Nat.one_mul]
          exact Nat.add_lt_add_left hd _
      _ ≤ 2 ^ (width * ds.length) * 2 ^ width := Nat.mul_le_mul_right _ hrest

theorem digits_value {width : Nat} {ds : List Nat} (h : ∀ d ∈ ds, d < 2 ^ width) :
    digits width ds.length (value width ds) = ds :=
  value_injective (digits_length _ _ _) (digits_lt _ _ _) h (value_digits (value_lt h))

/-- A digit of a large width, spelt out in digits of a small one. -/
theorem value_flatMap_digits {width count : Nat} {ds : List Nat}
    (h : ∀ d ∈ ds, d < 2 ^ (width * count)) :
    value width (ds.flatMap (digits width count)) = value (width * count) ds := by
  have hfold : ∀ (xs ys : List Nat), value width (xs ++ ys) =
      value width xs * 2 ^ (width * ys.length) + value width ys := by
    intro xs ys
    induction ys using List.reverseRecOn with
    | nil => simp
    | append_singleton ys y ih =>
      rw [← List.append_assoc, value_concat, ih, value_concat, List.length_append,
        List.length_singleton, Nat.mul_succ, pow_add]
      ring
  induction ds using List.reverseRecOn with
  | nil => rfl
  | append_singleton ds d ih =>
    have hd := h d (List.mem_append_right _ List.mem_cons_self)
    rw [List.flatMap_append, List.flatMap_singleton, hfold, digits_length, value_digits hd,
      ih fun x hx => h x (List.mem_append_left _ hx), value_concat]

/-- `acc` holds `bits` bits that have not been given out, below older ones. -/
structure Buffer where
  acc : Nat
  bits : Nat
  out : List Nat

/-- One digit of the first width comes in; the buffer keeps its `room` lowest bits. -/
def Buffer.take (width room : Nat) (s : Buffer) (d : Nat) : Buffer :=
  ⟨((s.acc <<< width) ||| d) &&& (2 ^ room - 1), s.bits + width, s.out⟩

/-- The loop that gives out digits of the second width while there are enough bits. Every pass
uses at least one of them, which bounds the passes. -/
def Buffer.drain (width : Nat) : Nat → Buffer → Buffer
  | 0, s => s
  | passes + 1, s =>
    if width ≤ s.bits then
      let bits := s.bits - width
      drain width passes ⟨s.acc, bits, s.out ++ [(s.acc >>> bits) &&& (2 ^ width - 1)]⟩
    else s

/-- One round of the conversion. -/
def Buffer.step (source target room : Nat) (s : Buffer) (d : Nat) : Buffer :=
  (s.take source room d).drain target (s.bits + source)

def regroup (source target room : Nat) (digits : List Nat) : Buffer :=
  digits.foldl (Buffer.step source target room) ⟨0, 0, []⟩

/-- What is given out and what is held stand for the number that came in. -/
structure Buffer.Holds (target : Nat) (s : Buffer) (n : Nat) : Prop where
  out : value target s.out = n / 2 ^ s.bits
  held : s.acc % 2 ^ s.bits = n % 2 ^ s.bits
  digits : ∀ d ∈ s.out, d < 2 ^ target

theorem mod_two_pow_of_le {a n b c : Nat} (h : a % 2 ^ b = n % 2 ^ b) (hc : c ≤ b) :
    a % 2 ^ c = n % 2 ^ c := by
  have hdvd : 2 ^ c ∣ 2 ^ b := Nat.pow_dvd_pow 2 hc
  rw [← Nat.mod_mod_of_dvd a hdvd, h, Nat.mod_mod_of_dvd n hdvd]

theorem div_mod_two_pow {a n b c : Nat} (h : a % 2 ^ (b + c) = n % 2 ^ (b + c)) :
    a / 2 ^ b % 2 ^ c = n / 2 ^ b % 2 ^ c := by
  rw [pow_add] at h
  rw [← Nat.mod_mul_right_div_self, h, Nat.mod_mul_right_div_self]

theorem Buffer.Holds.take {target source room n d : Nat} {s : Buffer} (h : s.Holds target n)
    (hd : d < 2 ^ source) (hroom : s.bits + source ≤ room) :
    (s.take source room d).Holds target (n * 2 ^ source + d) := by
  refine ⟨?_, ?_, h.digits⟩
  · rw [Buffer.take, h.out, pow_add, Nat.mul_comm (2 ^ s.bits), ← Nat.div_div_eq_div_mul,
      Nat.mul_comm n, Nat.mul_add_div (Nat.two_pow_pos source), Nat.div_eq_of_lt hd, Nat.add_zero]
  · rw [Buffer.take, Nat.and_two_pow_sub_one_eq_mod, ← Nat.shiftLeft_add_eq_or_of_lt hd,
      Nat.shiftLeft_eq]
    dsimp only
    rw [Nat.mod_mod_of_dvd _ (Nat.pow_dvd_pow 2 hroom), pow_add, Nat.mul_comm (2 ^ s.bits),
      Nat.mul_comm s.acc, Nat.mul_comm n, Nat.mod_mul, Nat.mod_mul, Nat.mul_add_mod,
      Nat.mul_add_mod, Nat.mul_add_div (Nat.two_pow_pos source),
      Nat.mul_add_div (Nat.two_pow_pos source), Nat.div_eq_of_lt hd, Nat.add_zero, Nat.add_zero,
      h.held]

theorem Buffer.Holds.drain {target n passes : Nat} {s : Buffer} (h : s.Holds target n) :
    (s.drain target passes).Holds target n := by
  induction passes generalizing s with
  | zero => exact h
  | succ passes ih =>
    rw [Buffer.drain]
    split
    · next hle =>
      have hsplit : s.bits - target + target = s.bits := Nat.sub_add_cancel hle
      have hdiv : n / 2 ^ s.bits = n / 2 ^ (s.bits - target) / 2 ^ target := by
        rw [Nat.div_div_eq_div_mul, ← pow_add, hsplit]
      refine ih ⟨?_, ?_, ?_⟩
      · have hheld := h.held
        rw [← hsplit] at hheld
        rw [value_concat, h.out, Nat.and_two_pow_sub_one_eq_mod, Nat.shiftRight_eq_div_pow,
          div_mod_two_pow hheld, hdiv, Nat.mul_comm]
        exact Nat.div_add_mod _ _
      · exact mod_two_pow_of_le h.held (Nat.sub_le _ _)
      · intro d hd
        cases List.mem_append.mp hd with
        | inl hd => exact h.digits d hd
        | inr hd =>
          rw [List.mem_singleton.mp hd, Nat.and_two_pow_sub_one_eq_mod]
          exact Nat.mod_lt _ (Nat.two_pow_pos target)
    · exact h

theorem Buffer.drain_bits {target passes : Nat} {s : Buffer} (hpos : 0 < target)
    (hpasses : s.bits ≤ passes) : (s.drain target passes).bits < target ∧
      target * (s.drain target passes).out.length + (s.drain target passes).bits =
        target * s.out.length + s.bits := by
  induction passes generalizing s with
  | zero => exact ⟨(Nat.le_zero.mp hpasses).symm ▸ hpos, rfl⟩
  | succ passes ih =>
    rw [Buffer.drain]
    split
    · next hle =>
      have hrest := ih (s := ⟨s.acc, s.bits - target,
        s.out ++ [(s.acc >>> (s.bits - target)) &&& (2 ^ target - 1)]⟩) (by dsimp only; omega)
      refine ⟨hrest.1, hrest.2.trans ?_⟩
      simp only [List.length_append, List.length_singleton, Nat.mul_add, Nat.mul_one]
      omega
    · next hlt => exact ⟨Nat.not_le.mp hlt, rfl⟩

/-- What a whole conversion has given out and still holds. -/
structure Regrouped (source target : Nat) (digits : List Nat) (s : Buffer) : Prop where
  holds : s.Holds target (value source digits)
  bits : s.bits < target
  length : target * s.out.length + s.bits = source * digits.length

theorem regroup_spec {source target room : Nat} {digits : List Nat} (hpos : 0 < target)
    (hroom : target - 1 + source ≤ room) (hd : ∀ d ∈ digits, d < 2 ^ source) :
    Regrouped source target digits (regroup source target room digits) := by
  induction digits using List.reverseRecOn with
  | nil => exact ⟨⟨by simp [regroup], by simp [regroup], by simp [regroup]⟩, hpos, rfl⟩
  | append_singleton digits d ih =>
    obtain ⟨hholds, hbits, hlength⟩ := ih fun x hx => hd x (List.mem_append_left _ hx)
    have hdlt := hd d (List.mem_append_right _ List.mem_cons_self)
    have hstep : regroup source target room (digits ++ [d]) =
        (regroup source target room digits).step source target room d := by
      rw [regroup, List.foldl_append]
      rfl
    have htaken := @Buffer.Holds.take _ _ room _ _ _ hholds hdlt (by omega)
    obtain ⟨hsmall, hlen⟩ := @Buffer.drain_bits target _
      ((regroup source target room digits).take source room d) hpos (le_refl _)
    rw [hstep, Buffer.step]
    refine ⟨?_, hsmall, hlen.trans ?_⟩
    · rw [value_concat]
      exact htaken.drain
    · simp only [Buffer.take, List.length_append, List.length_singleton, Nat.mul_add, Nat.mul_one]
      omega

end Regroup
