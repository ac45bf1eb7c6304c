import Mathlib

/-!
Lists cut into frames of one width. Reading every frame by its offset and
concatenating equal-width frames are inverse to each other.
-/
namespace Frames

variable {α β : Type}

/-- The `i`-th frame of width `w`. -/
def frame (w : Nat) (data : List α) (i : Nat) : List α := (data.drop (i * w)).take w

theorem frame_length {w n i : Nat} (data : List α) (hlen : n * w ≤ data.length) (hi : i < n) :
    (frame w data i).length = w := by
  have hle : (i + 1) * w ≤ n * w := Nat.mul_le_mul_right w hi
  have hs : (i + 1) * w = i * w + w := by rw [Nat.add_mul, Nat.one_mul]
  simp only [frame, List.length_take, List.length_drop]
  omega

theorem frame_getD {w j : Nat} (data : List α) (d : α) (hj : j < w) (i : Nat) :
    (frame w data i).getD j d = data.getD (i * w + j) d := by
  simp only [frame, List.getD_eq_getElem?_getD, List.getElem?_take, List.getElem?_drop, hj,
    if_true]

/-- A part of a frame is a part of the list. -/
theorem frame_part {w b : Nat} (data : List α) (a : Nat) (hb : b ≤ w) (i : Nat) :
    ((frame w data i).drop a).take (b - a) = (data.drop (i * w + a)).take (b - a) := by
  rw [frame, List.drop_take, List.drop_drop, List.take_take, Nat.min_eq_left (by omega)]

/-- The first `n` frames are the first `n * w` elements. -/
theorem flatten_frames (w n : Nat) (data : List α) :
    ((List.range n).map (frame w data)).flatten = data.take (n * w) := by
  induction n with
  | zero => simp
  | succ n ih =>
    rw [List.range_succ, List.map_append, List.flatten_append, ih, Nat.add_mul, Nat.one_mul,
      List.take_add]
    simp [frame]

/-- A concatenation of equal-width frames is cut back into them. -/
theorem frame_flatten {w : Nat} {fs : List (List α)} (h : ∀ f ∈ fs, f.length = w)
    (rest : List α) {i : Nat} (hi : i < fs.length) :
    frame w (fs.flatten ++ rest) i = fs[i] := by
  induction fs generalizing i with
  | nil => simp at hi
  | cons f fs ih =>
    have hf : f.length = w := h f List.mem_cons_self
    cases i with
    | zero => simp [frame, ← hf]
    | succ i =>
      have hr := ih (fun g hg => h g (List.mem_cons_of_mem _ hg)) (i := i) (by simpa using hi)
      have hs : (i + 1) * w = f.length + i * w := by rw [Nat.add_mul, Nat.one_mul, hf, Nat.add_comm]
      simp only [frame, hs, ← List.drop_drop, List.flatten_cons, List.append_assoc,
        List.drop_left] at hr ⊢
      exact hr

theorem flatten_length {w : Nat} {fs : List (List α)} (h : ∀ f ∈ fs, f.length = w) :
    fs.flatten.length = fs.length * w := by
  induction fs with
  | nil => simp
  | cons f fs ih =>
    have hr := ih fun g hg => h g (List.mem_cons_of_mem _ hg)
    have hs : (fs.length + 1) * w = fs.length * w + w := by rw [Nat.add_mul, Nat.one_mul]
    simp only [List.flatten_cons, List.length_append, List.length_cons, hr, hs,
      h f List.mem_cons_self]
    omega

/-- Equal-width frames can be told apart in their concatenation. -/
theorem flatten_injective {w : Nat} (hw : 0 < w) {fs gs : List (List α)}
    (hf : ∀ f ∈ fs, f.length = w) (hg : ∀ g ∈ gs, g.length = w)
    (h : fs.flatten = gs.flatten) : fs = gs := by
  have hlen : fs.length * w = gs.length * w := by
    rw [← flatten_length hf, ← flatten_length hg, h]
  have hcount : fs.length = gs.length := Nat.eq_of_mul_eq_mul_right hw hlen
  apply List.ext_getElem hcount
  intro i hi hi'
  rw [← frame_flatten hf [] hi, ← frame_flatten hg [] hi', h]

end Frames
