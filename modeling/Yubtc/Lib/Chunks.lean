import Yubtc.Lib.Frames

/-!
Lists cut into chunks of one width, of which the last may be shorter.
-/
namespace Chunks

open Frames

variable {α β : Type}

/-- As many chunks as it takes. -/
def chunks (w : Nat) (data : List α) : List (List α) :=
  (List.range ((data.length + w - 1) / w)).map (frame w data)

theorem chunks_nil {w : Nat} (hw : 0 < w) : chunks w ([] : List α) = [] := by
  have hcount : (([] : List α).length + w - 1) / w = 0 := by
    rw [List.length_nil]
    exact Nat.div_eq_of_lt (by omega)
  rw [chunks, hcount]
  rfl

/-- The first chunk is peeled off. -/
theorem chunks_cons {w : Nat} {data : List α} (hw : 0 < w) (h : data ≠ []) :
    chunks w data = data.take w :: chunks w (data.drop w) := by
  have hpos : 0 < data.length := List.length_pos_of_ne_nil h
  have hcount : (data.length + w - 1) / w = ((data.drop w).length + w - 1) / w + 1 := by
    rw [List.length_drop]
    by_cases hle : w ≤ data.length
    · rw [← Nat.add_div_right _ hw]
      congr 1
      omega
    · rw [show data.length - w + w - 1 = w - 1 by omega, Nat.div_eq_of_lt (show w - 1 < w by omega),
        show data.length + w - 1 = data.length - 1 + w by omega, Nat.add_div_right _ hw,
        Nat.div_eq_of_lt (by omega)]
  have hshift : ∀ i, frame w data (i + 1) = frame w (data.drop w) i := by
    intro i
    rw [frame, frame, List.drop_drop, Nat.add_mul, Nat.one_mul, Nat.add_comm]
  rw [chunks, hcount, List.range_succ_eq_map, List.map_cons, List.map_map, chunks]
  congr 1
  · rw [frame, Nat.zero_mul, List.drop_zero]
  · exact List.map_congr_left fun i _ => hshift i

/-- Nothing is lost. -/
theorem flatten_chunks {w : Nat} (hw : 0 < w) (data : List α) : (chunks w data).flatten = data := by
  rw [chunks, flatten_frames]
  apply List.take_of_length_le
  have hdiv := Nat.div_add_mod (data.length + w - 1) w
  have hmod := Nat.mod_lt (data.length + w - 1) hw
  rw [Nat.mul_comm] at hdiv
  omega

/-- Chunks of the full width are cut back into themselves. -/
theorem chunks_flatten {w : Nat} {parts : List (List α)} (hw : 0 < w)
    (h : ∀ part ∈ parts, part.length = w) : chunks w parts.flatten = parts := by
  induction parts with
  | nil => exact chunks_nil hw
  | cons part parts ih =>
    have hpart : part.length = w := h part List.mem_cons_self
    have hne : (part :: parts).flatten ≠ [] := by
      apply List.ne_nil_of_length_pos
      rw [List.flatten_cons, List.length_append]
      omega
    rw [chunks_cons hw hne, List.flatten_cons, List.take_left' hpart, List.drop_left' hpart,
      ih fun p hp => h p (List.mem_cons_of_mem _ hp)]

theorem chunk_length {w : Nat} {data : List α} (hw : 0 < w) :
    ∀ part ∈ chunks w data, 0 < part.length ∧ part.length ≤ w := by
  induction hn : data.length using Nat.strong_induction_on generalizing data with
  | _ n ih =>
    by_cases hnil : data = []
    · rw [hnil, chunks_nil hw]
      exact fun _ hp => absurd hp List.not_mem_nil
    · have hpos : 0 < data.length := List.length_pos_of_ne_nil hnil
      rw [chunks_cons hw hnil]
      intro part hp
      cases List.mem_cons.mp hp with
      | inl he =>
        rw [he, List.length_take]
        omega
      | inr hp =>
        have hdrop : (data.drop w).length = data.length - w := List.length_drop
        exact ih (data.drop w).length (by omega) rfl part hp

/-- A multiple of the width leaves no shorter chunk. -/
theorem chunk_full {w : Nat} {data : List α} (hw : 0 < w) (h : data.length % w = 0) :
    ∀ part ∈ chunks w data, part.length = w := by
  have hdvd := Nat.div_mul_cancel (Nat.dvd_of_mod_eq_zero h)
  have hcount : (data.length + w - 1) / w = data.length / w := by
    rw [Nat.add_sub_assoc hw, ← hdvd, Nat.mul_comm, Nat.mul_add_div hw,
      Nat.div_eq_of_lt (by omega : w - 1 < w), Nat.add_zero, Nat.mul_div_cancel_left _ hw]
  intro part hp
  rw [chunks, hcount] at hp
  obtain ⟨i, hi, rfl⟩ := List.mem_map.mp hp
  exact frame_length data hdvd.le (List.mem_range.mp hi)

theorem chunks_map (w : Nat) (f : α → β) (data : List α) :
    chunks w (data.map f) = (chunks w data).map fun part => part.map f := by
  rw [chunks, chunks, List.map_map, List.length_map]
  apply List.map_congr_left
  intro i _
  rw [Function.comp_apply, frame, frame, List.map_take, List.map_drop]

end Chunks
