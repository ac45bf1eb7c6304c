import Yubtc.Canonicalisation

/-!
# Data behind a PSBT

The reader does not look past the last map, so whatever is put behind an accepted PSBT is left
over. Which error it raises depends on more than the leftover: the slice that is tested starts
five bytes, the length of the magic, before it.
-/
namespace Yubtc.TrailingData

open LittleEndian Wire Errors ExceptRules PsbtData PsbtCodec
open Readers (Extends)

theorem take_extends (n : Nat) : Extends (take n) := by
  intro r a r' h t
  obtain ⟨hlt, h⟩ | ⟨hle, h⟩ := ite_eq_ok.mp h
  · cases h
  · cases h
    have hn : n ≤ r.length := Nat.not_lt.mp hle
    rw [take, if_neg (by rw [List.length_append]; omega), List.take_append_of_le_length hn,
      List.drop_append_of_le_length hn]

theorem readCompactSize_extends : Extends readCompactSize := by
  intro r n r' h t
  obtain ⟨⟨field, r₁⟩, hfield, h⟩ := bind_eq_ok.mp h
  rw [readCompactSize, take_extends _ _ _ _ hfield t, ok_bind]
  dsimp only at h ⊢
  obtain ⟨hsmall, h⟩ | ⟨hwide, h⟩ := ite_eq_ok.mp h
  · cases h
    rw [if_pos hsmall]
    rfl
  · obtain ⟨⟨number, r₂⟩, hnumber, h⟩ := bind_eq_ok.mp h
    cases h
    rw [if_neg hwide, take_extends _ _ _ _ hnumber t]
    rfl

theorem readVarBytes_extends : Extends readVarBytes :=
  readCompactSize_extends.bind fun n => take_extends n

/-- More fuel and more data give the same pairs. -/
theorem readMapFrom_extends {fuel more : Nat} {out pairs : List (Bytes × Bytes)} {r r' : Bytes}
    (h : readMapFrom fuel out r = .ok (pairs, r')) (hfuel : fuel ≤ more) (t : Bytes) :
    readMapFrom more out (r ++ t) = .ok (pairs, r' ++ t) := by
  induction fuel generalizing more out r with
  | zero => cases h
  | succ fuel ih =>
    cases more with
    | zero => cases hfuel
    | succ more =>
      obtain ⟨⟨keylen, r₁⟩, hlen, h⟩ := bind_eq_ok.mp h
      rw [readMapFrom, readCompactSize_extends _ _ _ hlen t, ok_bind]
      dsimp only at h ⊢
      obtain ⟨hzero, h⟩ | ⟨hpos, h⟩ := ite_eq_ok.mp h
      · cases h
        rw [if_pos hzero]
        rfl
      · obtain ⟨⟨key, r₂⟩, hkey, h⟩ := bind_eq_ok.mp h
        obtain ⟨hnew, h⟩ := reject_bind_eq_ok.mp h
        obtain ⟨⟨value, r₃⟩, hvalue, h⟩ := bind_eq_ok.mp h
        rw [if_neg hpos, take_extends _ _ _ _ hkey t, ok_bind]
        dsimp only at hnew h ⊢
        rw [reject_false _ hnew, ok_bind, readVarBytes_extends _ _ _ hvalue t, ok_bind]
        exact ih h (Nat.le_of_succ_le_succ hfuel)

theorem readMap_extends : Extends readMap := by
  intro r pairs r' h t
  apply readMapFrom_extends h
  rw [List.length_append]
  omega

theorem readMaps_extends {α : Type} (parse : List (Bytes × Bytes) → Except PsbtError α) (n : Nat) :
    Extends (readMaps parse n) := by
  induction n with
  | zero => exact Extends.pure []
  | succ n ih =>
    intro r as r' h t
    obtain ⟨hne, h⟩ := reject_bind_eq_ok.mp h
    obtain ⟨⟨pairs, r₁⟩, hpairs, h⟩ := bind_eq_ok.mp h
    obtain ⟨a, ha, h⟩ := bind_eq_ok.mp h
    obtain ⟨⟨rest, r₂⟩, hrest, h⟩ := bind_eq_ok.mp h
    cases h
    have hlonger : ¬ r ++ t = [] := fun hnil => hne (List.append_eq_nil_iff.mp hnil).1
    rw [readMaps, reject_false _ hlonger, ok_bind, readMap_extends _ _ _ hpairs t, ok_bind]
    dsimp only at ha ⊢
    rw [ha, ok_bind, ih _ _ _ hrest t]
    rfl

/-- The last bytes of the data, as many as the magic has. -/
def lastBytes (data : Bytes) : Bytes := data.drop (data.length - magic.length)

/-- The error for data behind an accepted PSBT. -/
theorem parsePsbt_trailing {data tail : Bytes} {psbt : Psbt} (h : parsePsbt data = .ok psbt)
    (hne : tail ≠ []) (hsize : (data ++ tail).length ≤ psbtMaxSize) :
    parsePsbt (data ++ tail) = .error
      (if ∀ b ∈ lastBytes data ++ tail, b = 0 then .truncated else .mapCountMismatch) := by
  obtain ⟨-, h⟩ := reject_bind_eq_ok.mp h
  obtain ⟨hmagic, h⟩ := reject_bind_eq_ok.mp h
  obtain ⟨⟨pairs, r⟩, hread, h⟩ := bind_eq_ok.mp h
  obtain ⟨globals, hglobals, h⟩ := bind_eq_ok.mp h
  obtain ⟨tx, htx, h⟩ := bind_eq_ok.mp h
  obtain ⟨⟨inputs, r₁⟩, hinputs, h⟩ := bind_eq_ok.mp h
  obtain ⟨⟨outputs, r₂⟩, houtputs, h⟩ := bind_eq_ok.mp h
  obtain ⟨-, h⟩ := reject_bind_eq_ok.mp h
  obtain ⟨hend, -⟩ := reject_bind_eq_ok.mp h
  have hmagicLen : magic.length ≤ data.length := by
    have hlen := congrArg List.length (not_not.mp hmagic)
    rw [List.length_take] at hlen
    omega
  have hmagic' : ¬ (data ++ tail).take magic.length ≠ magic := by
    rw [List.take_append_of_le_length hmagicLen]
    exact hmagic
  obtain rfl : r₂ = [] := not_not.mp hend
  -- The reader stands at the tail, its position is counted without the magic.
  have hslice : (data ++ tail).drop ((data.drop magic.length ++ tail).length - tail.length) =
      lastBytes data ++ tail := by
    rw [List.length_append, Nat.add_sub_cancel, List.length_drop,
      List.drop_append_of_le_length (Nat.sub_le _ _), lastBytes]
  unfold parsePsbt
  rw [reject_false _ (Nat.not_lt.mpr hsize), ok_bind, reject_false _ hmagic', ok_bind]
  dsimp only
  rw [List.drop_append_of_le_length hmagicLen, readMap_extends _ _ _ hread tail, ok_bind]
  dsimp only at hglobals htx hinputs houtputs ⊢
  rw [hglobals, ok_bind, htx, ok_bind, readMaps_extends _ _ _ _ _ hinputs tail, ok_bind]
  dsimp only
  rw [readMaps_extends _ _ _ _ _ houtputs tail, ok_bind]
  dsimp only
  rw [List.nil_append, hslice]
  split
  · next hzero =>
    rw [reject_true _ ⟨hne, hzero⟩]
    rfl
  · next hzero =>
    rw [reject_false _ (fun hboth => hzero hboth.2), ok_bind, reject_true _ hne]
    rfl

/-- A tail is told apart by what is in it. -/
structure Classified (data tail : Bytes) : Prop where
  zeros : (∀ b ∈ tail, b = 0) → parsePsbt (data ++ tail) = .error .truncated
  others : (∃ b ∈ tail, b ≠ 0) → parsePsbt (data ++ tail) = .error .mapCountMismatch

/-- Data behind an accepted PSBT is refused; it is told apart by its content when it holds more than
zeros, or when the PSBT ends in five zeros. -/
theorem trailing_classified {data tail : Bytes} {psbt : Psbt} (h : parsePsbt data = .ok psbt)
    (hne : tail ≠ []) (hsize : (data ++ tail).length ≤ psbtMaxSize) :
    (∃ e, parsePsbt (data ++ tail) = .error e) ∧
      (Classified data tail ↔ (∃ b ∈ tail, b ≠ 0) ∨ ∀ b ∈ lastBytes data, b = 0) := by
  have herror := parsePsbt_trailing h hne hsize
  refine ⟨⟨_, herror⟩, ?_⟩
  have hsplit : (∀ b ∈ lastBytes data ++ tail, b = 0) ↔
      (∀ b ∈ lastBytes data, b = 0) ∧ ∀ b ∈ tail, b = 0 := List.forall_mem_append
  constructor
  · intro hclass
    by_cases htail : ∃ b ∈ tail, b ≠ 0
    · exact .inl htail
    · have hzeros : ∀ b ∈ tail, b = 0 := fun b hb => not_not.mp fun hb0 => htail ⟨b, hb, hb0⟩
      have htruncated := hclass.zeros hzeros
      rw [herror] at htruncated
      right
      by_contra hlast
      rw [if_neg fun hall => hlast (hsplit.mp hall).1] at htruncated
      cases htruncated
  · intro hcondition
    constructor
    · intro hzeros
      cases hcondition with
      | inl hother =>
        obtain ⟨b, hb, hb0⟩ := hother
        exact absurd (hzeros b hb) hb0
      | inr hlast => rw [herror, if_pos (hsplit.mpr ⟨hlast, hzeros⟩)]
    · intro hother
      obtain ⟨b, hb, hb0⟩ := hother
      rw [herror, if_neg fun hall => hb0 ((hsplit.mp hall).2 b hb)]

open Canonicalisation (sampleLayout samplePsbt samplePsbt_parsed)

theorem trailing_classified_sample :
    (∃ e, parsePsbt (sampleLayout.bytes ++ [1, 2, 3]) = .error e) ∧
      (Classified sampleLayout.bytes [1, 2, 3] ↔
        (∃ b ∈ ([1, 2, 3] : Bytes), b ≠ 0) ∨ ∀ b ∈ lastBytes sampleLayout.bytes, b = 0) :=
  trailing_classified samplePsbt_parsed (List.cons_ne_nil _ _) (by decide +kernel)

/-- A second terminator behind a map that ends in a record. -/
theorem terminator_miscounted :
    parsePsbt sampleLayout.bytes = .ok samplePsbt ∧
      parsePsbt (sampleLayout.bytes ++ [0]) = .error .mapCountMismatch ∧
      ¬ Classified sampleLayout.bytes [0] := by
  have hmiscounted : parsePsbt (sampleLayout.bytes ++ [0]) = .error .mapCountMismatch := by
    decide +kernel
  refine ⟨samplePsbt_parsed, hmiscounted, fun hclass => ?_⟩
  have htruncated := hclass.zeros (List.forall_mem_singleton.mpr rfl)
  rw [hmiscounted] at htruncated
  cases htruncated

end Yubtc.TrailingData
