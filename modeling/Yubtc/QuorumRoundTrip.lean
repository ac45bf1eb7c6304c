import Yubtc.Quorum

/-!
# Quorum scripts, there and back

Builder and extractor of each kind of quorum script are inverse on thresholds that are not
negative. The builders only refuse a threshold of zero, and a small negative one becomes an
opcode below `OP_1`, which no extractor reads back.
-/
namespace Yubtc.QuorumRoundTrip

open Wire Errors ExceptRules Script Quorum

/-- A threshold and keys that make a quorum. -/
def RealQuorum (m : Int) (keys : List Bytes) : Prop :=
  1 ≤ m ∧ m ≤ keys.length ∧ keys.length ≤ msMaxPubkeys ∧ keys.Nodup

/-- Builder and extractor agree on a threshold and a list of keys. -/
structure Inverse (build : Int → List Bytes → Except Exn Bytes)
    (extract : Bytes → Except Exn (Nat × List Bytes)) (m : Int) (keys : List Bytes) : Prop where
  admits : (∃ script, build m keys = .ok script) ↔ RealQuorum m keys
  reads : ∀ script, build m keys = .ok script →
    ∃ threshold : Nat, extract script = .ok (threshold, sortedKeys keys) ∧ (threshold : Int) = m

/-- What is read off in sorted order is built again. -/
def Rebuilds (build : Int → List Bytes → Except Exn Bytes)
    (extract : Bytes → Except Exn (Nat × List Bytes)) : Prop :=
  ∀ (script : Bytes) (m : Nat) (keys : List Bytes), extract script = .ok (m, keys) →
    keys.Pairwise (· ≤ ·) → build m keys = .ok script

/-- The keys of a redeem script. -/
def CompressedKeys (keys : List Bytes) : Prop :=
  ∀ key ∈ keys, key.length = 33 ∧ isCanonicalCompressedPubkey key = true

/-- The keys of a leaf. -/
def XOnlyKeys (keys : List Bytes) : Prop := ∀ key ∈ keys, key.length = 32

/-- A negative threshold whose opcode is still a byte, with keys that pass every check. -/
def NegativeThreshold (m : Int) (keys : List Bytes) : Prop :=
  -0x50 ≤ m ∧ m < 0 ∧ keys ≠ [] ∧ keys.length ≤ msMaxPubkeys ∧ keys.Nodup

instance (m : Int) (keys : List Bytes) : Decidable (NegativeThreshold m keys) :=
  inferInstanceAs (Decidable (_ ∧ _ ∧ _ ∧ _ ∧ _))

/-- All that the builders ask. -/
def Accepted (keyLength : Nat) (m : Int) (keys : List Bytes) : Prop :=
  (keys ≠ [] ∧ m ≠ 0 ∧ m ≤ keys.length ∧ keys.length ≤ msMaxPubkeys) ∧
    (∀ key ∈ keys, key.length = keyLength) ∧ keys.Nodup ∧ -0x50 ≤ m

theorem byteOf_succeeds {v : Int} : (∃ b, byteOf v = .ok b) ↔ 0 ≤ v ∧ v < 256 := by
  simp only [byteOf, reject_bind_eq_ok, pure_eq_ok, not_not, Except.ok.injEq]
  constructor
  · intro h
    obtain ⟨b, hv, -⟩ := h
    exact hv
  · intro hv
    exact ⟨_, hv, rfl⟩

/-- Past the shared checks only the opcode of the threshold can fail. -/
theorem accepted_iff {keyLength : Nat} {e : Exn} {m : Int} {keys : List Bytes} :
    (∃ sorted mOp, checkedKeys keyLength e m keys = .ok sorted ∧ byteOf (opN m) = .ok mOp) ↔
      Accepted keyLength m keys := by
  rw [Accepted]
  constructor
  · intro h
    obtain ⟨sorted, mOp, hchecked, hop⟩ := h
    obtain ⟨hbounds, hlen, hnd, -⟩ := checkedKeys_eq_ok.mp hchecked
    have hrange := byteOf_succeeds.mp ⟨mOp, hop⟩
    rw [opN] at hrange
    exact ⟨hbounds, hlen, hnd, by omega⟩
  · intro h
    obtain ⟨hbounds, hlen, hnd, hm⟩ := h
    have hmax : msMaxPubkeys = 15 := rfl
    have hrange : 0 ≤ opN m ∧ opN m < 256 := by
      rw [opN]
      omega
    obtain ⟨mOp, hop⟩ := byteOf_succeeds.mpr hrange
    exact ⟨sortedKeys keys, mOp, checkedKeys_eq_ok.mpr ⟨hbounds, hlen, hnd, rfl⟩, hop⟩

theorem makeMultisigRedeemScript_succeeds {m : Int} {keys : List Bytes} :
    (∃ script, makeMultisigRedeemScript m keys = .ok script) ↔ Accepted 33 m keys := by
  rw [← @accepted_iff 33 .invalidMultisigRedeem]
  constructor
  · intro h
    obtain ⟨script, h⟩ := h
    obtain ⟨sorted, hchecked, h⟩ := bind_eq_ok.mp h
    obtain ⟨mOp, hop, -⟩ := bind_eq_ok.mp h
    exact ⟨sorted, mOp, hchecked, hop⟩
  · intro h
    obtain ⟨sorted, mOp, hchecked, hop⟩ := h
    have hn : keys.length ≤ msMaxPubkeys := (checkedKeys_eq_ok.mp hchecked).1.2.2.2
    rw [makeMultisigRedeemScript, hchecked, ok_bind, hop, ok_bind, byteOf_opN hn, ok_bind]
    exact ⟨_, rfl⟩

theorem makeMultisigTapscript_succeeds {m : Int} {keys : List Bytes} :
    (∃ script, makeMultisigTapscript m keys = .ok script) ↔ Accepted 32 m keys := by
  rw [← @accepted_iff 32 .invalidMultisigTapscript]
  constructor
  · intro h
    obtain ⟨script, h⟩ := h
    obtain ⟨sorted, hchecked, h⟩ := bind_eq_ok.mp h
    obtain ⟨mOp, hop, -⟩ := bind_eq_ok.mp h
    exact ⟨sorted, mOp, hchecked, hop⟩
  · intro h
    obtain ⟨sorted, mOp, hchecked, hop⟩ := h
    rw [makeMultisigTapscript, hchecked, ok_bind, hop, ok_bind]
    exact ⟨_, rfl⟩

/-- A builder whose scripts of quorums are read back agrees with its extractor exactly where the
threshold is not a negative one. -/
theorem inverse_iff {keyLength : Nat} {build : Int → List Bytes → Except Exn Bytes}
    {extract : Bytes → Except Exn (Nat × List Bytes)} {m : Int} {keys : List Bytes}
    (hlen : ∀ key ∈ keys, key.length = keyLength)
    (hsucceeds : (∃ script, build m keys = .ok script) ↔ Accepted keyLength m keys)
    (hreads : ∀ threshold : Nat, (threshold : Int) = m → IsQuorum keyLength threshold keys →
      ∀ script, build m keys = .ok script → extract script = .ok (threshold, sortedKeys keys)) :
    Inverse build extract m keys ↔ ¬ NegativeThreshold m keys := by
  constructor
  · intro h hneg
    obtain ⟨hop, hm, hne, hbound, hnd⟩ := hneg
    have haccepted : Accepted keyLength m keys :=
      ⟨⟨hne, by omega, by omega, hbound⟩, hlen, hnd, hop⟩
    have hreal := h.admits.mp (hsucceeds.mpr haccepted)
    have hpos : 1 ≤ m := hreal.1
    omega
  · intro h
    -- A script is built only over a threshold of one or more.
    have hreal : Accepted keyLength m keys → RealQuorum m keys := by
      intro haccepted
      obtain ⟨⟨hne, hzero, hle, hbound⟩, -, hnd, hop⟩ := haccepted
      have hpos : ¬ m < 0 := fun hm => h ⟨hop, hm, hne, hbound, hnd⟩
      exact ⟨by omega, hle, hbound, hnd⟩
    constructor
    · rw [hsucceeds]
      constructor
      · exact hreal
      · intro hquorum
        obtain ⟨hpos, hle, hbound, hnd⟩ := hquorum
        have hne : keys ≠ [] := List.ne_nil_of_length_pos (by omega)
        exact ⟨⟨hne, by omega, hle, hbound⟩, hlen, hnd, by omega⟩
    · intro script hscript
      obtain ⟨hpos, hle, hbound, hnd⟩ := hreal (hsucceeds.mp ⟨script, hscript⟩)
      have hm : ((m.toNat : Nat) : Int) = m := Int.toNat_of_nonneg (by omega)
      have hquorum : IsQuorum keyLength m.toNat keys :=
        ⟨by omega, by omega, hbound, hlen, hnd⟩
      exact ⟨m.toNat, hreads m.toNat hm hquorum script hscript, hm⟩

theorem redeemScript_inverse {m : Int} {keys : List Bytes} (hkeys : CompressedKeys keys) :
    Inverse makeMultisigRedeemScript extractMultisigQuorum m keys ↔ ¬ NegativeThreshold m keys := by
  apply inverse_iff (fun key hkey => (hkeys key hkey).1) makeMultisigRedeemScript_succeeds
  intro threshold hm hquorum script hscript
  rw [← hm, makeMultisigRedeemScript_ok hquorum] at hscript
  cases hscript
  apply extractMultisigQuorum_redeemBytes hquorum.sorted
  intro key hkey
  exact (hkeys key (mem_sortedKeys.mp hkey)).2

theorem tapscript_inverse {m : Int} {keys : List Bytes} (hkeys : XOnlyKeys keys) :
    Inverse makeMultisigTapscript extractMultisigTapscript m keys ↔ ¬ NegativeThreshold m keys := by
  apply inverse_iff hkeys makeMultisigTapscript_succeeds
  intro threshold hm hquorum script hscript
  rw [← hm, makeMultisigTapscript_ok hquorum] at hscript
  cases hscript
  exact extractMultisigTapscript_tapscriptBytes hquorum.sorted

theorem sortedKeys_of_sorted {keys : List Bytes} (h : keys.Pairwise (· ≤ ·)) :
    sortedKeys keys = keys := h.insertionSort_eq

theorem redeemScript_rebuilds : Rebuilds makeMultisigRedeemScript extractMultisigQuorum := by
  intro script m keys h hsorted
  obtain ⟨hquorum, -, rfl⟩ := extractMultisigQuorum_eq_ok.mp h
  rw [makeMultisigRedeemScript_ok hquorum, sortedKeys_of_sorted hsorted]

theorem tapscript_rebuilds : Rebuilds makeMultisigTapscript extractMultisigTapscript := by
  intro script m keys h hsorted
  obtain ⟨hquorum, rfl⟩ := extractMultisigTapscript_eq_ok.mp h
  rw [makeMultisigTapscript_ok hquorum, sortedKeys_of_sorted hsorted]

/-- Builders and extractors are inverse, unless the threshold is negative and its opcode a byte. -/
theorem builders_inverse (m : Int) (keys : List Bytes) :
    (CompressedKeys keys →
      (Inverse makeMultisigRedeemScript extractMultisigQuorum m keys ↔
        ¬ NegativeThreshold m keys)) ∧
    (XOnlyKeys keys →
      (Inverse makeMultisigTapscript extractMultisigTapscript m keys ↔
        ¬ NegativeThreshold m keys)) ∧
    Rebuilds makeMultisigRedeemScript extractMultisigQuorum ∧
    Rebuilds makeMultisigTapscript extractMultisigTapscript :=
  ⟨redeemScript_inverse, tapscript_inverse, redeemScript_rebuilds, tapscript_rebuilds⟩

theorem builders_inverse_sample :
    CompressedKeys [0x03 :: List.replicate 32 7, 0x02 :: List.replicate 32 9] ∧
    Inverse makeMultisigRedeemScript extractMultisigQuorum 2
      [0x03 :: List.replicate 32 7, 0x02 :: List.replicate 32 9] := by
  have hkeys : CompressedKeys [0x03 :: List.replicate 32 7, 0x02 :: List.replicate 32 9] := by
    rw [CompressedKeys]
    decide
  exact ⟨hkeys, ((builders_inverse 2 _).1 hkeys).mpr (by decide)⟩

/-- A threshold of minus one is built with `OP_1NEGATE`. -/
theorem negative_threshold_built :
    CompressedKeys [0x02 :: List.replicate 32 9] ∧
    makeMultisigRedeemScript (-1) [0x02 :: List.replicate 32 9] =
      .ok ([0x4f, 0x21, 0x02] ++ List.replicate 32 9 ++ [0x51, 0xae]) ∧
    ¬ RealQuorum (-1) [0x02 :: List.replicate 32 9] ∧
    ¬ Inverse makeMultisigRedeemScript extractMultisigQuorum (-1)
      [0x02 :: List.replicate 32 9] := by
  have hbuilt : makeMultisigRedeemScript (-1) [0x02 :: List.replicate 32 9] =
      .ok ([0x4f, 0x21, 0x02] ++ List.replicate 32 9 ++ [0x51, 0xae]) := by decide
  have hreal : ¬ RealQuorum (-1) [0x02 :: List.replicate 32 9] := fun h => absurd h.1 (by decide)
  refine ⟨?_, hbuilt, hreal, fun h => hreal (h.admits.mp ⟨_, hbuilt⟩)⟩
  rw [CompressedKeys]
  decide

end Yubtc.QuorumRoundTrip
