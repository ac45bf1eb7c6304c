import Yubtc.Addresses
import Yubtc.Bech32RoundTrip

/-!
# What a segwit address decodes to

The wallet knows twenty-byte programs of version zero and thirty-two-byte programs of version
one. The decoder holds version zero to its length and takes version one at any length that a
witness program can have.
-/
namespace Yubtc.SegwitAddresses

open Wire Text Errors ExceptRules Bech32 Bech32RoundTrip Addresses

/-- Both cases occur. -/
def MixedCase (s : Str) : Prop := (s.any isLower && s.any isUpper) = true

/-- The address spells a program of a version, under the checksum of an encoding. -/
structure Spells (address : Str) (encoding : Encoding) (version : UInt8) (program : Bytes) :
    Prop where
  checksum : ∃ data, decode address = .ok (hrpMainnet, encoding, data)
  again : encode hrpMainnet encoding (version :: bytesTo5bit program) = .ok (address.map lower)

/-- An answer of the decoder that stays within what the wallet supports. -/
def Supported (address : Str) : Except SegWitAddrError WitnessProgram → Prop
  | .error _ => True
  | .ok wp => (wp.version = 0 ∧ wp.program.length = 20 ∧ Spells address .bech32 0 wp.program) ∨
      (wp.version = 1 ∧ wp.program.length = 32 ∧ Spells address .bech32m 1 wp.program)

/-- The address is written, in one case, over a version-one program of another length. -/
def OtherVersionOne (address : Str) : Prop :=
  ¬ MixedCase address ∧ ∃ program : Bytes, 2 ≤ program.length ∧ program.length ≤ 40 ∧
    program.length ≠ 32 ∧
    encode hrpMainnet .bech32m (1 :: bytesTo5bit program) = .ok (address.map lower)

theorem isUpper_lower (c : CodePoint) : isUpper (lower c) = false := by
  unfold lower
  split
  · next h =>
    simp only [isUpper, Bool.and_eq_true, decide_eq_true_eq] at h
    have hval : (c + 32).val = c.val + 32 := Fin.val_add_eq_of_add_lt (by omega)
    simp only [isUpper, hval, Bool.and_eq_false_iff, decide_eq_false_iff_not]
    omega
  · next h => exact Bool.eq_false_iff.mpr h

theorem printable_lower {c : CodePoint} (h : 33 ≤ (lower c).val ∧ (lower c).val ≤ 126) :
    33 ≤ c.val ∧ c.val ≤ 126 := by
  unfold lower at h
  split at h
  · next hupper =>
    simp only [isUpper, Bool.and_eq_true, decide_eq_true_eq] at hupper
    omega
  · exact h

theorem lower_lower (s : Str) : (s.map lower).map lower = s.map lower := by
  apply map_lower
  intro c hc
  obtain ⟨d, -, rfl⟩ := List.mem_map.mp hc
  exact isUpper_lower d

theorem any_isUpper_lower (s : Str) : (s.map lower).any isUpper = false := by
  rw [List.any_eq_false]
  intro c hc
  obtain ⟨d, -, rfl⟩ := List.mem_map.mp hc
  exact Bool.eq_false_iff.mp (isUpper_lower d)

theorem decode_printable {s : Str} {r : Str × Encoding × Bytes} (h : decode s = .ok r) :
    s.length ≤ bech32MaxLen ∧ (∀ c ∈ s, 33 ≤ c.val ∧ c.val ≤ 126) ∧ ¬ MixedCase s := by
  obtain ⟨hmax, h⟩ := reject_bind_eq_ok.mp h
  obtain ⟨_, hchars, h⟩ := bind_eq_ok.mp h
  obtain ⟨hcase, -⟩ := reject_bind_eq_ok.mp h
  exact ⟨Nat.not_lt.mp hmax, fun c hc => not_not.mp (forM_reject_eq_ok.mp hchars c hc), hcase⟩

/-- In one case the decoder sees only the lower-case string. -/
theorem decode_lower {s : Str} {r : Str × Encoding × Bytes} (hcase : ¬ MixedCase s)
    (h : decode (s.map lower) = .ok r) : decode s = .ok r := by
  obtain ⟨hmax, hchars, -⟩ := decode_printable h
  have hprintable : ∀ c ∈ s, ¬ ¬ (33 ≤ c.val ∧ c.val ≤ 126) := fun c hc =>
    not_not.mpr (printable_lower (hchars _ (List.mem_map_of_mem hc)))
  have hchars' : ∀ c ∈ s.map lower, ¬ ¬ (33 ≤ c.val ∧ c.val ≤ 126) := fun c hc =>
    not_not.mpr (hchars c hc)
  rw [List.length_map] at hmax
  unfold decode at h ⊢
  rw [reject_false _ (by rw [List.length_map]; omega), ok_bind, forM_reject_ok hchars', ok_bind,
    reject_false _ (by rw [any_isUpper_lower, Bool.and_false]; exact Bool.false_ne_true), ok_bind]
    at h
  rw [reject_false _ (by omega), ok_bind, forM_reject_ok hprintable, ok_bind,
    reject_false _ (show ¬ (s.any isLower && s.any isUpper) = true from hcase), ok_bind]
  dsimp only at h ⊢
  rw [lower_lower] at h
  exact h

theorem witnessProgram_eq_ok {address : Str} {encoding : Encoding} {wp : WitnessProgram} :
    witnessProgram address = .ok (encoding, wp) ↔
      ∃ version rest program, decode address = .ok (hrpMainnet, encoding, version :: rest) ∧
        fiveBitToBytes rest = some program ∧ wp = ⟨version.toNat, program⟩ := by
  constructor
  · intro h
    obtain ⟨⟨hrp, encoding', data⟩, hdecode, h⟩ := bind_eq_ok.mp h
    obtain ⟨hhrp, h⟩ := reject_bind_eq_ok.mp h
    cases data with
    | nil => cases h
    | cons version rest =>
      obtain ⟨program, hprogram, h⟩ := bind_eq_ok.mp h
      cases h
      rw [not_not.mp hhrp] at hdecode
      exact ⟨version, rest, program, mapError_eq_ok.mp hdecode, orElseThrow_eq_ok.mp hprogram, rfl⟩
  · intro h
    obtain ⟨version, rest, program, hdecode, hprogram, rfl⟩ := h
    refine bind_eq_ok.mpr ⟨_, mapError_eq_ok.mpr hdecode, ?_⟩
    refine reject_bind_eq_ok.mpr ⟨not_not.mpr rfl, ?_⟩
    exact bind_eq_ok.mpr ⟨program, orElseThrow_eq_ok.mpr hprogram, rfl⟩

/-- What the rejections leave: version zero with its checksum and length, or version one with its
checksum. -/
theorem decodeSegwitAddr_eq_ok {address : Str} {wp : WitnessProgram} :
    decodeSegwitAddr address = .ok wp ↔
      ∃ encoding, witnessProgram address = .ok (encoding, wp) ∧
        ((wp.version = 0 ∧ encoding = .bech32 ∧ wp.program.length = 20) ∨
          (wp.version = 1 ∧ encoding = .bech32m ∧ 2 ≤ wp.program.length ∧
            wp.program.length ≤ 40)) := by
  simp only [decodeSegwitAddr, bind_eq_ok, reject_eq_ok, exists_const, pure_eq_ok, Except.ok.injEq]
  constructor
  · intro h
    obtain ⟨⟨encoding, wp'⟩, hwp, hlength, -, hzero, hbech32, hbech32m, hlong, hone, he⟩ := h
    obtain rfl : wp' = wp := he
    dsimp only at hlength hzero hbech32 hbech32m hlong hone
    refine ⟨encoding, hwp, ?_⟩
    by_cases hv : wp'.version = 0
    · left
      refine ⟨hv, not_not.mp fun he => hbech32 ⟨hv, he⟩, ?_⟩
      omega
    · right
      refine ⟨by omega, not_not.mp fun he => hbech32m ⟨hv, he⟩, by omega, by omega⟩
  · intro h
    obtain ⟨encoding, hwp, h⟩ := h
    refine ⟨(encoding, wp), hwp, ?_⟩
    dsimp only
    cases h with
    | inl h =>
      obtain ⟨hv, he, hlen⟩ := h
      refine ⟨by omega, by omega, by omega, fun hne => hne.2 he, fun hne => hne.1 hv, by omega,
        by omega, rfl⟩
    | inr h =>
      obtain ⟨hv, he, hmin, hmax⟩ := h
      refine ⟨by omega, by omega, by omega, fun hne => ?_, fun hne => hne.2 he, by omega,
        by omega, rfl⟩
      exact absurd hne.1 (by omega)

/-- A program that was read is written again as it was. -/
theorem spells_of_witnessProgram {address : Str} {encoding : Encoding} {wp : WitnessProgram}
    {version : UInt8} (h : witnessProgram address = .ok (encoding, wp))
    (hv : wp.version = version.toNat) : Spells address encoding version wp.program := by
  obtain ⟨version', rest, program, hdecode, hprogram, rfl⟩ := witnessProgram_eq_ok.mp h
  obtain rfl : version' = version := UInt8.toNat_inj.mp hv
  refine ⟨⟨_, hdecode⟩, ?_⟩
  rw [bytesTo5bit_fiveBitToBytes hprogram]
  obtain ⟨hlower, -, hdata, hsize⟩ := encoded_of_decode hdecode
  rw [hlower, encode_eq hdata hsize]

/-- The decoder stays within the supported programs, except on version one at another length. -/
theorem decodeSegwitAddr_supported (address : Str) :
    Supported address (decodeSegwitAddr address) ↔ ¬ OtherVersionOne address := by
  constructor
  · intro h hother
    obtain ⟨hcase, program, hmin, hmax, hne, hencode⟩ := hother
    obtain ⟨hlt, hsize⟩ := @program_fits 1 program (by decide) hmax
    have hlower : encoded hrpMainnet .bech32m (1 :: bytesTo5bit program) = address.map lower := by
      rw [encode_eq hlt hsize] at hencode
      exact Except.ok.inj hencode
    have hdecode := @decode_encoded hrpMainnet .bech32m _ readable_mainnet hlt hsize
    rw [hlower] at hdecode
    have hwp : witnessProgram address = .ok (.bech32m, ⟨1, program⟩) :=
      witnessProgram_eq_ok.mpr ⟨1, _, program, decode_lower hcase hdecode,
        fiveBitToBytes_bytesTo5bit program, rfl⟩
    have hanswer : decodeSegwitAddr address = .ok ⟨1, program⟩ :=
      decodeSegwitAddr_eq_ok.mpr ⟨_, hwp, .inr ⟨rfl, rfl, hmin, hmax⟩⟩
    rw [hanswer] at h
    cases h with
    | inl h => exact absurd h.1 Nat.one_ne_zero
    | inr h => exact hne h.2.1
  · intro h
    cases hanswer : decodeSegwitAddr address with
    | error e => trivial
    | ok wp =>
      obtain ⟨encoding, hwp, hshape⟩ := decodeSegwitAddr_eq_ok.mp hanswer
      cases hshape with
      | inl hzero =>
        obtain ⟨hv, rfl, hlen⟩ := hzero
        exact .inl ⟨hv, hlen, spells_of_witnessProgram hwp hv⟩
      | inr hone =>
        obtain ⟨hv, rfl, hmin, hmax⟩ := hone
        have hspells := @spells_of_witnessProgram address .bech32m wp 1 hwp hv
        obtain ⟨data, hdecode⟩ := hspells.checksum
        refine .inr ⟨hv, ?_, hspells⟩
        by_contra hne
        exact h ⟨(decode_printable hdecode).2.2, wp.program, hmin, hmax, hne, hspells.again⟩

/-- Version one over two bytes. -/
theorem two_byte_version_one :
    decodeSegwitAddr (str "bc1pqypq8d3x5d") = .ok ⟨1, [1, 2]⟩ ∧
      ¬ Supported (str "bc1pqypq8d3x5d") (decodeSegwitAddr (str "bc1pqypq8d3x5d")) := by
  have haddress : encoded hrpMainnet .bech32m (1 :: bytesTo5bit [1, 2]) = str "bc1pqypq8d3x5d" := by
    decide +kernel
  have hwp := @witnessProgram_encoded .bech32m 1 [1, 2] (by decide) (by decide)
  rw [haddress] at hwp
  have hanswer : decodeSegwitAddr (str "bc1pqypq8d3x5d") = .ok ⟨1, [1, 2]⟩ :=
    decodeSegwitAddr_eq_ok.mpr ⟨_, hwp, .inr ⟨rfl, rfl, by decide, by decide⟩⟩
  refine ⟨hanswer, fun h => ?_⟩
  rw [hanswer] at h
  cases h with
  | inl h => exact absurd h.1 Nat.one_ne_zero
  | inr h => exact absurd h.2.1 (by decide)

end Yubtc.SegwitAddresses
