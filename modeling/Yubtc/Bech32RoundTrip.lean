import Yubtc.Bech32

/-!
# Bech32, there and back

A string that the decoder accepts is, in lower case, the one the encoder writes for what was
decoded: the check part is determined by the rest, and so is every character.
-/
namespace Yubtc.Bech32RoundTrip

open Wire Text Errors ExceptRules Regroup Bech32

theorem charsetFind_eq_some {c : CodePoint} {v : Nat} (h : charsetFind c = some v) :
    v < 32 ∧ charOf v = c := by
  rw [charsetFind, List.idxOf?_eq_some_iff] at h
  obtain ⟨hv, hc, -⟩ := h
  rw [List.length_map] at hv
  rw [List.getElem_map] at hc
  refine ⟨hv, ?_⟩
  rw [charOf, List.getD_eq_getElem?_getD, List.getElem?_eq_getElem hv, Option.getD_some, hc]

theorem values_of_mapM {s : Str} {values : List Nat}
    (h : s.mapM (fun c => orElseThrow (Bech32Error.invalidCharacter c) (charsetFind c)) =
      .ok values) : (∀ v ∈ values, v < 32) ∧ values.map charOf = s := by
  induction mapM_eq_ok.mp h with
  | nil => exact ⟨fun _ hv => absurd hv List.not_mem_nil, rfl⟩
  | @cons c v s values hc htail ih =>
    obtain ⟨hv, hchar⟩ := charsetFind_eq_some (orElseThrow_eq_ok.mp hc)
    obtain ⟨hvalues, hmap⟩ := ih (mapM_eq_ok.mpr htail)
    constructor
    · intro x hx
      cases List.mem_cons.mp hx with
      | inl he => exact he ▸ hv
      | inr hx => exact hvalues x hx
    · rw [List.map_cons, hchar, hmap]

/-- The string around its last separator. -/
theorem split_of_rfind {c : CodePoint} {s : Str} {pos : Nat} (h : rfind c s = some pos) :
    pos < s.length ∧ s = s.take pos ++ c :: s.drop (pos + 1) := by
  obtain ⟨i, hi, rfl⟩ := Option.map_eq_some_iff.mp h
  obtain ⟨hlt, hc, -⟩ := List.idxOf?_eq_some_iff.mp hi
  rw [List.length_reverse] at hlt
  rw [List.getElem_reverse] at hc
  have hpos : s.length - 1 - i < s.length := by omega
  refine ⟨hpos, ?_⟩
  rw [← hc, ← List.drop_eq_getElem_cons hpos, List.take_append_drop]

/-- Values whose register ends in the constant are a payload of their own front. -/
theorem payload_of_polymod {hrp : Str} {encoding : Encoding} {values : List Nat}
    (hlen : 6 ≤ values.length) (hvalues : ∀ v ∈ values, v < 32)
    (h : polymod (hrpExpand hrp ++ values) = encoding.checksumConst) :
    payload hrp encoding ((values.take (values.length - 6)).map UInt8.ofNat) = values := by
  have hsplit := List.take_append_drop (values.length - 6) values
  have hcheckLen : (values.drop (values.length - 6)).length = 6 := by
    rw [List.length_drop]
    omega
  have hfront : ((values.take (values.length - 6)).map UInt8.ofNat).map UInt8.toNat =
      values.take (values.length - 6) :=
    map_toNat_ofNat fun d hd => (hvalues d (List.mem_of_mem_take hd)).trans (by decide)
  rw [← hsplit, ← List.append_assoc, polymod, List.foldl_append] at h
  have hunique := CheckCode.check_unique (by rw [hcheckLen])
    (fun v hv => hvalues v (List.mem_of_mem_drop hv)) h
  rw [hcheckLen] at hunique
  rw [payload, hfront, polymod, List.foldl_append, hunique, hsplit]

/-- What an accepted string is in lower case. -/
theorem encoded_of_decode {s hrp : Str} {encoding : Encoding} {data : Bytes}
    (h : decode s = .ok (hrp, encoding, data)) :
    s.map lower = encoded hrp encoding data ∧ hrp ≠ [] ∧ (∀ v ∈ data, v.toNat < 32) ∧
      hrp.length + data.length + 7 ≤ bech32MaxLen := by
  obtain ⟨hmax, h⟩ := reject_bind_eq_ok.mp h
  obtain ⟨_, -, h⟩ := bind_eq_ok.mp h
  obtain ⟨-, h⟩ := reject_bind_eq_ok.mp h
  obtain ⟨pos, hpos, h⟩ := bind_eq_ok.mp h
  obtain ⟨hstructure, h⟩ := reject_bind_eq_ok.mp h
  obtain ⟨values, hvalues, h⟩ := bind_eq_ok.mp h
  have hchk : polymod (hrpExpand ((s.map lower).take pos) ++ values) = encoding.checksumConst ∧
      ((s.map lower).take pos, encoding, (values.take (values.length - 6)).map UInt8.ofNat) =
        (hrp, encoding, data) := by
    dsimp only at h
    split at h
    · next hone =>
      cases h
      exact ⟨hone, rfl⟩
    · split at h
      · next hm =>
        cases h
        exact ⟨hm, rfl⟩
      · cases h
  obtain ⟨hchk, he⟩ := hchk
  cases he
  obtain ⟨hlt, hsplit⟩ := split_of_rfind (orElseThrow_eq_ok.mp hpos)
  obtain ⟨hsmall, hchars⟩ := values_of_mapM hvalues
  have hlength : values.length = s.length - (pos + 1) := by
    rw [mapM_length hvalues, List.length_drop, List.length_map]
  rw [List.length_map] at hstructure hlt
  have hpayload := payload_of_polymod (by omega) hsmall hchk
  refine ⟨?_, ?_, ?_, ?_⟩
  · rw [encoded, hpayload, hchars]
    exact hsplit
  · intro hnil
    have htake : ((s.map lower).take pos).length = 0 := by rw [hnil, List.length_nil]
    rw [List.length_take, List.length_map] at htake
    omega
  · intro v hv
    obtain ⟨d, hd, rfl⟩ := List.mem_map.mp hv
    have hd32 := hsmall d (List.mem_of_mem_take hd)
    rw [UInt8.toNat_ofNat_of_lt' (hd32.trans (by decide))]
    exact hd32
  · rw [List.length_take, List.length_map, List.length_map, List.length_take]
    omega

/-- Encoder and decoder are inverse. -/
theorem encode_decode_inverse :
    (∀ (hrp : Str) (encoding : Encoding) (data : Bytes), Readable hrp →
      (∀ v ∈ data, v.toNat < 32) → hrp.length + 1 + data.length + 6 ≤ bech32MaxLen →
      ∃ out, encode hrp encoding data = .ok out ∧ decode out = .ok (hrp, encoding, data)) ∧
    ∀ (s hrp : Str) (encoding : Encoding) (data : Bytes), decode s = .ok (hrp, encoding, data) →
      encode hrp encoding data = .ok (s.map lower) := by
  constructor
  · intro hrp encoding data hreadable hdata hlen
    have hsize : hrp.length + data.length + 7 ≤ bech32MaxLen := by omega
    exact ⟨encoded hrp encoding data, encode_eq hdata hsize,
      decode_encoded hreadable hdata hsize⟩
  · intro s hrp encoding data h
    obtain ⟨hlower, -, hdata, hsize⟩ := encoded_of_decode h
    rw [hlower, encode_eq hdata hsize]

theorem encode_decode_sample : ∃ out, encode [ofChar '1'] .bech32m [31] = .ok out ∧
    decode out = .ok ([ofChar '1'], .bech32m, [31]) := by
  apply encode_decode_inverse.1
  · exact ⟨List.cons_ne_nil _ _, List.forall_mem_singleton.mpr (by decide),
      List.forall_mem_singleton.mpr (by decide)⟩
  · exact List.forall_mem_singleton.mpr (by decide)
  · decide

/-- Values that regroup into bytes are the values of those bytes. -/
theorem bytesTo5bit_fiveBitToBytes {data bytes : Bytes} (h : fiveBitToBytes data = some bytes) :
    bytesTo5bit bytes = data := by
  unfold fiveBitToBytes at h
  split at h
  · cases h
  · next hsmall =>
    have hdata : ∀ d ∈ data.map UInt8.toNat, d < 2 ^ 5 := by
      intro d hd
      obtain ⟨v, hv, rfl⟩ := List.mem_map.mp hd
      have hle : v ≤ 31 := UInt8.not_lt.mp fun hlt => hsmall ⟨v, hv, hlt⟩
      exact Nat.lt_succ_of_le (UInt8.le_iff_toNat_le.mp hle)
    obtain ⟨⟨hout, hheld, hdigits⟩, hbits, hlength⟩ :=
      @regroup_spec 5 8 12 _ (by decide) (by decide) hdata
    generalize regroup 5 8 12 (data.map UInt8.toNat) = s at h hout hheld hdigits hbits hlength
    dsimp only at h
    split at h
    · cases h
    · next hpad =>
      split at h
      · cases h
      · next hzero =>
        cases h
        obtain ⟨pad, values, hpad5, heq, hlt, hlen, hvalue⟩ := bytesTo5bit_spec
          (s.out.map UInt8.ofNat)
        have hback : (s.out.map UInt8.ofNat).map UInt8.toNat = s.out := map_toNat_ofNat hdigits
        -- The padding that came in is zero, and as long as the padding that is put back.
        have hheldZero : s.acc % 2 ^ s.bits = 0 := by
          by_cases hpos : s.bits > 0
          · have hmask : s.acc &&& ((1 <<< s.bits) - 1) = 0 :=
              not_not.mp fun hne => hzero ⟨hpos, hne⟩
            rwa [Nat.one_shiftLeft, Nat.and_two_pow_sub_one_eq_mod] at hmask
          · rw [show s.bits = 0 by omega, pow_zero, Nat.mod_one]
        rw [List.length_map] at hlen hlength
        have hsame : values.length = data.length := by omega
        have hpadBits : pad = s.bits := by omega
        have hnumber : value 5 values = value 5 (data.map UInt8.toNat) := by
          rw [hvalue, hback, hout, hpadBits]
          have hmod : value 5 (data.map UInt8.toNat) % 2 ^ s.bits = 0 := by
            rw [← hheld, hheldZero]
          exact Nat.div_mul_cancel (Nat.dvd_of_mod_eq_zero hmod)
        have hvalues : values = data.map UInt8.toNat :=
          value_injective (hsame.trans (List.length_map _).symm) hlt hdata hnumber
        rw [heq, hvalues, List.map_map]
        exact List.map_id'' (fun _ => UInt8.ofNat_toNat) data

theorem fiveBitToBytes_eq_some {data bytes : Bytes} :
    fiveBitToBytes data = some bytes ↔ data = bytesTo5bit bytes := by
  constructor
  · intro h
    exact (bytesTo5bit_fiveBitToBytes h).symm
  · rintro rfl
    exact fiveBitToBytes_bytesTo5bit bytes

/-- The bits that the values have above whole bytes. -/
def padding (data : Bytes) : Nat := 5 * data.length % 8

/-- What regroups into bytes has a short padding of zeros. -/
theorem padding_of_bytes (bytes : Bytes) : padding (bytesTo5bit bytes) < 5 ∧
    value 5 ((bytesTo5bit bytes).map UInt8.toNat) % 2 ^ padding (bytesTo5bit bytes) = 0 := by
  obtain ⟨pad, values, hpad, heq, hlt, hlen, hvalue⟩ := bytesTo5bit_spec bytes
  have hsame : padding (bytesTo5bit bytes) = pad := by
    rw [padding, heq, List.length_map]
    omega
  have hvalues : (bytesTo5bit bytes).map UInt8.toNat = values := by
    rw [heq]
    exact map_toNat_ofNat fun v hv => (hlt v hv).trans (by decide)
  rw [hsame, hvalues, hvalue]
  exact ⟨hpad, Nat.mul_mod_left _ _⟩

/-- Values regroup into bytes exactly when they are the values of those bytes, so bytes come back
and a padding that is long or not zero is refused. -/
theorem regrouping_exact :
    (∀ data bytes : Bytes, fiveBitToBytes data = some bytes ↔ data = bytesTo5bit bytes) ∧
    (∀ bytes : Bytes, fiveBitToBytes (bytesTo5bit bytes) = some bytes) ∧
    ∀ data : Bytes, 5 ≤ padding data ∨ value 5 (data.map UInt8.toNat) % 2 ^ padding data ≠ 0 →
      fiveBitToBytes data = none := by
  refine ⟨fun data bytes => fiveBitToBytes_eq_some, fiveBitToBytes_bytesTo5bit, ?_⟩
  intro data hpad
  cases h : fiveBitToBytes data with
  | none => rfl
  | some bytes =>
    obtain ⟨hshort, hzero⟩ := padding_of_bytes bytes
    rw [fiveBitToBytes_eq_some.mp h] at hpad
    cases hpad with
    | inl hlong => exact absurd hlong (Nat.not_le.mpr hshort)
    | inr hne => exact absurd hzero hne

theorem regrouping_exact_sample : fiveBitToBytes [31, 1] = none :=
  regrouping_exact.2.2 [31, 1] (.inr (by decide))

end Yubtc.Bech32RoundTrip
