import Yubtc.Errors
import Yubtc.Lib.ExceptRules
import Yubtc.Lib.Regroup
import Yubtc.Lib.CheckCode

/-!
# Bech32

The codec of BIP-173 and BIP-350: a human-readable part, a separator, five-bit values and a
checksum over all of it. What the encoder writes is decoded to what it was written from.
-/
namespace Yubtc.Bech32

open Wire Text Errors ExceptRules Regroup

def charset : List Char :=
  ['q', 'p', 'z', 'r', 'y', '9', 'x', '8', 'g', 'f', '2', 't', 'v', 'd', 'w', '0', 's', '3', 'j',
   'n', '5', '4', 'k', 'h', 'c', 'e', '6', 'm', 'u', 'a', '7', 'l']

def bech32mConst : Nat := 0x2bc830a3

def bech32MaxLen : Nat := 90

/-- Which checksum constant a string satisfies. -/
inductive Encoding where
  | bech32
  | bech32m
  deriving DecidableEq, Repr

def Encoding.checksumConst : Encoding → Nat
  | .bech32 => 1
  | .bech32m => bech32mConst

/-- The generators of the checksum. -/
def gen : List Nat := [0x3b6a57b2, 0x26508e6d, 0x1ea119fa, 0x3d4233dd, 0x2a1462b3]

/-- The register has thirty bits; a value takes the place of its lowest five. -/
def polymod (values : List Nat) : Nat := values.foldl (CheckCode.step gen 25 5) 1

def hrpExpand (hrp : Str) : List Nat :=
  hrp.map (fun c => c.val >>> 5) ++ [0] ++ hrp.map fun c => c.val &&& 31

/-- The character of a five-bit value. -/
def charOf (v : Nat) : CodePoint := ofChar (charset.getD v 'q')

def encode (hrp : Str) (encoding : Encoding) (data : Bytes) : Except Bech32Error Str := do
  data.forM fun v => reject (v > 31) (.invalidDataValue v)
  let values := hrpExpand hrp ++ data.map UInt8.toNat ++ List.replicate 6 0
  let checksum := polymod values ^^^ encoding.checksumConst
  let out := hrp ++ str "1" ++ data.map (fun v => charOf v.toNat) ++
    [5, 4, 3, 2, 1, 0].map fun i => charOf ((checksum >>> (5 * i)) &&& 31)
  reject (out.length > bech32MaxLen) .tooLong
  return out

/-- Only ASCII is left when these are asked. -/
def isLower (c : CodePoint) : Bool := 97 ≤ c.val && c.val ≤ 122
def isUpper (c : CodePoint) : Bool := 65 ≤ c.val && c.val ≤ 90

def lower (c : CodePoint) : CodePoint := if isUpper c then c + 32 else c

/-- `s.rfind(c)`, without its `-1`. -/
def rfind (c : CodePoint) (s : Str) : Option Nat :=
  (s.reverse.idxOf? c).map fun i => s.length - 1 - i

/-- `CHARSET.find(ord(c))`, without its `-1`. -/
def charsetFind (c : CodePoint) : Option Nat := (charset.map ofChar).idxOf? c

def decode (s : Str) : Except Bech32Error (Str × Encoding × Bytes) := do
  reject (s.length > bech32MaxLen) .tooLong
  s.forM fun c => reject (¬ (33 ≤ c.val ∧ c.val ≤ 126)) (.invalidCharacter c)
  reject (s.any isLower && s.any isUpper) .mixedCase
  let s := s.map lower
  let pos ← orElseThrow .invalidStructure (rfind (ofChar '1') s)
  reject (pos = 0 ∨ pos + 7 > s.length) .invalidStructure
  let hrp := s.take pos
  let dataPart := s.drop (pos + 1)
  let values ← dataPart.mapM fun c => orElseThrow (.invalidCharacter c) (charsetFind c)
  let chk := polymod (hrpExpand hrp ++ values)
  let encoding ←
    if chk = 1 then .ok .bech32
    else if chk = bech32mConst then .ok .bech32m
    else .error .invalidChecksum
  return (hrp, encoding, (values.take (values.length - 6)).map UInt8.ofNat)

def bytesTo5bit (data : Bytes) : Bytes :=
  let s := regroup 8 5 12 (data.map UInt8.toNat)
  let out := if s.bits > 0 then s.out ++ [(s.acc <<< (5 - s.bits)) &&& 31] else s.out
  out.map UInt8.ofNat

/-- A value above five bits, more than four bits of padding and padding that is not zero are
refused. -/
def fiveBitToBytes (data : Bytes) : Option Bytes :=
  if ∃ v ∈ data, v > 31 then none
  else
    let s := regroup 5 8 12 (data.map UInt8.toNat)
    if s.bits ≥ 5 then none
    else if s.bits > 0 ∧ s.acc &&& ((1 <<< s.bits) - 1) ≠ 0 then none
    else some (s.out.map UInt8.ofNat)

theorem map_toNat_ofNat {ds : List Nat} (h : ∀ d ∈ ds, d < 256) :
    (ds.map UInt8.ofNat).map UInt8.toNat = ds := by
  rw [List.map_map]
  refine (List.map_congr_left fun d hd => ?_).trans (List.map_id ds)
  exact UInt8.toNat_ofNat_of_lt' (h d hd)

theorem map_toNat_lt (data : Bytes) : ∀ d ∈ data.map UInt8.toNat, d < 2 ^ 8 := by
  intro d hd
  obtain ⟨b, -, rfl⟩ := List.mem_map.mp hd
  exact b.toNat_lt

/-- The five-bit values of bytes: their number with some zero bits after it. -/
theorem bytesTo5bit_spec (data : Bytes) :
    ∃ pad values, pad < 5 ∧ bytesTo5bit data = values.map UInt8.ofNat ∧
      (∀ v ∈ values, v < 2 ^ 5) ∧ 5 * values.length = 8 * data.length + pad ∧
      value 5 values = value 8 (data.map UInt8.toNat) * 2 ^ pad := by
  obtain ⟨⟨hout, hheld, hdigits⟩, hbits, hlength⟩ :=
    @regroup_spec 8 5 12 _ (by decide) (by decide) (map_toNat_lt data)
  rw [List.length_map] at hlength
  unfold bytesTo5bit
  generalize regroup 8 5 12 (data.map UInt8.toNat) = s at hout hheld hdigits hbits hlength
  by_cases hpos : s.bits > 0
  · refine ⟨5 - s.bits, s.out ++ [(s.acc <<< (5 - s.bits)) &&& 31], by omega, ?_, ?_, ?_, ?_⟩
    · dsimp only
      rw [if_pos hpos]
    · intro v hv
      rcases List.mem_append.mp hv with hv | hv
      · exact hdigits v hv
      · rw [List.mem_singleton.mp hv, show (31 : Nat) = 2 ^ 5 - 1 by rfl,
          Nat.and_two_pow_sub_one_eq_mod]
        exact Nat.mod_lt _ (by decide)
    · rw [List.length_append, List.length_singleton]
      omega
    · -- The held bits move up, and zeros come in below them.
      have hsplit : 2 ^ 5 = 2 ^ (5 - s.bits) * 2 ^ s.bits := by
        rw [← pow_add, Nat.sub_add_cancel hbits.le]
      rw [value_concat, hout, show (31 : Nat) = 2 ^ 5 - 1 by rfl, Nat.and_two_pow_sub_one_eq_mod,
        Nat.shiftLeft_eq, Nat.mul_comm s.acc, hsplit, Nat.mul_mod_mul_left, hheld]
      generalize value 8 (data.map UInt8.toNat) = n
      calc n / 2 ^ s.bits * (2 ^ (5 - s.bits) * 2 ^ s.bits) + 2 ^ (5 - s.bits) * (n % 2 ^ s.bits)
          = 2 ^ (5 - s.bits) * (n / 2 ^ s.bits * 2 ^ s.bits + n % 2 ^ s.bits) := by ring
        _ = n * 2 ^ (5 - s.bits) := by rw [Nat.div_add_mod', Nat.mul_comm]
  · have hzero : s.bits = 0 := by omega
    refine ⟨0, s.out, by decide, ?_, hdigits, by omega, ?_⟩
    · dsimp only
      rw [if_neg hpos]
    · rw [hout, hzero, pow_zero, Nat.div_one, Nat.mul_one]

theorem bytesTo5bit_lt (data : Bytes) : ∀ v ∈ bytesTo5bit data, v.toNat < 32 := by
  obtain ⟨pad, values, -, heq, hlt, -⟩ := bytesTo5bit_spec data
  intro v hv
  rw [heq] at hv
  obtain ⟨d, hd, rfl⟩ := List.mem_map.mp hv
  have h := hlt d hd
  rw [UInt8.toNat_ofNat_of_lt' (h.trans (by decide))]
  exact h

theorem bytesTo5bit_length (data : Bytes) :
    5 * (bytesTo5bit data).length < 8 * data.length + 5 := by
  obtain ⟨pad, values, hpad, heq, -, hlen, -⟩ := bytesTo5bit_spec data
  rw [heq, List.length_map]
  omega

/-- Regrouping to five bits and back. -/
theorem fiveBitToBytes_bytesTo5bit (data : Bytes) : fiveBitToBytes (bytesTo5bit data) = some data := by
  obtain ⟨pad, values, hpad, heq, hlt, hlen, hvalue⟩ := bytesTo5bit_spec data
  have hsmall : ¬ ∃ v ∈ bytesTo5bit data, v > 31 := by
    rintro ⟨v, hv, hgt⟩
    have hle := bytesTo5bit_lt data v hv
    have h31 : (31 : UInt8).toNat < v.toNat := UInt8.lt_iff_toNat_lt.mp hgt
    rw [show (31 : UInt8).toNat = 31 by rfl] at h31
    omega
  obtain ⟨⟨hout, hheld, hdigits⟩, hbits, hlength⟩ :=
    @regroup_spec 5 8 12 _ (by decide) (by decide) hlt
  have hnat : (bytesTo5bit data).map UInt8.toNat = values := by
    rw [heq]
    exact map_toNat_ofNat fun d hd => (hlt d hd).trans (by decide)
  unfold fiveBitToBytes
  rw [if_neg hsmall, hnat]
  generalize regroup 5 8 12 values = s at hout hheld hdigits hbits hlength
  have hbitsPad : s.bits = pad := by omega
  have hcount : s.out.length = data.length := by omega
  rw [hvalue, hbitsPad] at hout hheld
  rw [Nat.mul_div_cancel _ (Nat.two_pow_pos pad)] at hout
  rw [Nat.mul_mod_left] at hheld
  have hzero : ¬ (s.bits > 0 ∧ s.acc &&& ((1 <<< s.bits) - 1) ≠ 0) := by
    rintro ⟨-, hne⟩
    rw [Nat.one_shiftLeft, Nat.and_two_pow_sub_one_eq_mod, hbitsPad] at hne
    exact hne hheld
  have hsame : s.out = data.map UInt8.toNat :=
    value_injective (hcount.trans (List.length_map _).symm) hdigits (map_toNat_lt data) hout
  dsimp only
  rw [if_neg (by omega), if_neg hzero, hsame, List.map_map]
  exact congrArg some (List.map_id'' (fun _ => UInt8.ofNat_toNat) data)

theorem charsetFind_charOf {v : Nat} (h : v < 32) : charsetFind (charOf v) = some v := by
  revert v
  decide

theorem charOf_shape {v : Nat} (h : v < 32) : (33 ≤ (charOf v).val ∧ (charOf v).val ≤ 126) ∧
    isUpper (charOf v) = false ∧ charOf v ≠ ofChar '1' := by
  revert v
  decide

theorem rfind_append {c : CodePoint} (s : Str) {t : Str} (h : c ∉ t) :
    rfind c (s ++ c :: t) = some s.length := by
  have hidx : (s ++ c :: t).reverse.idxOf? c = some t.length := by
    rw [List.reverse_append, List.reverse_cons, List.append_assoc, List.idxOf?_eq_some_iff]
    refine ⟨by simp, ?_, fun j hj => ?_⟩
    · simp
    · have hjt : j < t.reverse.length := by simpa using hj
      rw [List.getElem_append_left hjt]
      exact fun he => h (List.mem_reverse.mp (he ▸ List.getElem_mem hjt))
  rw [rfind, hidx, Option.map_some, List.length_append, List.length_cons]
  congr 1
  omega

/-- What the encoder asks of the human-readable part. -/
structure Readable (hrp : Str) : Prop where
  nonempty : hrp ≠ []
  printable : ∀ c ∈ hrp, 33 ≤ c.val ∧ c.val ≤ 126
  lower : ∀ c ∈ hrp, isUpper c = false

theorem checkPart_eq (c : Nat) : [5, 4, 3, 2, 1, 0].map (fun i => (c >>> (5 * i)) &&& 31) =
    CheckCode.symbols 5 6 c := by
  simp [CheckCode.symbols, ← Nat.shiftRight_add]

theorem gen_lt : ∀ g ∈ gen, g < 2 ^ (25 + 5) := by decide

theorem checksumConst_lt (encoding : Encoding) : encoding.checksumConst < 2 ^ (25 + 5) := by
  cases encoding <;> decide

theorem symbols_lt (n c : Nat) : ∀ v ∈ CheckCode.symbols 5 n c, v < 32 := by
  induction n generalizing c with
  | zero => exact nofun
  | succ n ih =>
    intro v hv
    rcases List.mem_append.mp hv with hv | hv
    · exact ih _ v hv
    · rw [List.mem_singleton.mp hv, Nat.and_two_pow_sub_one_eq_mod]
      exact Nat.mod_lt _ (by decide)

theorem symbols_length (n c : Nat) : (CheckCode.symbols 5 n c).length = n := by
  induction n generalizing c with
  | zero => rfl
  | succ n ih => rw [CheckCode.symbols, List.length_append, ih, List.length_singleton]

/-- The check part brings the register to the constant of the encoding. -/
theorem polymod_check (values : List Nat) (encoding : Encoding) :
    polymod (values ++ CheckCode.symbols 5 6
      (polymod (values ++ List.replicate 6 0) ^^^ encoding.checksumConst)) =
      encoding.checksumConst := by
  simp only [polymod, List.foldl_append]
  exact CheckCode.foldl_check _ (by decide) rfl gen_lt (checksumConst_lt encoding)

theorem mapM_charsetFind {values : List Nat} (h : ∀ v ∈ values, v < 32) :
    (values.map charOf).mapM (fun c => orElseThrow (.invalidCharacter c) (charsetFind c)) =
      (.ok values : Except Bech32Error _) := by
  induction values with
  | nil => rfl
  | cons v values ih =>
    rw [List.map_cons, List.mapM_cons, charsetFind_charOf (h v List.mem_cons_self),
      ih fun x hx => h x (List.mem_cons_of_mem _ hx)]
    rfl

theorem map_lower {s : Str} (h : ∀ c ∈ s, isUpper c = false) : s.map lower = s := by
  refine (List.map_congr_left fun c hc => ?_).trans (List.map_id s)
  rw [lower, h c hc]
  rfl

/-- The values after the separator. -/
def payload (hrp : Str) (encoding : Encoding) (data : Bytes) : List Nat :=
  data.map UInt8.toNat ++ CheckCode.symbols 5 6 (polymod (hrpExpand hrp ++ data.map UInt8.toNat ++
    List.replicate 6 0) ^^^ encoding.checksumConst)

/-- The encoder's string. -/
def encoded (hrp : Str) (encoding : Encoding) (data : Bytes) : Str :=
  hrp ++ ofChar '1' :: (payload hrp encoding data).map charOf

theorem payload_lt {hrp : Str} {encoding : Encoding} {data : Bytes}
    (h : ∀ v ∈ data, v.toNat < 32) : ∀ v ∈ payload hrp encoding data, v < 32 := by
  intro v hv
  rcases List.mem_append.mp hv with hv | hv
  · obtain ⟨b, hb, rfl⟩ := List.mem_map.mp hv
    exact h b hb
  · exact symbols_lt _ _ v hv

theorem payload_length (hrp : Str) (encoding : Encoding) (data : Bytes) :
    (payload hrp encoding data).length = data.length + 6 := by
  rw [payload, List.length_append, List.length_map, symbols_length]

theorem encode_eq {hrp : Str} {encoding : Encoding} {data : Bytes} (h : ∀ v ∈ data, v.toNat < 32)
    (hlen : hrp.length + data.length + 7 ≤ bech32MaxLen) :
    encode hrp encoding data = .ok (encoded hrp encoding data) := by
  have hvalues : ∀ v ∈ data, ¬ v > 31 := by
    intro v hv hgt
    have h31 : (31 : UInt8).toNat < v.toNat := UInt8.lt_iff_toNat_lt.mp hgt
    rw [show (31 : UInt8).toNat = 31 by rfl] at h31
    have := h v hv
    omega
  have hparts : encoded hrp encoding data = hrp ++ str "1" ++ data.map (fun v => charOf v.toNat) ++
      [5, 4, 3, 2, 1, 0].map fun i => charOf (((polymod (hrpExpand hrp ++ data.map UInt8.toNat ++
        List.replicate 6 0) ^^^ encoding.checksumConst) >>> (5 * i)) &&& 31) := by
    rw [encoded, payload, List.map_append, List.map_map, ← checkPart_eq, List.map_map]
    simp only [List.append_assoc]
    rfl
  have hlength : (encoded hrp encoding data).length = hrp.length + data.length + 7 := by
    rw [encoded, List.length_append, List.length_cons, List.length_map, payload_length]
    omega
  rw [encode, forM_reject_ok hvalues, ok_bind]
  dsimp only
  rw [← hparts, reject_false _ (by omega), ok_bind]
  rfl

/-- Decoding what was encoded. -/
theorem decode_encoded {hrp : Str} {encoding : Encoding} {data : Bytes} (hr : Readable hrp)
    (h : ∀ v ∈ data, v.toNat < 32) (hlen : hrp.length + data.length + 7 ≤ bech32MaxLen) :
    decode (encoded hrp encoding data) = .ok (hrp, encoding, data) := by
  have hpayload := @payload_lt hrp encoding data h
  have hchars : ∀ c ∈ encoded hrp encoding data,
      (33 ≤ c.val ∧ c.val ≤ 126) ∧ isUpper c = false := by
    intro c hc
    rcases List.mem_append.mp hc with hc | hc
    · exact ⟨hr.printable c hc, hr.lower c hc⟩
    · rcases List.mem_cons.mp hc with rfl | hc
      · decide
      · obtain ⟨v, hv, rfl⟩ := List.mem_map.mp hc
        have hshape := charOf_shape (hpayload v hv)
        exact ⟨hshape.1, hshape.2.1⟩
  have hlength : (encoded hrp encoding data).length = hrp.length + data.length + 7 := by
    rw [encoded, List.length_append, List.length_cons, List.length_map, payload_length]
    omega
  have hupper : (encoded hrp encoding data).any isUpper = false := by
    rw [List.any_eq_false]
    exact fun c hc => Bool.eq_false_iff.mp (hchars c hc).2
  have hsep : ofChar '1' ∉ (payload hrp encoding data).map charOf := by
    intro hmem
    obtain ⟨v, hv, he⟩ := List.mem_map.mp hmem
    exact (charOf_shape (hpayload v hv)).2.2 he
  have hhrp : hrp.length ≠ 0 := fun he => hr.nonempty (List.eq_nil_of_length_eq_zero he)
  have hpolymod : polymod (hrpExpand hrp ++ payload hrp encoding data) = encoding.checksumConst := by
    rw [payload, ← List.append_assoc]
    exact polymod_check _ _
  have hdrop : (encoded hrp encoding data).drop (hrp.length + 1) =
      (payload hrp encoding data).map charOf := by
    rw [encoded, ← List.drop_drop, List.drop_left, List.drop_one, List.tail_cons]
  have hdata : ((payload hrp encoding data).take
      ((payload hrp encoding data).length - 6)).map UInt8.ofNat = data := by
    rw [payload_length, Nat.add_sub_cancel, payload,
      List.take_left' (@List.length_map _ _ data UInt8.toNat), List.map_map]
    exact List.map_id'' (fun _ => UInt8.ofNat_toNat) data
  unfold decode
  rw [reject_false _ (by omega), ok_bind,
    forM_reject_ok (fun c hc => not_not.mpr (hchars c hc).1), ok_bind,
    reject_false _ (by rw [hupper, Bool.and_false]; exact Bool.false_ne_true), ok_bind]
  dsimp only
  rw [map_lower (fun c hc => (hchars c hc).2), encoded, rfind_append hrp hsep, orElseThrow_some,
    ok_bind, ← encoded, reject_false _ (by omega), ok_bind, hdrop, mapM_charsetFind hpayload,
    ok_bind, show (encoded hrp encoding data).take hrp.length = hrp from List.take_left, hpolymod,
    hdata]
  cases encoding <;> rfl

end Yubtc.Bech32
