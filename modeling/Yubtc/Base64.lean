import Yubtc.Errors
import Yubtc.Lib.Chunks
import Yubtc.Lib.ExceptRules

/-!
# Base64

The transport encoding of a PSBT. The decoder reads group by group and holds every group to the
padding rule of the last one, so a group that is padded may also stand before others.
-/
namespace Yubtc.Base64

open Wire Text Errors ExceptRules Chunks

def b64Alphabet : Str := str "ABCDEFGHIJKLMNOPQRSTUVWXYZabcdefghijklmnopqrstuvwxyz0123456789+/"

def padding : CodePoint := ofChar '='

/-- `chr(_B64_ALPHABET[v])`. -/
def b64Char (v : Nat) : CodePoint := b64Alphabet.getD v padding

def encodeChunk (chunk : Bytes) : Str :=
  let b1 := if chunk.length > 1 then chunk.getD 1 0 else 0
  let b2 := if chunk.length > 2 then chunk.getD 2 0 else 0
  let n := ((chunk.getD 0 0).toNat <<< 16) ||| (b1.toNat <<< 8) ||| b2.toNat
  [b64Char ((n >>> 18) &&& 63), b64Char ((n >>> 12) &&& 63),
    if chunk.length > 1 then b64Char ((n >>> 6) &&& 63) else padding,
    if chunk.length > 2 then b64Char (n &&& 63) else padding]

def encodeBase64 (data : Bytes) : Str := (chunks 3 data).flatMap encodeChunk

def malformed : Exn := .psbt .invalidFieldValue

def b64ValueOf (c : UInt8) : Except Exn Nat :=
  if 0x41 ≤ c ∧ c ≤ 0x5a then .ok (c.toNat - 0x41)
  else if 0x61 ≤ c ∧ c ≤ 0x7a then .ok (c.toNat - 0x61 + 26)
  else if 0x30 ≤ c ∧ c ≤ 0x39 then .ok (c.toNat - 0x30 + 52)
  else if c = 0x2b then .ok 62
  else if c = 0x2f then .ok 63
  else .error malformed

/-- One character of `s.encode('utf-8')`, which refuses surrogates with a `ValueError`. -/
def utf8Char (c : CodePoint) : Except Exn Bytes :=
  let n := c.val
  let low i := UInt8.ofNat (0x80 + (n >>> (6 * i)) % 64)
  if n < 0x80 then .ok [UInt8.ofNat n]
  else if n < 0x800 then .ok [UInt8.ofNat (0xc0 + (n >>> 6)), low 0]
  else if 0xd800 ≤ n ∧ n ≤ 0xdfff then .error (.valueError "surrogates not allowed")
  else if n < 0x10000 then .ok [UInt8.ofNat (0xe0 + (n >>> 12)), low 1, low 0]
  else .ok [UInt8.ofNat (0xf0 + (n >>> 18)), low 2, low 1, low 0]

def utf8 (s : Str) : Except Exn Bytes := (s.mapM utf8Char).map List.flatten

/-- Space, tab, line feed, carriage return, form feed. -/
def isWhitespace (c : CodePoint) : Bool := [0x20, 0x09, 0x0a, 0x0d, 0x0c].contains c.val

def strip (s : Str) : Str := (s.dropWhile isWhitespace).rdropWhile isWhitespace

/-- One character of a group: its value, or an end to the data of the group. -/
def quadStep (state : List Nat × Nat) (c : UInt8 × Nat) : Except Exn (List Nat × Nat) :=
  if c.1 = 0x3d then .ok (state.1, min state.2 c.2)
  else do
    reject (c.2 ≥ state.2) malformed
    let v ← b64ValueOf c.1
    return (state.1.set c.2 v, state.2)

def decodeQuad (quad : Bytes) : Except Exn Bytes := do
  let (vals, nData) ← quad.zipIdx.foldlM quadStep ([0, 0, 0, 0], 4)
  reject (nData < 2) malformed
  let packed := (vals.getD 0 0 <<< 18) ||| (vals.getD 1 0 <<< 12) ||| (vals.getD 2 0 <<< 6) |||
    vals.getD 3 0
  return UInt8.ofNat ((packed >>> 16) &&& 0xff) ::
    (if nData ≥ 3 then [UInt8.ofNat ((packed >>> 8) &&& 0xff)] else []) ++
    if nData ≥ 4 then [UInt8.ofNat (packed &&& 0xff)] else []

def decodeBase64 (s : Str) : Except Exn Bytes := do
  let trimmed ← utf8 (strip s)
  reject (trimmed.length % 4 ≠ 0) malformed
  let groups ← (chunks 4 trimmed).mapM decodeQuad
  return groups.flatten

/-- A value, its character and the byte of that character. -/
def b64Byte (v : Nat) : UInt8 := UInt8.ofNat (b64Char v).val

theorem ofByte_b64Byte {v : Nat} (h : v < 64) :
    ofByte (b64Byte v) = b64Char v ∧ b64Byte v < 0x80 ∧ b64Byte v ≠ 0x3d ∧
      b64ValueOf (b64Byte v) = .ok v := by
  revert v
  decide +kernel

theorem b64ValueOf_table : ∀ i < 256,
    (b64ValueOf (UInt8.ofNat i)).toOption.all fun v => v < 64 && b64Byte v = UInt8.ofNat i := by
  decide +kernel

theorem b64ValueOf_eq_ok {c : UInt8} {v : Nat} : b64ValueOf c = .ok v ↔ v < 64 ∧ b64Byte v = c := by
  constructor
  · intro h
    have htable := b64ValueOf_table c.toNat c.toNat_lt
    rw [UInt8.ofNat_toNat, h] at htable
    simpa [Except.toOption] using htable
  · intro h
    rw [← h.2]
    exact (ofByte_b64Byte h.1).2.2.2

theorem ofByte_injective {b c : UInt8} (h : ofByte b = ofByte c) : b = c := by
  have hval : (ofByte b).val = (ofByte c).val := by rw [h]
  exact UInt8.toNat_inj.mp hval

theorem mem_alphabet {c : CodePoint} : c ∈ b64Alphabet ↔ ∃ v < 64, b64Char v = c := by
  constructor
  · intro h
    obtain ⟨v, hv, hc⟩ := List.getElem_of_mem h
    exact ⟨v, hv, by rw [b64Char, List.getD_eq_getElem _ _ hv, hc]⟩
  · intro h
    obtain ⟨v, hv, rfl⟩ := h
    rw [b64Char, List.getD_eq_getElem _ _ hv]
    exact List.getElem_mem hv

theorem padding_not_mem : padding ∉ b64Alphabet := by decide +kernel

/-- Alphabet characters and at most two characters of padding behind them. -/
def Padded (t : Str) : Prop :=
  ∃ body pad, t = body ++ List.replicate pad padding ∧ pad ≤ 2 ∧ ∀ c ∈ body, c ∈ b64Alphabet

/-- What a step of the loop over a group can do. -/
theorem quadStep_eq_ok {state state' : List Nat × Nat} {c : UInt8} {i : Nat} :
    quadStep state (c, i) = .ok state' ↔
      (c = 0x3d ∧ state' = (state.1, min state.2 i)) ∨
        ∃ v < 64, b64Byte v = c ∧ i < state.2 ∧ state' = (state.1.set i v, state.2) := by
  unfold quadStep
  dsimp only
  split
  · next hc =>
    rw [Except.ok.injEq, hc]
    constructor
    · intro h
      exact .inl ⟨rfl, h.symm⟩
    · intro h
      cases h with
      | inl h => exact h.2.symm
      | inr h =>
        obtain ⟨v, hv, hbyte, -, -⟩ := h
        exact absurd hbyte (ofByte_b64Byte hv).2.2.1
  · next hc =>
    rw [reject_bind_eq_ok]
    simp only [bind_eq_ok, b64ValueOf_eq_ok, pure_eq_ok, Except.ok.injEq, ge_iff_le, Nat.not_le]
    constructor
    · intro h
      obtain ⟨hi, v, ⟨hv, hbyte⟩, rfl⟩ := h
      exact .inr ⟨v, hv, hbyte, hi, rfl⟩
    · intro h
      cases h with
      | inl h => exact absurd h.1 hc
      | inr h =>
        obtain ⟨v, hv, hbyte, hi, rfl⟩ := h
        exact ⟨hi, v, ⟨hv, hbyte⟩, rfl⟩

/-- The three bytes of four values. -/
def unpack (vals : List Nat) : Bytes :=
  let packed := (vals.getD 0 0 <<< 18) ||| (vals.getD 1 0 <<< 12) ||| (vals.getD 2 0 <<< 6) |||
    vals.getD 3 0
  [UInt8.ofNat ((packed >>> 16) &&& 0xff), UInt8.ofNat ((packed >>> 8) &&& 0xff),
    UInt8.ofNat (packed &&& 0xff)]

theorem quadStep_data {vals : List Nat} {n i v : Nat} (hv : v < 64) (hi : i < n) :
    quadStep (vals, n) (b64Byte v, i) = .ok (vals.set i v, n) :=
  quadStep_eq_ok.mpr (.inr ⟨v, hv, rfl, hi, rfl⟩)

theorem quadStep_pad (vals : List Nat) (n i : Nat) :
    quadStep (vals, n) (0x3d, i) = .ok (vals, min n i) :=
  quadStep_eq_ok.mpr (.inl ⟨rfl, rfl⟩)

theorem length_eq_four {α : Type} {l : List α} (h : l.length = 4) :
    ∃ a b c d, l = [a, b, c, d] := by
  obtain ⟨a, b, c, hdrop⟩ := List.length_eq_three.mp
    (show (l.drop 1).length = 3 by rw [List.length_drop, h])
  cases l with
  | nil => cases hdrop
  | cons x l => exact ⟨x, a, b, c, congrArg (List.cons x) hdrop⟩

/-- A group of two, three or four values. -/
theorem decodeQuad_values {vals : List Nat} (h : ∀ v ∈ vals, v < 64) (hmin : 2 ≤ vals.length)
    (hmax : vals.length ≤ 4) :
    decodeQuad (vals.map b64Byte ++ List.replicate (4 - vals.length) 0x3d) =
      .ok ((unpack vals).take (vals.length - 1)) := by
  have hcount : vals.length = 2 ∨ vals.length = 3 ∨ vals.length = 4 := by omega
  rcases hcount with hlen | hlen | hlen
  · obtain ⟨a, b, rfl⟩ := List.length_eq_two.mp hlen
    have ha : a < 64 := h a (by simp)
    have hb : b < 64 := h b (by simp)
    simp [decodeQuad, quadStep_data, quadStep_pad, ha, hb, List.replicate, unpack, reject]
  · obtain ⟨a, b, c, rfl⟩ := List.length_eq_three.mp hlen
    have ha : a < 64 := h a (by simp)
    have hb : b < 64 := h b (by simp)
    have hc : c < 64 := h c (by simp)
    simp [decodeQuad, quadStep_data, quadStep_pad, ha, hb, hc, unpack, reject]
  · obtain ⟨a, b, c, d, rfl⟩ := length_eq_four hlen
    have ha : a < 64 := h a (by simp)
    have hb : b < 64 := h b (by simp)
    have hc : c < 64 := h c (by simp)
    have hd : d < 64 := h d (by simp)
    simp [decodeQuad, quadStep_data, ha, hb, hc, hd, unpack, reject]

theorem ofByte_padding : ofByte 0x3d = padding := by decide

theorem data_mem {v : Nat} (hv : v < 64) : ofByte (b64Byte v) ∈ b64Alphabet := by
  rw [(ofByte_b64Byte hv).1]
  exact mem_alphabet.mpr ⟨v, hv, rfl⟩

/-- A group that is read is padded only at its end. -/
theorem padded_of_decodeQuad {quad out : Bytes} (hlen : quad.length = 4)
    (h : decodeQuad quad = .ok out) : Padded (quad.map ofByte) := by
  obtain ⟨a, b, c, d, rfl⟩ := length_eq_four hlen
  obtain ⟨⟨vals, n⟩, hfold, h⟩ := bind_eq_ok.mp h
  obtain ⟨hn, -⟩ := reject_bind_eq_ok.mp h
  obtain ⟨s1, h1, hfold⟩ := bind_eq_ok.mp hfold
  obtain ⟨s2, h2, hfold⟩ := bind_eq_ok.mp hfold
  obtain ⟨s3, h3, hfold⟩ := bind_eq_ok.mp hfold
  obtain ⟨s4, h4, hfold⟩ := bind_eq_ok.mp hfold
  cases hfold
  -- Padding sets the bound to its own place, so no data comes behind it.
  rcases quadStep_eq_ok.mp h1 with ⟨rfl, rfl⟩ | ⟨v1, hv1, rfl, -, rfl⟩ <;>
  rcases quadStep_eq_ok.mp h2 with ⟨rfl, rfl⟩ | ⟨v2, hv2, rfl, hi2, rfl⟩ <;>
  rcases quadStep_eq_ok.mp h3 with ⟨rfl, rfl⟩ | ⟨v3, hv3, rfl, hi3, rfl⟩ <;>
  rcases quadStep_eq_ok.mp h4 with ⟨rfl, he⟩ | ⟨v4, hv4, rfl, hi4, he⟩ <;>
  cases he <;> dsimp only at * <;> try omega
  · refine ⟨[ofByte (b64Byte v1), ofByte (b64Byte v2)], 2, ?_, le_refl 2, ?_⟩
    · simp [ofByte_padding, List.replicate]
    · simp [data_mem, hv1, hv2]
  · refine ⟨[ofByte (b64Byte v1), ofByte (b64Byte v2), ofByte (b64Byte v3)], 1, ?_, by decide, ?_⟩
    · simp [ofByte_padding]
    · simp [data_mem, hv1, hv2, hv3]
  · refine ⟨[ofByte (b64Byte v1), ofByte (b64Byte v2), ofByte (b64Byte v3), ofByte (b64Byte v4)],
      0, ?_, by decide, ?_⟩
    · simp
    · simp [data_mem, hv1, hv2, hv3, hv4]

theorem exists_values {body : Str} (h : ∀ c ∈ body, c ∈ b64Alphabet) :
    ∃ vals : List Nat, (∀ v ∈ vals, v < 64) ∧ vals.map b64Char = body := by
  induction body with
  | nil => exact ⟨[], fun _ hv => absurd hv List.not_mem_nil, rfl⟩
  | cons c body ih =>
    obtain ⟨v, hv, hc⟩ := mem_alphabet.mp (h c List.mem_cons_self)
    obtain ⟨vals, hvals, hbody⟩ := ih fun d hd => h d (List.mem_cons_of_mem _ hd)
    exact ⟨v :: vals, List.forall_mem_cons.mpr ⟨hv, hvals⟩, by rw [List.map_cons, hc, hbody]⟩

theorem map_ofByte_values {vals : List Nat} (h : ∀ v ∈ vals, v < 64) :
    (vals.map b64Byte).map ofByte = vals.map b64Char := by
  rw [List.map_map]
  exact List.map_congr_left fun v hv => (ofByte_b64Byte (h v hv)).1

/-- Groups are read exactly when they are padded at their end. -/
theorem decodeQuad_succeeds {quad : Bytes} (hlen : quad.length = 4) :
    (∃ out, decodeQuad quad = .ok out) ↔ Padded (quad.map ofByte) := by
  constructor
  · intro h
    obtain ⟨out, h⟩ := h
    exact padded_of_decodeQuad hlen h
  · intro h
    obtain ⟨body, pad, hquad, hpad, hbody⟩ := h
    obtain ⟨vals, hvals, rfl⟩ := exists_values hbody
    have hcount : vals.length + pad = 4 := by
      have hsize := congrArg List.length hquad
      simp only [List.length_map, List.length_append, List.length_replicate] at hsize
      omega
    have hbytes : quad = vals.map b64Byte ++ List.replicate (4 - vals.length) 0x3d := by
      apply List.map_injective_iff.mpr (fun _ _ => ofByte_injective)
      rw [hquad, List.map_append, map_ofByte_values hvals, List.map_replicate, ofByte_padding]
      congr 2
      omega
    rw [hbytes]
    exact ⟨_, decodeQuad_values hvals (by omega) (by omega)⟩

/-- The bytes of an ASCII string. -/
def asciiBytes (t : Str) : Bytes := t.map fun c => UInt8.ofNat c.val

theorem map_ofByte_asciiBytes {t : Str} (h : ∀ c ∈ t, c.val < 0x80) :
    (asciiBytes t).map ofByte = t := by
  rw [asciiBytes, List.map_map]
  refine (List.map_congr_left fun c hc => ?_).trans (List.map_id t)
  apply Fin.ext
  have hc := h c hc
  have hsize : c.val < UInt8.size := hc.trans (by decide)
  exact UInt8.toNat_ofNat_of_lt' hsize

theorem utf8Char_ascii {c : CodePoint} (h : c.val < 0x80) :
    utf8Char c = .ok [UInt8.ofNat c.val] := if_pos h

theorem utf8_ascii {t : Str} (h : ∀ c ∈ t, c.val < 0x80) : utf8 t = .ok (asciiBytes t) := by
  have hmap : t.mapM utf8Char = .ok (t.map fun c => [UInt8.ofNat c.val]) := by
    induction t with
    | nil => rfl
    | cons c t ih =>
      rw [List.mapM_cons, utf8Char_ascii (h c List.mem_cons_self),
        ih fun d hd => h d (List.mem_cons_of_mem _ hd)]
      rfl
  have hflatten : (t.map fun c => [UInt8.ofNat c.val]).flatten = asciiBytes t := by
    rw [← List.flatMap_def, asciiBytes, List.map_eq_flatMap]
  rw [utf8, hmap]
  exact congrArg Except.ok hflatten

theorem lead_foreign {n : Nat} (hmin : 0x80 ≤ n) (hmax : n < 0x100) : ¬ UInt8.ofNat n < 0x80 := by
  rw [UInt8.lt_iff_toNat_lt, UInt8.toNat_ofNat_of_lt' hmax]
  exact Nat.not_lt.mpr hmin

/-- A character outside ASCII starts with a byte outside ASCII. -/
theorem utf8Char_foreign {c : CodePoint} {bytes : Bytes} (h : ¬ c.val < 0x80)
    (hc : utf8Char c = .ok bytes) : ∃ b ∈ bytes, ¬ b < 0x80 := by
  have hlt := c.isLt
  unfold utf8Char at hc
  simp only [if_neg h, Nat.shiftRight_eq_div_pow] at hc
  split at hc
  · cases hc
    exact ⟨_, List.mem_cons_self, lead_foreign (by omega) (by omega)⟩
  · split at hc
    · cases hc
    · split at hc
      · cases hc
        exact ⟨_, List.mem_cons_self, lead_foreign (by omega) (by omega)⟩
      · cases hc
        exact ⟨_, List.mem_cons_self, lead_foreign (by omega) (by omega)⟩

theorem exists_of_mapM {α β : Type} {f : α → Except Exn β} {l : List α} {r : List β} {a : α}
    (h : l.mapM f = .ok r) (ha : a ∈ l) : ∃ b ∈ r, f a = .ok b := by
  induction mapM_eq_ok.mp h with
  | nil => exact absurd ha List.not_mem_nil
  | @cons x b l r hx htail ih =>
    cases List.mem_cons.mp ha with
    | inl he => exact ⟨b, List.mem_cons_self, he ▸ hx⟩
    | inr ha =>
      obtain ⟨d, hd, hfd⟩ := ih (mapM_eq_ok.mpr htail) ha
      exact ⟨d, List.mem_cons_of_mem _ hd, hfd⟩

/-- Only an ASCII string has ASCII bytes. -/
theorem ascii_of_utf8 {t : Str} {bytes : Bytes} (h : utf8 t = .ok bytes)
    (hbytes : ∀ b ∈ bytes, b < 0x80) : ∀ c ∈ t, c.val < 0x80 := by
  obtain ⟨parts, hparts, rfl⟩ := map_eq_ok.mp (show List.flatten <$> t.mapM utf8Char = _ from h)
  intro c hc
  by_contra hforeign
  obtain ⟨part, hpart, hchar⟩ := exists_of_mapM hparts hc
  obtain ⟨b, hb, hlarge⟩ := utf8Char_foreign hforeign hchar
  exact hlarge (hbytes b (List.mem_flatten.mpr ⟨part, hpart, hb⟩))

theorem padded_ascii {t : Str} (h : Padded t) : ∀ c ∈ t, c.val < 0x80 := by
  obtain ⟨body, pad, rfl, -, hbody⟩ := h
  have halphabet : ∀ v < 64, (b64Char v).val < 0x80 := by decide +kernel
  intro c hc
  cases List.mem_append.mp hc with
  | inl hc =>
    obtain ⟨v, hv, rfl⟩ := mem_alphabet.mp (hbody c hc)
    exact halphabet v hv
  | inr hc =>
    rw [(List.mem_replicate.mp hc).2]
    decide

/-- The decoder reads every group on its own. -/
theorem decodeBase64_succeeds {s : Str} :
    (∃ out, decodeBase64 s = .ok out) ↔
      (strip s).length % 4 = 0 ∧ ∀ quad ∈ chunks 4 (strip s), Padded quad := by
  generalize ht : strip s = t
  constructor
  · intro h
    obtain ⟨out, h⟩ := h
    obtain ⟨bytes, hbytes, h⟩ := bind_eq_ok.mp h
    obtain ⟨hmod, h⟩ := reject_bind_eq_ok.mp h
    obtain ⟨groups, hgroups, -⟩ := bind_eq_ok.mp h
    rw [ht] at hbytes
    have hquads : ∀ quad ∈ chunks 4 bytes, Padded (quad.map ofByte) := by
      intro quad hquad
      obtain ⟨group, -, hgroup⟩ := exists_of_mapM hgroups hquad
      exact padded_of_decodeQuad (chunk_full (by decide) (not_not.mp hmod) quad hquad) hgroup
    have hsmall : ∀ b ∈ bytes, b < 0x80 := by
      intro b hb
      rw [← flatten_chunks (w := 4) (by decide) bytes] at hb
      obtain ⟨quad, hquad, hb⟩ := List.mem_flatten.mp hb
      exact UInt8.lt_iff_toNat_lt.mpr
        (padded_ascii (hquads quad hquad) (ofByte b) (List.mem_map_of_mem hb))
    have hascii := ascii_of_utf8 hbytes hsmall
    obtain rfl : asciiBytes t = bytes := Except.ok.inj ((utf8_ascii hascii).symm.trans hbytes)
    have htext := map_ofByte_asciiBytes hascii
    constructor
    · rw [← htext, List.length_map]
      exact not_not.mp hmod
    · rw [← htext, chunks_map]
      intro quad hquad
      obtain ⟨part, hpart, rfl⟩ := List.mem_map.mp hquad
      exact hquads part hpart
  · intro h
    obtain ⟨hmod, hquads⟩ := h
    have hascii : ∀ c ∈ t, c.val < 0x80 := by
      intro c hc
      rw [← flatten_chunks (w := 4) (by decide) t] at hc
      obtain ⟨quad, hquad, hc⟩ := List.mem_flatten.mp hc
      exact padded_ascii (hquads quad hquad) c hc
    have htext := map_ofByte_asciiBytes hascii
    have hmodBytes : (asciiBytes t).length % 4 = 0 := by rw [asciiBytes, List.length_map, hmod]
    have hgroups : ∃ groups, (chunks 4 (asciiBytes t)).mapM decodeQuad = .ok groups := by
      apply mapM_ok_of_forall
      intro quad hquad
      apply (decodeQuad_succeeds (chunk_full (by decide) hmodBytes quad hquad)).mpr
      apply hquads
      rw [← htext, chunks_map]
      exact List.mem_map_of_mem hquad
    obtain ⟨groups, hgroups⟩ := hgroups
    rw [decodeBase64, ht, utf8_ascii hascii, ok_bind, reject_false _ (not_not.mpr hmodBytes),
      ok_bind, hgroups]
    exact ⟨_, rfl⟩

/-- Groups in a row are padded as a whole when only the last of them is. -/
theorem padded_flatten {parts : List Str} (h : ∀ part ∈ parts, part.length = 4) :
    Padded parts.flatten ↔
      (∀ part ∈ parts, Padded part) ∧ ∀ part ∈ parts.dropLast, padding ∉ part := by
  induction parts with
  | nil =>
    have hnil : Padded ([] : List Str).flatten := ⟨[], 0, rfl, by decide, by simp⟩
    exact iff_of_true hnil ⟨by simp, by simp⟩
  | cons part parts ih =>
    have hpart : part.length = 4 := h part List.mem_cons_self
    cases parts with
    | nil => simp
    | cons next rest =>
      have hnext : next.length = 4 := h next (by simp)
      rw [List.dropLast_cons_of_ne_nil (List.cons_ne_nil _ _),
        List.forall_mem_cons (p := Padded) (l := next :: rest),
        List.forall_mem_cons (p := fun part => padding ∉ part), List.flatten_cons]
      have ih := ih fun p hp => h p (List.mem_cons_of_mem _ hp)
      constructor
      · intro hwhole
        obtain ⟨body, pad, hwhole, hpad, hbody⟩ := hwhole
        -- The padding is too short to reach into this group.
        have hsize := congrArg List.length hwhole
        simp only [List.length_append, List.length_replicate, List.flatten_cons] at hsize
        have hle : part.length ≤ body.length := by omega
        have hfront : part = body.take part.length := by
          have htake := congrArg (List.take part.length) hwhole
          rwa [List.take_left, List.take_append_of_le_length hle] at htake
        have hrest : (next :: rest).flatten =
            body.drop part.length ++ List.replicate pad padding := by
          have hdrop := congrArg (List.drop part.length) hwhole
          rwa [List.drop_left, List.drop_append_of_le_length hle] at hdrop
        have hall : ∀ c ∈ part, c ∈ b64Alphabet := by
          intro c hc
          rw [hfront] at hc
          exact hbody c (List.mem_of_mem_take hc)
        obtain ⟨hparts, hlast⟩ := ih.mp
          ⟨_, pad, hrest, hpad, fun c hc => hbody c (List.mem_of_mem_drop hc)⟩
        exact ⟨⟨⟨part, 0, by simp, by decide, hall⟩, hparts⟩,
          fun hmem => padding_not_mem (hall _ hmem), hlast⟩
      · intro hgroups
        obtain ⟨⟨hfirst, hparts⟩, hnopad, hlast⟩ := hgroups
        obtain ⟨front, pad0, hfront, -, hfrontAll⟩ := hfirst
        obtain ⟨body, pad, hbody, hpad, hbodyAll⟩ := ih.mpr ⟨hparts, hlast⟩
        have hzero : pad0 = 0 := by
          by_contra hne
          apply hnopad
          rw [hfront]
          exact List.mem_append_right _ (List.mem_replicate.mpr ⟨hne, rfl⟩)
        rw [hzero, List.replicate_zero, List.append_nil] at hfront
        refine ⟨front ++ body, pad, by rw [hbody, hfront, List.append_assoc], hpad, ?_⟩
        intro c hc
        cases List.mem_append.mp hc with
        | inl hc => exact hfrontAll c hc
        | inr hc => exact hbodyAll c hc

/-- The grammar of the standard: whole groups, and padding only at the very end. -/
def InGrammar (t : Str) : Prop := t.length % 4 = 0 ∧ Padded t

/-- Every group is padded at its own end, and one before the last is. -/
def PaddedInside (t : Str) : Prop :=
  t.length % 4 = 0 ∧ (∀ quad ∈ chunks 4 t, Padded quad) ∧
    ∃ quad ∈ (chunks 4 t).dropLast, padding ∈ quad

theorem inGrammar_iff {t : Str} :
    InGrammar t ↔ (t.length % 4 = 0 ∧ ∀ quad ∈ chunks 4 t, Padded quad) ∧ ¬ PaddedInside t := by
  constructor
  · intro h
    obtain ⟨hmod, hpadded⟩ := h
    rw [← flatten_chunks (w := 4) (by decide) t,
      padded_flatten (chunk_full (by decide) hmod)] at hpadded
    refine ⟨⟨hmod, hpadded.1⟩, fun hinside => ?_⟩
    obtain ⟨-, -, quad, hquad, hmem⟩ := hinside
    exact hpadded.2 quad hquad hmem
  · intro h
    obtain ⟨⟨hmod, hquads⟩, hinside⟩ := h
    refine ⟨hmod, ?_⟩
    rw [← flatten_chunks (w := 4) (by decide) t, padded_flatten (chunk_full (by decide) hmod)]
    exact ⟨hquads, fun quad hquad hmem => hinside ⟨hmod, hquads, quad, hquad, hmem⟩⟩

/-- The four six-bit digits of three bytes. -/
def digits (n : Nat) : List Nat :=
  [(n >>> 18) &&& 63, (n >>> 12) &&& 63, (n >>> 6) &&& 63, n &&& 63]

/-- The number of three bytes. -/
def pack (x y z : UInt8) : Nat := (x.toNat <<< 16) ||| (y.toNat <<< 8) ||| z.toNat

theorem pack_eq (x y z : UInt8) : pack x y z = x.toNat * 2 ^ 16 + y.toNat * 2 ^ 8 + z.toNat := by
  have hy := y.toNat_lt
  have hz := z.toNat_lt
  have hlow : y.toNat <<< 8 ||| z.toNat = y.toNat <<< 8 + z.toNat :=
    (Nat.shiftLeft_add_eq_or_of_lt hz _).symm
  have hlt : y.toNat <<< 8 + z.toNat < 2 ^ 16 := by
    rw [Nat.shiftLeft_eq]
    omega
  rw [pack, Nat.or_assoc, hlow, ← Nat.shiftLeft_add_eq_or_of_lt hlt, Nat.shiftLeft_eq,
    Nat.shiftLeft_eq]
  omega

theorem digits_lt (n : Nat) : ∀ v ∈ digits n, v < 64 := by
  intro v hv
  have hmask : ∀ m : Nat, m &&& 63 < 64 := fun m => Nat.lt_succ_of_le Nat.and_le_right
  simp only [digits, List.mem_cons, List.not_mem_nil, or_false] at hv
  rcases hv with rfl | rfl | rfl | rfl <;> exact hmask _

theorem mask6 (m : Nat) : m &&& 63 = m % 2 ^ 6 := Nat.and_two_pow_sub_one_eq_mod m 6

theorem mask8 (m : Nat) : m &&& 0xff = m % 2 ^ 8 := Nat.and_two_pow_sub_one_eq_mod m 8

/-- Four digits stand for their number. -/
theorem packed_digits {n : Nat} (h : n < 2 ^ 24) :
    (((n >>> 18) &&& 63) <<< 18) ||| (((n >>> 12) &&& 63) <<< 12) ||| (((n >>> 6) &&& 63) <<< 6) |||
      (n &&& 63) = n := by
  simp only [mask6, Nat.shiftRight_eq_div_pow, Nat.or_assoc]
  have h0 : n % 2 ^ 6 < 2 ^ 6 := Nat.mod_lt _ (by decide)
  have h1 : (n / 2 ^ 6 % 2 ^ 6) <<< 6 + n % 2 ^ 6 < 2 ^ 12 := by
    rw [Nat.shiftLeft_eq]
    omega
  have h2 : (n / 2 ^ 12 % 2 ^ 6) <<< 12 + ((n / 2 ^ 6 % 2 ^ 6) <<< 6 + n % 2 ^ 6) < 2 ^ 18 := by
    rw [Nat.shiftLeft_eq, Nat.shiftLeft_eq]
    omega
  rw [← Nat.shiftLeft_add_eq_or_of_lt h0, ← Nat.shiftLeft_add_eq_or_of_lt h1,
    ← Nat.shiftLeft_add_eq_or_of_lt h2, Nat.shiftLeft_eq, Nat.shiftLeft_eq, Nat.shiftLeft_eq]
  omega

theorem unpack_digits (x y z : UInt8) : unpack (digits (pack x y z)) = [x, y, z] := by
  have hx := x.toNat_lt
  have hy := y.toNat_lt
  have hz := z.toNat_lt
  have hn := pack_eq x y z
  have hbyte : ∀ (b : UInt8) (m : Nat), m % 2 ^ 8 = b.toNat → UInt8.ofNat (m &&& 0xff) = b := by
    intro b m h
    rw [mask8, h, UInt8.ofNat_toNat]
  simp only [unpack, digits, List.getD_cons_zero, List.getD_cons_succ]
  rw [packed_digits (by omega), hbyte x _ (by rw [Nat.shiftRight_eq_div_pow]; omega),
    hbyte y _ (by rw [Nat.shiftRight_eq_div_pow]; omega), hbyte z _ (by omega)]

/-- Digits of zero at the end may be left out. -/
theorem unpack_zeros {vals : List Nat} (k : Nat) : unpack (vals ++ List.replicate k 0) = unpack vals := by
  have hget : ∀ i, (vals ++ List.replicate k 0).getD i 0 = vals.getD i 0 := by
    intro i
    simp only [List.getD_eq_getElem?_getD]
    by_cases hi : i < vals.length
    · rw [List.getElem?_append_left hi]
    · rw [List.getElem?_append_right (by omega), List.getElem?_replicate,
        List.getElem?_eq_none (by omega)]
      split <;> rfl
  simp only [unpack, hget]

/-- A chunk is written as one digit more than it has bytes, and padded to a group. -/
theorem encodeChunk_spec {chunk : Bytes} (hpos : 0 < chunk.length) (hle : chunk.length ≤ 3) :
    ∃ vals : List Nat, (∀ v ∈ vals, v < 64) ∧ vals.length = chunk.length + 1 ∧
      encodeChunk chunk = vals.map b64Char ++ List.replicate (4 - vals.length) padding ∧
      (unpack vals).take (vals.length - 1) = chunk := by
  have hcount : chunk.length = 1 ∨ chunk.length = 2 ∨ chunk.length = 3 := by omega
  rcases hcount with hlen | hlen | hlen
  · obtain ⟨x, rfl⟩ := List.length_eq_one_iff.mp hlen
    have hn := pack_eq x 0 0
    have hunpack := unpack_digits x 0 0
    have hzeros : digits (pack x 0 0) = (digits (pack x 0 0)).take 2 ++ List.replicate 2 0 := by
      simp only [digits, mask6, Nat.shiftRight_eq_div_pow, hn, List.take_succ_cons, List.take_zero,
        List.replicate, List.cons_append, List.nil_append, List.cons.injEq, and_true, true_and]
      rw [show (0 : UInt8).toNat = 0 from rfl]
      omega
    rw [hzeros, unpack_zeros] at hunpack
    exact ⟨(digits (pack x 0 0)).take 2, fun v hv => digits_lt _ v (List.mem_of_mem_take hv), rfl,
      rfl, by rw [hunpack]; rfl⟩
  · obtain ⟨x, y, rfl⟩ := List.length_eq_two.mp hlen
    have hn := pack_eq x y 0
    have hunpack := unpack_digits x y 0
    have hzeros : digits (pack x y 0) = (digits (pack x y 0)).take 3 ++ List.replicate 1 0 := by
      simp only [digits, mask6, Nat.shiftRight_eq_div_pow, hn, List.take_succ_cons, List.take_zero,
        List.replicate, List.cons_append, List.nil_append, List.cons.injEq, and_true, true_and]
      rw [show (0 : UInt8).toNat = 0 from rfl]
      omega
    rw [hzeros, unpack_zeros] at hunpack
    exact ⟨(digits (pack x y 0)).take 3, fun v hv => digits_lt _ v (List.mem_of_mem_take hv), rfl,
      rfl, by rw [hunpack]; rfl⟩
  · obtain ⟨x, y, z, rfl⟩ := List.length_eq_three.mp hlen
    exact ⟨digits (pack x y z), digits_lt _, rfl, rfl, by rw [unpack_digits]; rfl⟩

theorem asciiBytes_values (vals : List Nat) (pad : Nat) :
    asciiBytes (vals.map b64Char ++ List.replicate pad padding) =
      vals.map b64Byte ++ List.replicate pad 0x3d := by
  rw [asciiBytes, List.map_append, List.map_map, List.map_replicate]
  rfl

theorem decodeQuad_encodeChunk {chunk : Bytes} (hpos : 0 < chunk.length) (hle : chunk.length ≤ 3) :
    decodeQuad (asciiBytes (encodeChunk chunk)) = .ok chunk ∧
      (encodeChunk chunk).length = 4 ∧ Padded (encodeChunk chunk) := by
  obtain ⟨vals, hvals, hlen, hchunk, hunpack⟩ := encodeChunk_spec hpos hle
  refine ⟨?_, rfl, vals.map b64Char, 4 - vals.length, hchunk, by omega, ?_⟩
  · rw [hchunk, asciiBytes_values, decodeQuad_values hvals (by omega) (by omega), hunpack]
  · intro c hc
    obtain ⟨v, hv, rfl⟩ := List.mem_map.mp hc
    exact mem_alphabet.mpr ⟨v, hvals v hv, rfl⟩

theorem padded_not_whitespace {t : Str} (h : Padded t) : ∀ c ∈ t, isWhitespace c = false := by
  obtain ⟨body, pad, rfl, -, hbody⟩ := h
  have halphabet : ∀ v < 64, isWhitespace (b64Char v) = false := by decide +kernel
  intro c hc
  cases List.mem_append.mp hc with
  | inl hc =>
    obtain ⟨v, hv, rfl⟩ := mem_alphabet.mp (hbody c hc)
    exact halphabet v hv
  | inr hc =>
    rw [(List.mem_replicate.mp hc).2]
    decide

/-- What was encoded is decoded. -/
theorem decodeBase64_encodeBase64 (data : Bytes) : decodeBase64 (encodeBase64 data) = .ok data := by
  have hchunk : ∀ chunk ∈ chunks 3 data, decodeQuad (asciiBytes (encodeChunk chunk)) = .ok chunk ∧
      (encodeChunk chunk).length = 4 ∧ Padded (encodeChunk chunk) := by
    intro chunk hc
    obtain ⟨hpos, hle⟩ := chunk_length (by decide) chunk hc
    exact decodeQuad_encodeChunk hpos hle
  have hmem : ∀ c ∈ encodeBase64 data, ∃ quad, Padded quad ∧ c ∈ quad := by
    intro c hc
    obtain ⟨chunk, hchunkMem, hc⟩ := List.mem_flatMap.mp hc
    exact ⟨_, (hchunk chunk hchunkMem).2.2, hc⟩
  have hstrip : strip (encodeBase64 data) = encodeBase64 data := by
    apply stripped_of_none
    intro c hc
    obtain ⟨quad, hquad, hc⟩ := hmem c hc
    exact padded_not_whitespace hquad c hc
  have hascii : ∀ c ∈ encodeBase64 data, c.val < 0x80 := by
    intro c hc
    obtain ⟨quad, hquad, hc⟩ := hmem c hc
    exact padded_ascii hquad c hc
  have hparts : asciiBytes (encodeBase64 data) =
      ((chunks 3 data).map fun chunk => asciiBytes (encodeChunk chunk)).flatten := by
    rw [encodeBase64, List.flatMap_def, asciiBytes, List.map_flatten, List.map_map]
    rfl
  have hwidth : ∀ part ∈ (chunks 3 data).map (fun chunk => asciiBytes (encodeChunk chunk)),
      part.length = 4 := by
    intro part hpart
    obtain ⟨chunk, hc, rfl⟩ := List.mem_map.mp hpart
    rw [asciiBytes, List.length_map, (hchunk chunk hc).2.1]
  have hgroups : ((chunks 3 data).map fun chunk => asciiBytes (encodeChunk chunk)).mapM decodeQuad =
      .ok (chunks 3 data) := by
    rw [mapM_eq_ok, List.forall₂_map_left_iff, List.forall₂_same]
    exact fun chunk hc => (hchunk chunk hc).1
  have hmod : (asciiBytes (encodeBase64 data)).length % 4 = 0 := by
    rw [hparts, Frames.flatten_length hwidth]
    exact Nat.mul_mod_left _ _
  rw [decodeBase64, hstrip, utf8_ascii hascii, ok_bind, reject_false _ (not_not.mpr hmod), ok_bind,
    hparts, chunks_flatten (by decide) hwidth, hgroups, ok_bind, flatten_chunks (by decide)]
  rfl

/-- The decoder keeps to the grammar, unless a group before the last is padded; and it inverts the
encoder. -/
theorem decodeBase64_grammar (s : Str) :
    (((∃ out, decodeBase64 s = .ok out) ↔ InGrammar (strip s)) ↔ ¬ PaddedInside (strip s)) ∧
      ∀ data, decodeBase64 (encodeBase64 data) = .ok data := by
  refine ⟨?_, decodeBase64_encodeBase64⟩
  rw [decodeBase64_succeeds, inGrammar_iff]
  constructor
  · intro h hinside
    exact (h.mp ⟨hinside.1, hinside.2.1⟩).2 hinside
  · intro hinside
    exact iff_self_and.mpr fun _ => hinside

/-- Two padded groups in a row. -/
theorem padded_group_inside : decodeBase64 (str "Zg==Zg==") = .ok [0x66, 0x66] ∧
    ¬ InGrammar (strip (str "Zg==Zg==")) := by
  have hstrip : strip (str "Zg==Zg==") = str "Zg==Zg==" := by decide +kernel
  refine ⟨by decide +kernel, ?_⟩
  rw [hstrip]
  intro h
  obtain ⟨-, body, pad, ht, hpad, hbody⟩ := h
  have hsize : 8 = body.length + pad := by
    have hlen := congrArg List.length ht
    rwa [List.length_append, List.length_replicate] at hlen
  have hthird : (body ++ List.replicate pad padding)[2]? = some padding := by
    rw [← ht]
    rfl
  rw [List.getElem?_append_left (by omega)] at hthird
  exact padding_not_mem (hbody _ (List.mem_of_getElem? hthird))

end Yubtc.Base64
