import Yubtc.PsbtReading
import Yubtc.CanonicalForm

/-!
# Pairs and records

An input map is read pair by pair. Each pair becomes a record by itself, and the record joins
the field of its key; so what a map holds is what its pairs decode to, field by field.
-/
namespace Yubtc.RecordCodec

open LittleEndian Wire Errors ExceptRules Transaction PsbtData PsbtCodec PsbtRecords
  CanonicalForm PsbtReading

/-- The key data that a field takes. -/
def keyShape : Field → Bytes → Prop
  | .partialSigs, keydata => pubkeyKeydataLen keydata = true
  | .tapScriptSigs, keydata => keydata.length = 64
  | .tapLeafScripts, keydata => keydata.length = 33
  | .unknown, _ => True
  | _, keydata => keydata = []

/-- The keys that an input map takes. A derivation path is kept as it is, under a key. -/
structure InputKey (key : Bytes) : Prop where
  split : ∃ s, splitKey key = .ok s
  shape : keyShape (keyField key) key.tail
  derivation : key.head? = some tInBip32Derivation → pubkeyKeydataLen key.tail = true

/-- What a value of the field is read as. -/
def decodeValue : Field → Bytes → Option RecordValue
  | .nonWitnessUtxo, value => (parseTx value true).toOption.map .tx
  | .witnessUtxo, value => (parseWitnessUtxo value).toOption.map .out
  | .sighashType, value => if value.length = 4 then some (.number (unpackL value)) else none
  | .tapLeafScripts, value => if value = [] then none else some (.bytes value)
  | .tapInternalKey, value | .tapMerkleRoot, value =>
    if value.length = 32 then some (.bytes value) else none
  | _, value => some (.bytes value)

/-- The record joins the field of its key. -/
def addRecord (input : PsbtIn) (x : Record) : PsbtIn :=
  match keyField x.1, x.2 with
  | .nonWitnessUtxo, .tx t => { input with nonWitnessUtxo := some t }
  | .witnessUtxo, .out o => { input with witnessUtxo := some o }
  | .partialSigs, .bytes b => { input with partialSigs := input.partialSigs ++ [(x.1.tail, b)] }
  | .sighashType, .number n => { input with sighashType := some n }
  | .redeemScript, .bytes b => { input with redeemScript := some b }
  | .witnessScript, .bytes b => { input with witnessScript := some b }
  | .tapScriptSigs, .bytes b =>
    { input with
      tapScriptSigs := input.tapScriptSigs ++ [⟨x.1.tail.take 32, x.1.tail.drop 32, b⟩] }
  | .tapLeafScripts, .bytes b =>
    { input with tapLeafScripts := input.tapLeafScripts ++ [⟨x.1.tail, b⟩] }
  | .tapInternalKey, .bytes b => { input with tapInternalKey := some b }
  | .tapMerkleRoot, .bytes b => { input with tapMerkleRoot := some b }
  | .finalScriptsig, .bytes b => { input with finalScriptsig := some b }
  | .finalScriptwitness, .bytes b => { input with finalScriptwitness := some b }
  | .unknown, .bytes b => keepInput input x.1 b
  | _, _ => input

theorem toOption_eq_some {ε α : Type} {x : Except ε α} {a : α} :
    x.toOption = some a ↔ x = .ok a := by
  cases x <;> simp [Except.toOption]

theorem head_ne {b : UInt8} {keydata : Bytes} {p : Prop} (hb : b ≠ tInBip32Derivation)
    (h : (b :: keydata).head? = some tInBip32Derivation) : p :=
  absurd (Option.some.inj h) hb

/-- A field that checks its key data, then decodes its value. -/
theorem typed_eq_ok {input input' : PsbtIn} {key value : Bytes} {shape : Prop} [Decidable shape]
    {e : PsbtError} {read : Except PsbtError PsbtIn} (hsplit : ∃ s, splitKey key = .ok s)
    (hshape : shape ↔ keyShape (keyField key) key.tail)
    (hderivation : key.head? = some tInBip32Derivation → shape →
      pubkeyKeydataLen key.tail = true)
    (hread : read = .ok input' ↔ ∃ v, decodeValue (keyField key) value = some v ∧
      input' = addRecord input (key, v)) :
    (reject (¬ shape) e >>= fun _ => read) = .ok input' ↔
      InputKey key ∧ ∃ v, decodeValue (keyField key) value = some v ∧
        input' = addRecord input (key, v) := by
  rw [reject_bind_eq_ok, not_not, hread]
  constructor
  · rintro ⟨hs, hv⟩
    exact ⟨⟨hsplit, hshape.mp hs, fun h => hderivation h hs⟩, hv⟩
  · rintro ⟨hk, hv⟩
    exact ⟨hshape.mpr hk.shape, hv⟩

/-- A key of one type byte. -/
theorem parseInputPair_typed {input input' : PsbtIn} {b : UInt8} {keydata value : Bytes}
    (hb : b ≤ 0xfc) :
    parseInputPair input (b :: keydata, value) = .ok input' ↔ InputKey (b :: keydata) ∧
      ∃ v, decodeValue (keyField (b :: keydata)) value = some v ∧
        input' = addRecord input (b :: keydata, v) := by
  have hsplit : splitKey (b :: keydata) = .ok (b.toNat, keydata) := if_pos hb
  by_cases h00 : b = tUnsignedTx
  · subst h00
    refine typed_eq_ok ⟨_, hsplit⟩ Iff.rfl (head_ne (by decide)) ?_
    simp [bind_eq_ok, mapError_eq_ok, keyField, decodeValue, toOption_eq_some, addRecord,
      @eq_comm _ input']
  by_cases h01 : b = tInWitnessUtxo
  · subst h01
    refine typed_eq_ok ⟨_, hsplit⟩ Iff.rfl (head_ne (by decide)) ?_
    have hf : keyField (tInWitnessUtxo :: keydata) = .witnessUtxo := rfl
    simp [bind_eq_ok, hf, decodeValue, toOption_eq_some, addRecord, @eq_comm _ input']
  by_cases h02 : b = tPartialSig
  · subst h02
    refine typed_eq_ok ⟨_, hsplit⟩ Iff.rfl (head_ne (by decide)) ?_
    have hf : keyField (tPartialSig :: keydata) = .partialSigs := rfl
    simp [hf, decodeValue, addRecord, @eq_comm _ input']
  by_cases h03 : b = tSighashType
  · subst h03
    refine typed_eq_ok ⟨_, hsplit⟩ Iff.rfl (head_ne (by decide)) ?_
    have hf : keyField (tSighashType :: keydata) = .sighashType := rfl
    simp [fixedValue, reject_bind_eq_ok, hf, decodeValue, addRecord, @eq_comm _ input']
  by_cases h04 : b = tRedeemScript
  · subst h04
    refine typed_eq_ok ⟨_, hsplit⟩ Iff.rfl (head_ne (by decide)) ?_
    have hf : keyField (tRedeemScript :: keydata) = .redeemScript := rfl
    simp [hf, decodeValue, addRecord, @eq_comm _ input']
  by_cases h05 : b = tWitnessScript
  · subst h05
    refine typed_eq_ok ⟨_, hsplit⟩ Iff.rfl (head_ne (by decide)) ?_
    have hf : keyField (tWitnessScript :: keydata) = .witnessScript := rfl
    simp [hf, decodeValue, addRecord, @eq_comm _ input']
  by_cases h06 : b = tInBip32Derivation
  · subst h06
    have hf : keyField (tInBip32Derivation :: keydata) = .unknown := rfl
    have hp : parseInputPair input (tInBip32Derivation :: keydata, value) =
      (reject (¬ pubkeyKeydataLen keydata) (.invalidKeyLength tInBip32Derivation.toNat) >>=
        fun _ => .ok (keepInput input (tInBip32Derivation :: keydata) value)) := rfl
    rw [hp, reject_bind_eq_ok, not_not]
    simp only [hf, decodeValue, Option.some.injEq, exists_eq_left', addRecord, Except.ok.injEq,
      @eq_comm _ input']
    constructor
    · rintro ⟨hshape, h⟩
      exact ⟨⟨⟨_, hsplit⟩, trivial, fun _ => hshape⟩, h⟩
    · rintro ⟨hk, h⟩
      exact ⟨hk.derivation rfl, h⟩
  by_cases h07 : b = tFinalScriptsig
  · subst h07
    refine typed_eq_ok ⟨_, hsplit⟩ Iff.rfl (head_ne (by decide)) ?_
    have hf : keyField (tFinalScriptsig :: keydata) = .finalScriptsig := rfl
    simp [hf, decodeValue, addRecord, @eq_comm _ input']
  by_cases h08 : b = tFinalScriptwitness
  · subst h08
    refine typed_eq_ok ⟨_, hsplit⟩ Iff.rfl (head_ne (by decide)) ?_
    have hf : keyField (tFinalScriptwitness :: keydata) = .finalScriptwitness := rfl
    simp [hf, decodeValue, addRecord, @eq_comm _ input']
  by_cases h14 : b = tInTapScriptSig
  · subst h14
    refine typed_eq_ok ⟨_, hsplit⟩ Iff.rfl (head_ne (by decide)) ?_
    have hf : keyField (tInTapScriptSig :: keydata) = .tapScriptSigs := rfl
    simp [hf, decodeValue, addRecord, @eq_comm _ input']
  by_cases h15 : b = tInTapLeafScript
  · subst h15
    refine typed_eq_ok ⟨_, hsplit⟩ Iff.rfl (head_ne (by decide)) ?_
    have hf : keyField (tInTapLeafScript :: keydata) = .tapLeafScripts := rfl
    simp [reject_bind_eq_ok, hf, decodeValue, addRecord, @eq_comm _ input']
  by_cases h17 : b = tInTapInternalKey
  · subst h17
    refine typed_eq_ok ⟨_, hsplit⟩ Iff.rfl (head_ne (by decide)) ?_
    have hf : keyField (tInTapInternalKey :: keydata) = .tapInternalKey := rfl
    simp [fixedValue, reject_bind_eq_ok, hf, decodeValue, addRecord, @eq_comm _ input']
  by_cases h18 : b = tInTapMerkleRoot
  · subst h18
    refine typed_eq_ok ⟨_, hsplit⟩ Iff.rfl (head_ne (by decide)) ?_
    have hf : keyField (tInTapMerkleRoot :: keydata) = .tapMerkleRoot := rfl
    simp [fixedValue, reject_bind_eq_ok, hf, decodeValue, addRecord, @eq_comm _ input']
  have hf : keyField (b :: keydata) = .unknown := by
    simp only [keyField, h00, h01, h02, h03, h04, h05, h07, h08, h14, h15, h17, h18, if_false]
  have hp : parseInputPair input (b :: keydata, value) =
      .ok (keepInput input (b :: keydata) value) := by
    have hlt : ¬ b.toNat > 0xff := Nat.not_lt.mpr (Nat.le_of_lt_succ b.toNat_lt)
    simp only [parseInputPair, hsplit, ok_bind, if_neg hlt, UInt8.toNat_inj, h00, h01, h02, h03, h04,
      h05, h06, h07, h08, h14, h15, h17, h18, if_false, pure_eq_ok]
  have hadd : addRecord input (b :: keydata, .bytes value) =
      keepInput input (b :: keydata) value := by
    simp only [addRecord, hf]
  rw [hp]
  constructor
  · intro h
    cases h
    have hshape : keyShape (keyField (b :: keydata)) keydata := by
      rw [hf]
      trivial
    exact ⟨⟨⟨_, hsplit⟩, hshape, fun he => absurd (Option.some.inj he) h06⟩, .bytes value,
      by rw [hf]; rfl, hadd.symm⟩
  · rintro ⟨-, v, hv, rfl⟩
    rw [hf] at hv
    cases hv
    rw [hadd]

/-- A key with a marker of a wide type is kept. -/
theorem parseInputPair_wide {input : PsbtIn} {key keydata value : Bytes} {ty : Nat}
    (hsplit : splitKey key = .ok (ty, keydata)) (hty : 0xfc < ty) :
    parseInputPair input (key, value) = .ok (keepInput input key value) := by
  have hne : ∀ t : UInt8, t ≤ 0xfc → ty ≠ t.toNat := by
    rintro t ht rfl
    exact absurd (UInt8.le_iff_toNat_le.mp ht) (Nat.not_le.mpr hty)
  refine bind_eq_ok.mpr ⟨_, hsplit, ?_⟩
  by_cases hwide : ty > 0xff
  · exact if_pos hwide
  · refine (if_neg hwide).trans ?_
    refine (if_neg (hne tUnsignedTx (by decide))).trans ?_
    refine (if_neg (hne tInWitnessUtxo (by decide))).trans ?_
    refine (if_neg (hne tPartialSig (by decide))).trans ?_
    refine (if_neg (hne tSighashType (by decide))).trans ?_
    refine (if_neg (hne tRedeemScript (by decide))).trans ?_
    refine (if_neg (hne tWitnessScript (by decide))).trans ?_
    refine (if_neg (hne tInBip32Derivation (by decide))).trans ?_
    refine (if_neg (hne tFinalScriptsig (by decide))).trans ?_
    refine (if_neg (hne tFinalScriptwitness (by decide))).trans ?_
    refine (if_neg (hne tInTapScriptSig (by decide))).trans ?_
    refine (if_neg (hne tInTapLeafScript (by decide))).trans ?_
    refine (if_neg (hne tInTapInternalKey (by decide))).trans ?_
    refine (if_neg (hne tInTapMerkleRoot (by decide))).trans ?_
    rfl

/-- Parsing a pair is decoding it and adding its record. -/
theorem parseInputPair_iff {input input' : PsbtIn} {key value : Bytes} :
    parseInputPair input (key, value) = .ok input' ↔ InputKey key ∧
      ∃ v, decodeValue (keyField key) value = some v ∧ input' = addRecord input (key, v) := by
  cases hsplit : splitKey key with
  | error e =>
    constructor
    · intro h
      simp only [parseInputPair, hsplit, error_bind] at h
      cases h
    · rintro ⟨hk, -⟩
      obtain ⟨s, hs⟩ := hk.split
      cases hsplit.symm.trans hs
  | ok s =>
    rcases splitKey_cases hsplit with ⟨hle, hkey⟩ | ⟨hgt, hf⟩
    · rw [hkey]
      refine parseInputPair_typed (UInt8.le_iff_toNat_le.mpr ?_)
      rw [UInt8.toNat_ofNat', Nat.mod_eq_of_lt (by omega)]
      exact hle
    · rw [parseInputPair_wide hsplit hgt]
      simp only [hf, decodeValue, Option.some.injEq, exists_eq_left', addRecord, Except.ok.injEq,
        @eq_comm _ input']
      refine (and_iff_right ⟨⟨s, hsplit⟩, by rw [hf]; trivial, ?_⟩).symm
      intro hhead
      have hbyte : splitKey key = .ok (tInBip32Derivation.toNat, key.tail) := by
        cases key with
        | nil => cases hhead
        | cons b rest =>
          cases Option.some.inj hhead
          rfl
      have hty : s.1 = tInBip32Derivation.toNat := by
        cases hbyte.symm.trans hsplit
        rfl
      rw [hty] at hgt
      exact absurd hgt (by decide)

/-- The type byte of a field. Unknown pairs have any other one. -/
def fieldType : Field → UInt8
  | .nonWitnessUtxo => tUnsignedTx
  | .witnessUtxo => tInWitnessUtxo
  | .partialSigs => tPartialSig
  | .sighashType => tSighashType
  | .redeemScript => tRedeemScript
  | .witnessScript => tWitnessScript
  | .tapScriptSigs => tInTapScriptSig
  | .tapLeafScripts => tInTapLeafScript
  | .tapInternalKey => tInTapInternalKey
  | .tapMerkleRoot => tInTapMerkleRoot
  | .finalScriptsig => tFinalScriptsig
  | .finalScriptwitness => tFinalScriptwitness
  | .unknown => 0xff

theorem key_of_keyField {key : Bytes} {f : Field} (h : keyField key = f) (hf : f ≠ .unknown) :
    key = fieldType f :: key.tail := by
  cases key with
  | nil => exact absurd h.symm hf
  | cons b rest =>
    have hb : b = fieldType f := by
      unfold keyField at h
      iterate 12
        rcases ite_eq_iff.mp h with ⟨hb, rfl⟩ | ⟨-, h⟩
        · exact hb
      exact absurd h.symm hf
    rw [hb, List.tail_cons]

/-- The fields that hold one value at most. -/
def isOptional : Field → Bool
  | .partialSigs | .tapScriptSigs | .tapLeafScripts | .unknown => false
  | _ => true

/-- A record that some pair decodes to. -/
structure Decoded (x : Record) : Prop where
  key : InputKey x.1
  value : ∃ value, decodeValue (keyField x.1) value = some x.2

theorem Decoded.optional {x : Record} (h : Decoded x) (hf : isOptional (keyField x.1) = true) :
    x.1 = [fieldType (keyField x.1)] := by
  have hshape := h.key.shape
  have hne : keyField x.1 ≠ .unknown := by
    intro he
    rw [he] at hf
    cases hf
  have htail : x.1.tail = [] := by
    cases hk : keyField x.1 <;> rw [hk] at hshape hf <;> first | exact hshape | cases hf
  have hkey := key_of_keyField rfl hne
  rwa [htail] at hkey

theorem addRecord_others {x : Record} (input : PsbtIn) {g : Field} (hg : g ≠ keyField x.1) :
    fieldRecords (addRecord input x) g = fieldRecords input g := by
  unfold addRecord
  split <;> rename_i hf _ <;> first
    | rfl
    | (rw [hf] at hg; cases g <;> first | rfl | exact absurd rfl hg)

/-- The kind of value a field has. -/
def KindOf (value : Bytes) (v : RecordValue) : Field → Prop
  | .nonWitnessUtxo => ∃ t, parseTx value true = .ok t ∧ v = .tx t
  | .witnessUtxo => ∃ o, parseWitnessUtxo value = .ok o ∧ v = .out o
  | .sighashType => value.length = 4 ∧ v = .number (unpackL value)
  | _ => v = .bytes value

theorem decodeValue_kind {f : Field} {value : Bytes} {v : RecordValue}
    (h : decodeValue f value = some v) : KindOf value v f := by
  cases f with
  | nonWitnessUtxo =>
    obtain ⟨t, ht, rfl⟩ := Option.map_eq_some_iff.mp h
    exact ⟨t, toOption_eq_some.mp ht, rfl⟩
  | witnessUtxo =>
    obtain ⟨o, ho, rfl⟩ := Option.map_eq_some_iff.mp h
    exact ⟨o, toOption_eq_some.mp ho, rfl⟩
  | sighashType =>
    simp only [decodeValue] at h
    split at h
    · next hlen =>
      cases h
      exact ⟨hlen, rfl⟩
    · cases h
  | tapLeafScripts | tapInternalKey | tapMerkleRoot =>
    simp only [decodeValue] at h
    split at h <;> cases h
    rfl
  | _ =>
    cases h
    rfl

theorem addRecord_own {x : Record} (input : PsbtIn) (hx : Decoded x) :
    fieldRecords (addRecord input x) (keyField x.1) =
      (if isOptional (keyField x.1) then [] else fieldRecords input (keyField x.1)) ++ [x] := by
  obtain ⟨k, v⟩ := x
  obtain ⟨value, hvalue⟩ := hx.value
  have hkind := decodeValue_kind hvalue
  have hopt := hx.optional
  have hcons := @key_of_keyField k _ rfl
  dsimp only at hvalue hkind hopt hcons ⊢
  cases hf : keyField k <;> rw [hf] at hkind hopt hcons
  case nonWitnessUtxo =>
    obtain ⟨t, -, rfl⟩ := hkind
    simp only [addRecord, fieldRecords, hopt rfl]
    rfl
  case witnessUtxo =>
    obtain ⟨o, -, rfl⟩ := hkind
    simp only [addRecord, fieldRecords, hopt rfl]
    rfl
  case sighashType =>
    obtain ⟨-, rfl⟩ := hkind
    simp only [addRecord, fieldRecords, hopt rfl]
    rfl
  case partialSigs =>
    obtain rfl : v = .bytes value := hkind
    have hk := hcons (by decide)
    simp only [addRecord, hf, fieldRecords, isOptional, List.map_append, List.map_singleton,
      partialSigRecord, Bool.false_eq_true, if_false]
    rw [hk]
    rfl
  case tapScriptSigs =>
    obtain rfl : v = .bytes value := hkind
    have hk := hcons (by decide)
    simp only [addRecord, hf, fieldRecords, isOptional, List.map_append, List.map_singleton,
      tapScriptSigRecord, List.take_append_drop, Bool.false_eq_true, if_false]
    rw [hk]
    rfl
  case tapLeafScripts =>
    obtain rfl : v = .bytes value := hkind
    have hk := hcons (by decide)
    simp only [addRecord, hf, fieldRecords, isOptional, List.map_append, List.map_singleton,
      tapLeafScriptRecord, Bool.false_eq_true, if_false]
    rw [hk]
    rfl
  case unknown =>
    obtain rfl : v = .bytes value := hkind
    simp only [addRecord, hf, fieldRecords, isOptional, keepInput, List.map_append,
      List.map_singleton, unknownRecord, Bool.false_eq_true, if_false]
  all_goals
    obtain rfl : v = .bytes value := hkind
    simp only [addRecord, fieldRecords, hopt rfl]
    rfl

/-- The record a pair of an input map is read as. -/
structure Decodes (pair : Bytes × Bytes) (x : Record) : Prop where
  key : x.1 = pair.1
  fits : InputKey x.1
  value : decodeValue (keyField x.1) pair.2 = some x.2

theorem Decodes.decoded {pair : Bytes × Bytes} {x : Record} (h : Decodes pair x) : Decoded x :=
  ⟨h.fits, pair.2, h.value⟩

theorem foldlM_parseInputPair {pairs : List (Bytes × Bytes)} {input input' : PsbtIn} :
    pairs.foldlM parseInputPair input = .ok input' ↔
      ∃ xs, List.Forall₂ Decodes pairs xs ∧ input' = xs.foldl addRecord input := by
  induction pairs generalizing input with
  | nil =>
    constructor
    · intro h
      cases h
      exact ⟨[], .nil, rfl⟩
    · rintro ⟨xs, hxs, rfl⟩
      cases hxs
      rfl
  | cons pair pairs ih =>
    rw [List.foldlM_cons, bind_eq_ok]
    constructor
    · rintro ⟨next, hpair, hrest⟩
      obtain ⟨hkey, v, hv, rfl⟩ := parseInputPair_iff.mp hpair
      obtain ⟨xs, hxs, rfl⟩ := ih.mp hrest
      exact ⟨(pair.1, v) :: xs, .cons ⟨rfl, hkey, hv⟩ hxs, rfl⟩
    · rintro ⟨xs, hxs, rfl⟩
      cases hxs with
      | cons hx hxs =>
        rename_i x xs
        refine ⟨addRecord input x, parseInputPair_iff.mpr ?_, ih.mpr ⟨xs, hxs, rfl⟩⟩
        obtain ⟨hkey, hfits, hvalue⟩ := hx
        rw [hkey] at hfits hvalue
        exact ⟨hfits, x.2, hvalue, by rw [← hkey]⟩

/-- Reading a map is decoding its pairs and collecting the records. -/
theorem parseInputMap_eq_ok {pairs : List (Bytes × Bytes)} {input : PsbtIn} :
    parseInputMap pairs = .ok input ↔
      ∃ xs, List.Forall₂ Decodes pairs xs ∧ input = xs.foldl addRecord emptyInput :=
  foldlM_parseInputPair

theorem decodes_keys {pairs : List (Bytes × Bytes)} {xs : List Record}
    (h : List.Forall₂ Decodes pairs xs) : xs.map Prod.fst = pairs.map Prod.fst := by
  induction h with
  | nil => rfl
  | cons hx _ ih => rw [List.map_cons, List.map_cons, hx.key, ih]

theorem forall_decoded {pairs : List (Bytes × Bytes)} {xs : List Record}
    (h : List.Forall₂ Decodes pairs xs) : ∀ x ∈ xs, ∃ pair ∈ pairs, Decodes pair x := by
  induction h with
  | nil => exact fun x hx => absurd hx List.not_mem_nil
  | cons hx _ ih =>
    intro y hy
    cases List.mem_cons.mp hy with
    | inl he => exact he ▸ ⟨_, List.mem_cons_self, hx⟩
    | inr hy =>
      obtain ⟨pair, hpair, hd⟩ := ih y hy
      exact ⟨pair, List.mem_cons_of_mem _ hpair, hd⟩

theorem exists_decoded {pairs : List (Bytes × Bytes)} {xs : List Record}
    (h : List.Forall₂ Decodes pairs xs) : ∀ pair ∈ pairs, ∃ x ∈ xs, Decodes pair x := by
  induction h with
  | nil => exact fun p hp => absurd hp List.not_mem_nil
  | cons hx _ ih =>
    intro p hp
    cases List.mem_cons.mp hp with
    | inl he => exact he ▸ ⟨_, List.mem_cons_self, hx⟩
    | inr hp =>
      obtain ⟨x, hx, hd⟩ := ih p hp
      exact ⟨x, List.mem_cons_of_mem _ hx, hd⟩

/-- A field holds the records of its keys, in the order of the map. -/
theorem fieldRecords_foldl {xs : List Record} (hx : ∀ x ∈ xs, Decoded x)
    (hn : (xs.map Prod.fst).Nodup) (f : Field) :
    fieldRecords (xs.foldl addRecord emptyInput) f = xs.filter fun x => keyField x.1 = f := by
  induction xs using List.reverseRecOn with
  | nil => exact emptyInput_fieldRecords f
  | append_singleton xs x ih =>
    have hprev := ih (fun y hy => hx y (List.mem_append_left _ hy))
      (hn.sublist ((List.sublist_append_left xs [x]).map Prod.fst))
    rw [List.foldl_append, List.foldl_cons, List.foldl_nil, List.filter_append]
    have hdec : Decoded x := hx x (List.mem_append_right _ List.mem_cons_self)
    by_cases hf : f = keyField x.1
    · subst hf
      rw [addRecord_own _ hdec, hprev, List.filter_cons_of_pos (by simp), List.filter_nil]
      split
      · next hopt =>
        -- A second record of an optional field would have the same key.
        have hnone : xs.filter (fun y => keyField y.1 = keyField x.1) = [] := by
          refine List.filter_eq_nil_iff.mpr fun y hy hfield => ?_
          have hsame : keyField y.1 = keyField x.1 := of_decide_eq_true hfield
          have hykey := (hx y (List.mem_append_left _ hy)).optional (hsame ▸ hopt)
          rw [hsame, ← hdec.optional hopt] at hykey
          rw [List.map_append, List.nodup_append] at hn
          exact hn.2.2 _ (List.mem_map_of_mem hy) _ (List.mem_map_of_mem List.mem_cons_self) hykey
        rw [hnone]
      · rfl
    · rw [addRecord_others _ hf, hprev, List.filter_cons_of_neg (by simpa using Ne.symm hf),
        List.filter_nil, List.append_nil]

theorem tapScriptSigs_xOnly {xs : List Record} (hx : ∀ x ∈ xs, Decoded x) :
    ∀ s ∈ (xs.foldl addRecord emptyInput).tapScriptSigs, s.xOnly.length = 32 := by
  induction xs using List.reverseRecOn with
  | nil => exact fun s hs => absurd hs List.not_mem_nil
  | append_singleton xs x ih =>
    have hprev := ih fun y hy => hx y (List.mem_append_left _ hy)
    have hshape := (hx x (List.mem_append_right _ List.mem_cons_self)).key.shape
    rw [List.foldl_append, List.foldl_cons, List.foldl_nil]
    intro s hs
    unfold addRecord at hs
    split at hs
    case h_7 hf _ =>
      rw [hf] at hshape
      have hlen : x.1.tail.length = 64 := hshape
      cases List.mem_append.mp hs with
      | inl hold => exact hprev s hold
      | inr hnew =>
        obtain rfl := List.mem_singleton.mp hnew
        simp [hlen]
    all_goals exact hprev s hs

/-- Every input that is read has distinct keys. -/
theorem parseInputMap_wellFormed {pairs : List (Bytes × Bytes)} {input : PsbtIn}
    (hn : (pairs.map Prod.fst).Nodup) (h : parseInputMap pairs = .ok input) :
    WellFormedInput input := by
  obtain ⟨xs, hxs, rfl⟩ := parseInputMap_eq_ok.mp h
  have hdecoded : ∀ x ∈ xs, Decoded x := by
    intro x hx
    obtain ⟨pair, -, hd⟩ := forall_decoded hxs x hx
    exact hd.decoded
  have hkeys : (xs.map Prod.fst).Nodup := decodes_keys hxs ▸ hn
  have hfield := fieldRecords_foldl hdecoded hkeys
  refine ⟨?_, ?_, tapScriptSigs_xOnly hdecoded⟩
  · intro f
    rw [hfield f]
    exact hkeys.sublist (List.filter_sublist.map Prod.fst)
  · intro f x hx
    rw [hfield f] at hx
    exact of_decide_eq_true (List.mem_filter.mp hx).2

/-- Every PSBT the parser returns has distinct keys in every map. -/
theorem parsePsbt_wellFormed {data : Bytes} {psbt : Psbt} (h : parsePsbt data = .ok psbt) :
    WellFormed psbt := by
  simp only [parsePsbt, bind_eq_ok, Prod.exists, pure_eq_ok, Except.ok.injEq,
    orElseThrow_eq_ok] at h
  obtain ⟨_, -, _, -, pairs, r, hread, globals, hglobals, tx, htx, inputs, r₁, hinputs, outputs,
    r₂, houtputs, _, -, _, -, rfl⟩ := h
  obtain ⟨hilen, hin⟩ := readMaps_spec (fun _ _ hn hp => parseInputMap_wellFormed hn hp) hinputs
  obtain ⟨holen, hout⟩ := readMaps_spec (fun _ _ hn hp => parseOutputMap_nodup hn hp) houtputs
  obtain ⟨hnd, hfrom⟩ := parseGlobals_keys (readMap_nodup hread) hglobals
  refine ⟨hilen, holen, hin, hout, ?_⟩
  simp only [mapRecords, List.map_cons, List.nodup_cons]
  refine ⟨fun hmem => ?_, hnd⟩
  simp only [unknownRecords, List.map_map, List.mem_map, Function.comp] at hmem
  obtain ⟨kv, hkv, hkey⟩ := hmem
  exact (hfrom kv hkv).2 hkey

theorem optionalRecord_injective {α : Type} {ty : UInt8} {value : α → RecordValue}
    (hv : ∀ a b, value a = value b → a = b) {a b : Option α}
    (h : optionalRecord ty value a = optionalRecord ty value b) : a = b := by
  cases a with
  | none =>
    cases b with
    | none => rfl
    | some y => cases h
  | some x =>
    cases b with
    | none => cases h
    | some y =>
      have hxy := (Prod.mk.inj (List.cons.inj h).1).2
      rw [hv x y hxy]

theorem map_inj_of_mem {α γ : Type} {g : α → γ} {l l' : List α}
    (hg : ∀ a ∈ l, ∀ b ∈ l', g a = g b → a = b) (h : l.map g = l'.map g) : l = l' := by
  induction l generalizing l' with
  | nil => exact (List.map_eq_nil_iff.mp h.symm).symm
  | cons a l ih =>
    cases l' with
    | nil => cases h
    | cons b l' =>
      obtain ⟨hab, hrest⟩ := List.cons.inj h
      rw [hg a List.mem_cons_self b List.mem_cons_self hab,
        ih (fun x hx y hy => hg x (List.mem_cons_of_mem _ hx) y (List.mem_cons_of_mem _ hy)) hrest]

/-- The fields determine the map. -/
theorem input_ext {a b : PsbtIn} (h : ∀ f, fieldRecords a f = fieldRecords b f)
    (ha : ∀ s ∈ a.tapScriptSigs, s.xOnly.length = 32)
    (hb : ∀ s ∈ b.tapScriptSigs, s.xOnly.length = 32) : a = b := by
  have hbytes : ∀ x y : Bytes, RecordValue.bytes x = RecordValue.bytes y → x = y := fun _ _ he =>
    RecordValue.bytes.inj he
  have hnon := optionalRecord_injective (fun _ _ he => RecordValue.tx.inj he) (h .nonWitnessUtxo)
  have hwit := optionalRecord_injective (fun _ _ he => RecordValue.out.inj he) (h .witnessUtxo)
  have hsighash := optionalRecord_injective (fun _ _ he => RecordValue.number.inj he) (h .sighashType)
  have hredeem := optionalRecord_injective hbytes (h .redeemScript)
  have hwitness := optionalRecord_injective hbytes (h .witnessScript)
  have hinternal := optionalRecord_injective hbytes (h .tapInternalKey)
  have hroot := optionalRecord_injective hbytes (h .tapMerkleRoot)
  have hscriptsig := optionalRecord_injective hbytes (h .finalScriptsig)
  have hscriptwitness := optionalRecord_injective hbytes (h .finalScriptwitness)
  have hpartial : a.partialSigs = b.partialSigs := by
    refine map_inj_of_mem (fun x _ y _ he => ?_) (h .partialSigs)
    obtain ⟨hkey, hsig⟩ := Prod.mk.inj he
    exact Prod.ext (List.cons.inj hkey).2 (hbytes _ _ hsig)
  have htap : a.tapScriptSigs = b.tapScriptSigs := by
    refine map_inj_of_mem (fun x hx y hy he => ?_) (h .tapScriptSigs)
    obtain ⟨hkey, hsig⟩ := Prod.mk.inj he
    obtain ⟨hx32, hleaf⟩ := List.append_inj (List.cons.inj hkey).2 ((ha x hx).trans (hb y hy).symm)
    rw [TapScriptSig.mk.injEq]
    exact ⟨hx32, hleaf, hbytes _ _ hsig⟩
  have hleaves : a.tapLeafScripts = b.tapLeafScripts := by
    refine map_inj_of_mem (fun x _ y _ he => ?_) (h .tapLeafScripts)
    obtain ⟨hkey, hscript⟩ := Prod.mk.inj he
    rw [TapLeafScript.mk.injEq]
    exact ⟨(List.cons.inj hkey).2, hbytes _ _ hscript⟩
  have hunknown : a.unknown = b.unknown := by
    refine map_inj_of_mem (fun x _ y _ he => ?_) (h .unknown)
    obtain ⟨hkey, hvalue⟩ := Prod.mk.inj he
    rw [UnknownKv.mk.injEq]
    exact ⟨hkey, hbytes _ _ hvalue⟩
  cases a
  cases b
  simp_all only

/-- The record comes back from the pair it is written as. -/
structure Readable (x : Record) : Prop where
  key : InputKey x.1
  value : match keyField x.1 with
    | .nonWitnessUtxo => ∃ t, x.2 = .tx t ∧ Fits t ∧ ¬ Bare t
    | .witnessUtxo => ∃ o, x.2 = .out o
    | .sighashType => ∃ n, x.2 = .number n
    | .tapLeafScripts => ∃ b, x.2 = .bytes b ∧ b ≠ []
    | .tapInternalKey | .tapMerkleRoot => ∃ b, x.2 = .bytes b ∧ b.length = 32
    | _ => ∃ b, x.2 = .bytes b

/-- A final field without a value, which is not written. -/
def EmptyFinal (x : Record) : Prop :=
  (x.1 = [tFinalScriptsig] ∨ x.1 = [tFinalScriptwitness]) ∧ x.2 = .bytes []

theorem encodeRecord_eq_none {x : Record} : encodeRecord x = none ↔ EmptyFinal x := by
  obtain ⟨k, v⟩ := x
  cases v <;> simp [encodeRecord, EmptyFinal]

theorem encodeRecord_bytes {k b : Bytes} {pair : Bytes × Bytes}
    (h : encodeRecord (k, .bytes b) = some pair) : pair = (k, b) := by
  simp only [encodeRecord] at h
  split at h <;> cases h
  rfl

/-- What a written record decodes to. -/
theorem decodes_encodeRecord {x : Record} {pair : Bytes × Bytes} (hx : Readable x)
    (h : encodeRecord x = some pair) (hsmall : pair.2.length < 2 ^ 64) : Decodes pair x := by
  obtain ⟨k, v⟩ := x
  obtain ⟨hkey, hvalue⟩ := hx
  refine ⟨(encodeRecord_key h).symm, hkey, ?_⟩
  dsimp only at hvalue ⊢
  cases hf : keyField k <;> rw [hf] at hvalue <;> dsimp only at hvalue
  case nonWitnessUtxo =>
    obtain ⟨t, rfl, hfits, hbare⟩ := hvalue
    cases h
    simp only [decodeValue, parseTx_serializeWire (wire_inRange hfits hsmall) hbare]
    rfl
  case witnessUtxo =>
    obtain ⟨o, rfl⟩ := hvalue
    cases h
    have hlt : o.script.length < 2 ^ 64 := by
      simp only [encodeWitnessUtxo, List.length_append] at hsmall
      omega
    simp only [decodeValue, parseWitnessUtxo_encode hlt]
    rfl
  case sighashType =>
    obtain ⟨n, rfl⟩ := hvalue
    cases h
    simp only [decodeValue, packL_length, if_true, unpackL_packL]
  case tapLeafScripts =>
    obtain ⟨b, rfl, hb⟩ := hvalue
    obtain rfl := encodeRecord_bytes h
    simp only [decodeValue, if_neg hb]
  case tapInternalKey =>
    obtain ⟨b, rfl, hb⟩ := hvalue
    obtain rfl := encodeRecord_bytes h
    simp only [decodeValue, if_pos hb]
  case tapMerkleRoot =>
    obtain ⟨b, rfl, hb⟩ := hvalue
    obtain rfl := encodeRecord_bytes h
    simp only [decodeValue, if_pos hb]
  all_goals
    obtain ⟨b, rfl⟩ := hvalue
    obtain rfl := encodeRecord_bytes h
    rfl

/-- What was read can be read again, a bare previous transaction apart. -/
theorem Decodes.readable {pair : Bytes × Bytes} {x : Record} (h : Decodes pair x)
    (hbare : ∀ t, x.2 = .tx t → ¬ Bare t) : Readable x := by
  obtain ⟨k, v⟩ := x
  refine ⟨h.fits, ?_⟩
  have hvalue := h.value
  have hkind := decodeValue_kind hvalue
  dsimp only at hvalue hkind ⊢
  cases hf : keyField k <;> rw [hf] at hkind hvalue <;> dsimp only
  case nonWitnessUtxo =>
    obtain ⟨t, ht, rfl⟩ := hkind
    exact ⟨t, rfl, (parseTx_spec ht).1, hbare t rfl⟩
  case witnessUtxo =>
    obtain ⟨o, -, rfl⟩ := hkind
    exact ⟨o, rfl⟩
  case sighashType =>
    obtain ⟨-, rfl⟩ := hkind
    exact ⟨_, rfl⟩
  case tapLeafScripts =>
    simp only [decodeValue] at hvalue
    split at hvalue
    · cases hvalue
    · next hne => exact ⟨pair.2, hkind, hne⟩
  case tapInternalKey =>
    simp only [decodeValue] at hvalue
    split at hvalue
    · next hlen => exact ⟨pair.2, hkind, hlen⟩
    · cases hvalue
  case tapMerkleRoot =>
    simp only [decodeValue] at hvalue
    split at hvalue
    · next hlen => exact ⟨pair.2, hkind, hlen⟩
    · cases hvalue
  all_goals exact ⟨pair.2, hkind⟩

theorem compactSizeLen_add_mono {m n : Nat} (h : m ≤ n) :
    compactSizeLen m + m ≤ compactSizeLen n + n :=
  Nat.add_le_add (compactSizeLen_mono h) h

theorem encodePair_length (pair : Bytes × Bytes) :
    (encodePair pair).length = compactSizeLen pair.1.length + pair.1.length +
      (compactSizeLen pair.2.length + pair.2.length) := by
  simp only [encodePair, writeCompactSize_eq, List.length_append, compactSize_length]
  omega

/-- Writing what was read takes no more bytes. -/
theorem Decodes.value_length {pair pair' : Bytes × Bytes} {x : Record} (h : Decodes pair x)
    (he : encodeRecord x = some pair') : pair'.2.length ≤ pair.2.length := by
  obtain ⟨k, v⟩ := x
  have hkind := decodeValue_kind h.value
  dsimp only at hkind
  cases hf : keyField k <;> rw [hf] at hkind
  case nonWitnessUtxo =>
    obtain ⟨t, ht, rfl⟩ := hkind
    cases he
    exact (parseTx_spec ht).2.2
  case witnessUtxo =>
    obtain ⟨o, ho, rfl⟩ := hkind
    cases he
    exact parseWitnessUtxo_length ho
  case sighashType =>
    obtain ⟨hlen, rfl⟩ := hkind
    cases he
    exact hlen.ge
  all_goals
    obtain rfl : v = .bytes pair.2 := hkind
    obtain rfl := encodeRecord_bytes he
    exact le_rfl

theorem Decodes.length_le {pair pair' : Bytes × Bytes} {x : Record} (h : Decodes pair x)
    (he : encodeRecord x = some pair') : (encodePair pair').length ≤ (encodePair pair).length := by
  have hvalue := compactSizeLen_add_mono (h.value_length he)
  rw [encodePair_length, encodePair_length, encodeRecord_key he, h.key]
  omega

/-- A value in the form the writer gives it. -/
def CanonicalValue (value : Bytes) : Field → Prop
  | .nonWitnessUtxo => ∀ t, parseTx value true = .ok t → value = t.serializeWire
  | .witnessUtxo => ∀ o, parseWitnessUtxo value = .ok o → value = encodeWitnessUtxo o
  | .finalScriptsig | .finalScriptwitness => value ≠ []
  | _ => True

/-- Writing what was read in that form gives the pair back. -/
theorem Decodes.canonical {pair : Bytes × Bytes} {x : Record} (h : Decodes pair x)
    (hc : CanonicalValue pair.2 (keyField pair.1)) : encodeRecord x = some pair := by
  obtain ⟨k, v⟩ := x
  obtain ⟨key, value⟩ := pair
  obtain rfl : k = key := h.key
  have hkind := decodeValue_kind h.value
  dsimp only at hkind hc
  cases hf : keyField k <;> rw [hf] at hkind hc
  case nonWitnessUtxo =>
    obtain ⟨t, ht, rfl⟩ := hkind
    rw [hc t ht]
    rfl
  case witnessUtxo =>
    obtain ⟨o, ho, rfl⟩ := hkind
    rw [hc o ho]
    rfl
  case sighashType =>
    obtain ⟨hlen, rfl⟩ := hkind
    simp only [encodeRecord, packL_unpackL hlen]
  all_goals
    obtain rfl : v = .bytes value := hkind
    refine if_neg fun hfinal => ?_
    obtain ⟨hk | hk, hnil⟩ := hfinal
    · first
        | exact hc hnil
        | (dsimp only at hk; rw [hk] at hf; cases hf)
    · first
        | exact hc hnil
        | (dsimp only at hk; rw [hk] at hf; cases hf)

/-- A bare previous transaction is not what its own bytes decode to. -/
theorem not_decodes_bare {key : Bytes} {t : PsbtTransaction} {x : Record} (hbare : Bare t)
    (hkey : keyField key = .nonWitnessUtxo) (h : Decodes (key, t.serializeWire) x) :
    x.2 ≠ .tx t := by
  intro hx
  have hkind := decodeValue_kind h.value
  rw [h.key, hkey] at hkind
  obtain ⟨t', ht', heq⟩ := hkind
  cases heq.symm.trans hx
  exact parseTx_bare hbare ht'

end Yubtc.RecordCodec
