import Yubtc.PsbtRoles

/-!
# Records

A PSBT map is a finite map from key bytes to decoded values. This module reads every map of a
PSBT as such a list of records and shows that the parser only returns maps with distinct keys.
-/
namespace Yubtc.PsbtRecords

open LittleEndian Wire Errors ExceptRules Transaction PsbtData PsbtCodec

/-- A decoded value. -/
inductive RecordValue where
  | tx (value : PsbtTransaction)
  | out (value : PsbtTxOut)
  | number (value : UInt32)
  | bytes (value : Bytes)
  deriving DecidableEq, Repr

/-- Full key bytes and decoded value. -/
abbrev Record := Bytes × RecordValue

/-- The fields of an input map, in the order the serializer visits them. -/
inductive Field where
  | nonWitnessUtxo
  | witnessUtxo
  | partialSigs
  | sighashType
  | redeemScript
  | witnessScript
  | tapScriptSigs
  | tapLeafScripts
  | tapInternalKey
  | tapMerkleRoot
  | finalScriptsig
  | finalScriptwitness
  | unknown
  deriving DecidableEq, Repr

def Field.all : List Field :=
  [.nonWitnessUtxo, .witnessUtxo, .partialSigs, .sighashType, .redeemScript, .witnessScript,
   .tapScriptSigs, .tapLeafScripts, .tapInternalKey, .tapMerkleRoot, .finalScriptsig,
   .finalScriptwitness, .unknown]

theorem Field.mem_all (f : Field) : f ∈ Field.all := by cases f <;> decide

theorem Field.all_nodup : Field.all.Nodup := by decide

/-- The field a key belongs to, by its type byte. -/
def keyField : Bytes → Field
  | [] => .unknown
  | ty :: _ =>
    if ty = tUnsignedTx then .nonWitnessUtxo
    else if ty = tInWitnessUtxo then .witnessUtxo
    else if ty = tPartialSig then .partialSigs
    else if ty = tSighashType then .sighashType
    else if ty = tRedeemScript then .redeemScript
    else if ty = tWitnessScript then .witnessScript
    else if ty = tInTapScriptSig then .tapScriptSigs
    else if ty = tInTapLeafScript then .tapLeafScripts
    else if ty = tInTapInternalKey then .tapInternalKey
    else if ty = tInTapMerkleRoot then .tapMerkleRoot
    else if ty = tFinalScriptsig then .finalScriptsig
    else if ty = tFinalScriptwitness then .finalScriptwitness
    else .unknown

/-- The record of an optional field, if it is there. -/
def optionalRecord {α : Type} (ty : UInt8) (value : α → RecordValue) (field : Option α) :
    List Record :=
  (field.map fun v => ([ty], value v)).toList

def partialSigRecord (p : Bytes × Bytes) : Record := (tPartialSig :: p.1, .bytes p.2)
def tapScriptSigRecord (s : TapScriptSig) : Record :=
  (tInTapScriptSig :: (s.xOnly ++ s.leafHash), .bytes s.sig)
def tapLeafScriptRecord (leaf : TapLeafScript) : Record :=
  (tInTapLeafScript :: leaf.controlBlock, .bytes leaf.scriptWithVersion)
def unknownRecord (kv : UnknownKv) : Record := (kv.key, .bytes kv.value)

def fieldRecords (input : PsbtIn) : Field → List Record
  | .nonWitnessUtxo => optionalRecord tUnsignedTx .tx input.nonWitnessUtxo
  | .witnessUtxo => optionalRecord tInWitnessUtxo .out input.witnessUtxo
  | .partialSigs => input.partialSigs.map partialSigRecord
  | .sighashType => optionalRecord tSighashType .number input.sighashType
  | .redeemScript => optionalRecord tRedeemScript .bytes input.redeemScript
  | .witnessScript => optionalRecord tWitnessScript .bytes input.witnessScript
  | .tapScriptSigs => input.tapScriptSigs.map tapScriptSigRecord
  | .tapLeafScripts => input.tapLeafScripts.map tapLeafScriptRecord
  | .tapInternalKey => optionalRecord tInTapInternalKey .bytes input.tapInternalKey
  | .tapMerkleRoot => optionalRecord tInTapMerkleRoot .bytes input.tapMerkleRoot
  | .finalScriptsig => optionalRecord tFinalScriptsig .bytes input.finalScriptsig
  | .finalScriptwitness => optionalRecord tFinalScriptwitness .bytes input.finalScriptwitness
  | .unknown => input.unknown.map unknownRecord

def inputRecords (input : PsbtIn) : List Record := Field.all.flatMap (fieldRecords input)

def unknownRecords (unknown : List UnknownKv) : List Record := unknown.map unknownRecord

/-- The maps of a PSBT. -/
inductive MapId where
  | globals
  | input (index : Nat)
  | output (index : Nat)
  deriving DecidableEq, Repr

/-- The records of one map; a map the PSBT does not have is empty. -/
def mapRecords (psbt : Psbt) : MapId → List Record
  | .globals => ([tUnsignedTx], .tx psbt.unsignedTx) :: unknownRecords psbt.unknownGlobal
  | .input i => (psbt.inputs[i]?.map inputRecords).getD []
  | .output i => (psbt.outputs[i]?.map fun out => unknownRecords out.unknown).getD []

/-- All records, under the map and the key they stand at. -/
def records (psbt : Psbt) : Set ((MapId × Bytes) × RecordValue) :=
  {x | (x.1.2, x.2) ∈ mapRecords psbt x.1.1}

/-- Keys are distinct, each stands in the field of its type, and a Taproot signature's key
splits in one way. -/
structure WellFormedInput (input : PsbtIn) : Prop where
  nodup : ∀ f, ((fieldRecords input f).map Prod.fst).Nodup
  classified : ∀ f, ∀ x ∈ fieldRecords input f, keyField x.1 = f
  xOnly : ∀ s ∈ input.tapScriptSigs, s.xOnly.length = 32

structure WellFormed (psbt : Psbt) : Prop where
  inputs_length : psbt.inputs.length = psbt.unsignedTx.vin.length
  outputs_length : psbt.outputs.length = psbt.unsignedTx.vout.length
  inputs : ∀ input ∈ psbt.inputs, WellFormedInput input
  outputs : ∀ out ∈ psbt.outputs, ((unknownRecords out.unknown).map Prod.fst).Nodup
  globals : ((mapRecords psbt .globals).map Prod.fst).Nodup

theorem optionalRecord_nodup {α : Type} (ty : UInt8) (value : α → RecordValue)
    (field : Option α) : ((optionalRecord ty value field).map Prod.fst).Nodup := by
  cases field <;> simp [optionalRecord]

theorem mem_optionalRecord {α : Type} {ty : UInt8} {value : α → RecordValue} {field : Option α}
    {x : Record} : x ∈ optionalRecord ty value field ↔ ∃ v, field = some v ∧ ([ty], value v) = x := by
  cases field <;> simp [optionalRecord, eq_comm]

/-- The fields of one input share no key, so its keys are distinct as a whole. -/
theorem WellFormedInput.records_nodup {input : PsbtIn} (h : WellFormedInput input) :
    ((inputRecords input).map Prod.fst).Nodup := by
  rw [inputRecords, List.map_flatMap, List.nodup_flatMap]
  refine ⟨fun f _ => h.nodup f, Field.all_nodup.imp fun {f g} hne => ?_⟩
  intro k hk hk'
  obtain ⟨x, hx, rfl⟩ := List.mem_map.mp hk
  obtain ⟨y, hy, hxy⟩ := List.mem_map.mp hk'
  exact hne ((h.classified f x hx).symm.trans (hxy ▸ h.classified g y hy))

theorem mem_inputRecords {input : PsbtIn} {x : Record} :
    x ∈ inputRecords input ↔ ∃ f, x ∈ fieldRecords input f := by
  simp only [inputRecords, List.mem_flatMap]
  exact ⟨fun ⟨f, _, h⟩ => ⟨f, h⟩, fun ⟨f, h⟩ => ⟨f, Field.mem_all f, h⟩⟩

theorem WellFormed.mapRecords_nodup {psbt : Psbt} (h : WellFormed psbt) (m : MapId) :
    ((mapRecords psbt m).map Prod.fst).Nodup := by
  cases m with
  | globals => exact h.globals
  | input i =>
    simp only [mapRecords]
    cases hi : psbt.inputs[i]? with
    | none => simp
    | some input => exact (h.inputs input (List.mem_of_getElem? hi)).records_nodup
  | output i =>
    simp only [mapRecords]
    cases hi : psbt.outputs[i]? with
    | none => simp
    | some out => exact h.outputs out (List.mem_of_getElem? hi)

/-- In a well-formed PSBT no key of a map has two values. -/
theorem WellFormed.functional {psbt : Psbt} (h : WellFormed psbt) :
    KeyedList.Functional (records psbt) := by
  rintro ⟨m, k⟩ v w hv hw
  exact KeyedList.functional_of_nodup (h.mapRecords_nodup m) k v w hv hw

theorem readMapFrom_nodup {fuel : Nat} {out pairs : List (Bytes × Bytes)} {r r' : Bytes}
    (hn : (out.map Prod.fst).Nodup) (h : readMapFrom fuel out r = .ok (pairs, r')) :
    (pairs.map Prod.fst).Nodup := by
  induction fuel generalizing out r with
  | zero => simp [readMapFrom] at h
  | succ fuel ih =>
    simp only [readMapFrom, bind_eq_ok, Prod.exists] at h
    obtain ⟨keylen, r₁, -, h⟩ := h
    split at h
    · cases h
      exact hn
    · simp only [bind_eq_ok, Prod.exists, reject_eq_ok, exists_const] at h
      obtain ⟨key, r₂, -, hkey, value, r₃, -, h⟩ := h
      refine ih ?_ h
      rw [List.map_append, List.nodup_append]
      refine ⟨hn, by simp, ?_⟩
      rintro k hk _ hk' rfl
      simp only [List.map_cons, List.map_nil, List.mem_singleton] at hk'
      exact hkey (hk' ▸ hk)

theorem readMap_nodup {pairs : List (Bytes × Bytes)} {r r' : Bytes}
    (h : readMap r = .ok (pairs, r')) : (pairs.map Prod.fst).Nodup :=
  readMapFrom_nodup (by simp) h

theorem splitWide_min {width minimum ty : Nat} {rest keydata : Bytes}
    (h : splitWide width minimum rest = .ok (ty, keydata)) : minimum ≤ ty := by
  simp only [splitWide, bind_eq_ok, reject_eq_ok, exists_const, pure_eq_ok, Except.ok.injEq,
    Prod.mk.injEq, Nat.not_lt] at h
  obtain ⟨-, hmin, rfl, -⟩ := h
  exact hmin

/-- A key is a one-byte type and its data, or starts with a marker that no typed field has. -/
theorem splitKey_cases {key keydata : Bytes} {ty : Nat} (h : splitKey key = .ok (ty, keydata)) :
    (ty ≤ 0xfc ∧ key = UInt8.ofNat ty :: keydata) ∨ (0xfc < ty ∧ keyField key = .unknown) := by
  cases key with
  | nil => simp [splitKey] at h
  | cons b rest =>
    simp only [splitKey] at h
    split at h
    · next hb =>
      simp only [Except.ok.injEq, Prod.mk.injEq] at h
      obtain ⟨rfl, rfl⟩ := h
      exact .inl ⟨UInt8.le_iff_toNat_le.mp hb, by rw [UInt8.ofNat_toNat]⟩
    · next hb =>
      have hwide : 0xfc < ty := by
        split at h
        · exact splitWide_min h
        · split at h
          · exact lt_of_lt_of_le (by decide) (splitWide_min h)
          · exact lt_of_lt_of_le (by decide) (splitWide_min h)
      refine .inr ⟨hwide, ?_⟩
      have hlt : ∀ t : UInt8, t ≤ 0xfc → b ≠ t := fun t ht he => hb (he ▸ ht)
      simp only [keyField]
      rw [if_neg (hlt _ (by decide)), if_neg (hlt _ (by decide)), if_neg (hlt _ (by decide)),
        if_neg (hlt _ (by decide)), if_neg (hlt _ (by decide)), if_neg (hlt _ (by decide)),
        if_neg (hlt _ (by decide)), if_neg (hlt _ (by decide)), if_neg (hlt _ (by decide)),
        if_neg (hlt _ (by decide)), if_neg (hlt _ (by decide)), if_neg (hlt _ (by decide))]

theorem key_of_type {key keydata : Bytes} {t : UInt8}
    (h : splitKey key = .ok (t.toNat, keydata)) (ht : t ≤ 0xfc) : key = t :: keydata := by
  rcases splitKey_cases h with ⟨-, rfl⟩ | ⟨hgt, -⟩
  · rw [UInt8.ofNat_toNat]
  · have := UInt8.le_iff_toNat_le.mp ht
    change t.toNat ≤ 0xfc at this
    omega

/-- A field without key data stands at its type byte alone. -/
theorem key_of_noKeydata {key keydata : Bytes} {t : UInt8} {u : Unit}
    (h : splitKey key = .ok (t.toNat, keydata)) (ht : t ≤ 0xfc)
    (hk : noKeydata t keydata = .ok u) : key = [t] := by
  have hnil : keydata = [] := by simpa [noKeydata, reject_eq_ok] using hk
  rw [key_of_type h ht, hnil]

/-- The key of the next pair is new, in a list of pairs with distinct keys. -/
theorem next_key_new {pairs done rest : List (Bytes × Bytes)} {pair : Bytes × Bytes}
    (hn : (pairs.map Prod.fst).Nodup) (hl : done ++ pair :: rest = pairs) :
    pair.1 ∉ done.map Prod.fst := by
  intro hmem
  rw [← hl, List.map_append, List.map_cons, List.nodup_append] at hn
  exact hn.2.2 _ hmem _ List.mem_cons_self rfl

theorem emptyInput_fieldRecords (f : Field) : fieldRecords emptyInput f = [] := by
  cases f <;> rfl

theorem parseOutputMap_nodup {pairs : List (Bytes × Bytes)} {out : PsbtOut}
    (hn : (pairs.map Prod.fst).Nodup) (h : parseOutputMap pairs = .ok out) :
    ((unknownRecords out.unknown).map Prod.fst).Nodup := by
  have hkeys : (unknownRecords out.unknown).map Prod.fst = pairs.map Prod.fst := by
    refine foldlM_induct
      (motive := fun done out => (unknownRecords out.unknown).map Prod.fst = done.map Prod.fst)
      rfl ?_ h
    intro done pair rest out out' _ hinv hstep
    have hout : out' = ⟨out.unknown ++ [⟨pair.1, pair.2⟩]⟩ := by
      obtain ⟨⟨ty, keydata⟩, -, hstep⟩ := bind_eq_ok.mp hstep
      dsimp only at hstep
      split at hstep
      · obtain ⟨_, -, hstep⟩ := bind_eq_ok.mp hstep
        cases hstep
        rfl
      · split at hstep
        · obtain ⟨_, -, hstep⟩ := bind_eq_ok.mp hstep
          cases hstep
          rfl
        · cases hstep
          rfl
    simp only [hout, unknownRecords, List.map_append, List.map_singleton] at hinv ⊢
    rw [hinv]
    rfl
  rw [hkeys]
  exact hn

/-- What holds of the globals while their pairs are read. -/
def GlobalKeysFrom (keys : List Bytes) (globals : GlobalMap) : Prop :=
  ((unknownRecords globals.unknownGlobal).map Prod.fst).Nodup ∧
    ∀ kv ∈ globals.unknownGlobal, kv.key ∈ keys ∧ kv.key ≠ [tUnsignedTx]

theorem parseGlobalPair_unknown {globals globals' : GlobalMap} {key value : Bytes}
    (h : parseGlobalPair globals (key, value) = .ok globals') :
    globals'.unknownGlobal = globals.unknownGlobal ∨
      (globals'.unknownGlobal = globals.unknownGlobal ++ [⟨key, value⟩] ∧
        key ≠ [tUnsignedTx]) := by
  obtain ⟨⟨ty, keydata⟩, hsplit, h⟩ := bind_eq_ok.mp h
  have hkey : ty ≠ tUnsignedTx.toNat → key ≠ [tUnsignedTx] := by
    rintro hne rfl
    cases hsplit
    exact hne rfl
  rcases ite_eq_ok.mp h with ⟨hty, h⟩ | ⟨-, h⟩
  · cases h
    refine .inr ⟨rfl, hkey ?_⟩
    rintro rfl
    exact absurd hty (by decide)
  rcases ite_eq_ok.mp h with ⟨-, h⟩ | ⟨h00, h⟩
  · obtain ⟨_, -, h⟩ := bind_eq_ok.mp h
    obtain ⟨_, -, h⟩ := bind_eq_ok.mp h
    obtain ⟨_, -, h⟩ := bind_eq_ok.mp h
    cases h
    exact .inl rfl
  rcases ite_eq_ok.mp h with ⟨-, h⟩ | ⟨-, h⟩
  · obtain ⟨_, -, h⟩ := bind_eq_ok.mp h
    obtain ⟨_, -, h⟩ := bind_eq_ok.mp h
    obtain ⟨_, -, h⟩ := bind_eq_ok.mp h
    cases h
    exact .inl rfl
  rcases ite_eq_ok.mp h with ⟨-, h⟩ | ⟨-, h⟩
  · obtain ⟨_, -, h⟩ := bind_eq_ok.mp h
    cases h
    exact .inr ⟨rfl, hkey h00⟩
  · cases h
    exact .inr ⟨rfl, hkey h00⟩

theorem parseGlobals_keys {pairs : List (Bytes × Bytes)} {globals : GlobalMap}
    (hn : (pairs.map Prod.fst).Nodup)
    (h : pairs.foldlM parseGlobalPair ⟨0, none, []⟩ = .ok globals) :
    GlobalKeysFrom (pairs.map Prod.fst) globals := by
  refine foldlM_induct (motive := fun done globals => GlobalKeysFrom (done.map Prod.fst) globals)
    ⟨by simp [unknownRecords], fun kv hkv => absurd hkv List.not_mem_nil⟩ ?_ h
  intro done pair rest globals globals' hl ⟨hnd, hfrom⟩ hstep
  have hnew := next_key_new hn hl
  rcases parseGlobalPair_unknown hstep with heq | ⟨heq, hkey⟩
  · rw [GlobalKeysFrom, heq]
    refine ⟨hnd, fun kv hkv => ⟨?_, (hfrom kv hkv).2⟩⟩
    rw [List.map_append]
    exact List.mem_append_left _ (hfrom kv hkv).1
  · rw [GlobalKeysFrom, heq]
    refine ⟨?_, fun kv hkv => ?_⟩
    · rw [unknownRecords, List.map_append, List.map_append, List.nodup_append]
      refine ⟨hnd, by simp, ?_⟩
      rintro k hk _ hk' rfl
      simp only [List.map_map, List.mem_map, Function.comp] at hk
      obtain ⟨kv, hkv, rfl⟩ := hk
      simp only [List.map_cons, List.map_nil, List.mem_singleton, unknownRecord] at hk'
      exact hnew (hk' ▸ (hfrom kv hkv).1)
    · rw [List.map_append]
      rcases List.mem_append.mp hkv with hkv | hkv
      · exact ⟨List.mem_append_left _ (hfrom kv hkv).1, (hfrom kv hkv).2⟩
      · obtain rfl := List.mem_singleton.mp hkv
        exact ⟨List.mem_append_right _ List.mem_cons_self, hkey⟩

/-- Every map read has the property its interpretation guarantees, and none is missing. -/
theorem readMaps_spec {α : Type} {parse : List (Bytes × Bytes) → Except PsbtError α}
    {good : α → Prop}
    (hparse : ∀ pairs a, (pairs.map Prod.fst).Nodup → parse pairs = .ok a → good a)
    {n : Nat} {r r' : Bytes} {maps : List α} (h : readMaps parse n r = .ok (maps, r')) :
    maps.length = n ∧ ∀ a ∈ maps, good a := by
  induction n generalizing r maps with
  | zero =>
    cases h
    exact ⟨rfl, fun a ha => absurd ha List.not_mem_nil⟩
  | succ n ih =>
    simp only [readMaps, bind_eq_ok, Prod.exists, pure_eq_ok, Except.ok.injEq, Prod.mk.injEq] at h
    obtain ⟨_, -, pairs, r₁, hread, a, ha, rest, r₂, hrest, rfl, rfl⟩ := h
    obtain ⟨hlen, hgood⟩ := ih hrest
    refine ⟨by simp [hlen], fun b hb => ?_⟩
    rcases List.mem_cons.mp hb with rfl | hb
    · exact hparse pairs _ (readMap_nodup hread) ha
    · exact hgood b hb

end Yubtc.PsbtRecords
