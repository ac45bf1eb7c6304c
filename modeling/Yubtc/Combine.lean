import Yubtc.RecordCodec

/-!
# The Combiner is a join

Each merge route of the Combiner is the union of two record lists, defined exactly where the
lists agree. The routes add up to one statement about the records of a whole PSBT, and the
serializer depends on nothing but those records; commutativity, associativity and idempotence
are then facts about unions.
-/
namespace Yubtc.Combine

open LittleEndian Wire Errors ExceptRules Transaction PsbtData PsbtCodec PsbtRoles PsbtRecords
  CanonicalForm RecordCodec
open KeyedList (Agree Functional toRel mem_toRel)

/-- A merge of records: defined exactly where the arguments agree, refused with the conflict
error elsewhere, and with the records of both as its result. -/
structure MergeSpec {γ : Type} (A B : List Record) (x : Except PsbtError γ)
    (recs : γ → List Record) : Prop where
  ok_iff : (∃ r, x = .ok r) ↔ Agree (toRel A) (toRel B)
  conflict : ∀ e, x = .error e → e = .conflictingField
  mem : ∀ r, x = .ok r → ∀ y, y ∈ recs r ↔ y ∈ A ∨ y ∈ B
  nodup : ∀ r, x = .ok r → ((recs r).map Prod.fst).Nodup

/-- A merge that succeeds. -/
theorem MergeSpec.of_ok {γ : Type} {A B : List Record} {x : Except PsbtError γ}
    {recs : γ → List Record} {r : γ} (hx : x = .ok r) (hagree : Agree (toRel A) (toRel B))
    (hmem : ∀ y, y ∈ recs r ↔ y ∈ A ∨ y ∈ B) (hnodup : ((recs r).map Prod.fst).Nodup) :
    MergeSpec A B x recs := by
  subst hx
  refine ⟨⟨fun _ => hagree, fun _ => ⟨r, rfl⟩⟩, fun e h => (nomatch h), fun r' h => ?_,
    fun r' h => ?_⟩
  · cases h
    exact hmem
  · cases h
    exact hnodup

/-- A merge that is refused. -/
theorem MergeSpec.of_conflict {γ : Type} {A B : List Record} {x : Except PsbtError γ}
    {recs : γ → List Record} (hx : x = .error .conflictingField)
    (hagree : ¬ Agree (toRel A) (toRel B)) : MergeSpec A B x recs := by
  subst hx
  refine ⟨⟨fun ⟨_, h⟩ => (nomatch h), fun h => absurd h hagree⟩, fun e h => ?_,
    fun r h => (nomatch h), fun r h => (nomatch h)⟩
  cases h
  rfl

theorem MergeSpec.union {γ : Type} {A B : List Record} {x : Except PsbtError γ}
    {recs : γ → List Record} {r : γ} (h : MergeSpec A B x recs) (hx : x = .ok r) :
    Agree (toRel A) (toRel B) ∧ (∀ y, y ∈ recs r ↔ y ∈ A ∨ y ∈ B) ∧
      ((recs r).map Prod.fst).Nodup :=
  ⟨h.ok_iff.mp ⟨r, hx⟩, h.mem r hx, h.nodup r hx⟩

theorem mergeField_spec {α : Type} [DecidableEq α] (ty : UInt8) {value : α → RecordValue}
    (hv : Function.Injective value) (a b : Option α) :
    MergeSpec (optionalRecord ty value a) (optionalRecord ty value b) (mergeField a b)
      (optionalRecord ty value) := by
  match a, b with
  | none, b =>
    refine .of_ok (r := b) rfl (fun k v w h => ?_) (fun y => ?_) (optionalRecord_nodup ty value b)
    · simp [optionalRecord] at h
    · simp [optionalRecord]
  | some a, none =>
    refine .of_ok (r := some a) rfl (fun k v w _ h => ?_) (fun y => ?_)
      (optionalRecord_nodup ty value _)
    · simp [optionalRecord] at h
    · simp [optionalRecord]
  | some a, some b =>
    by_cases hab : a = b
    · subst hab
      refine .of_ok (r := some a) (if_pos rfl) ?_ (fun y => (or_self_iff).symm)
        (optionalRecord_nodup ty value _)
      exact KeyedList.functional_of_nodup (optionalRecord_nodup ty value (some a))
    · refine .of_conflict (if_neg hab) fun h => hab (hv ?_)
      exact h [ty] _ _ (List.mem_singleton_self _) (List.mem_singleton_self _)

section Lists

variable {α : Type} {rec : α → Record} {keyOf : α → Bytes} {differ : α → α → Bool}

theorem nodup_keys_iff (hkey : ∀ x y, (rec x).1 = (rec y).1 ↔ keyOf x = keyOf y) (l : List α) :
    ((l.map rec).map Prod.fst).Nodup ↔ (l.map keyOf).Nodup := by
  simp only [List.Nodup, List.map_map, List.pairwise_map, Function.comp, ne_eq, hkey]

/-- Records agree exactly when the items do. -/
theorem agree_iff_consistent (hkey : ∀ x y, (rec x).1 = (rec y).1 ↔ keyOf x = keyOf y)
    {a b : List α} (hinj : ∀ x ∈ a, ∀ y ∈ b, rec x = rec y → x = y) :
    Agree (toRel (a.map rec)) (toRel (b.map rec)) ↔ KeyedList.Consistent keyOf a b := by
  constructor
  · intro h x hx y hy hxy
    have hk := (hkey x y).mpr hxy
    refine hinj x hx y hy (Prod.ext hk ?_)
    exact h (rec x).1 _ _ (List.mem_map.mpr ⟨x, hx, rfl⟩)
      (List.mem_map.mpr ⟨y, hy, Prod.ext hk.symm rfl⟩)
  · intro h k v w hv hw
    obtain ⟨x, hx, hxv⟩ := List.mem_map.mp hv
    obtain ⟨y, hy, hyw⟩ := List.mem_map.mp hw
    have hxy := h x hx y hy ((hkey x y).mp (by rw [hxv, hyw]))
    subst hxy
    exact (Prod.mk.inj (hxv.symm.trans hyw)).2

/-- The list merges, for items that are records under their keys. -/
theorem mergeBy_spec (hkey : ∀ x y, (rec x).1 = (rec y).1 ↔ keyOf x = keyOf y)
    (hdiffer : ∀ x y, keyOf x = keyOf y → (differ x y = false ↔ x = y)) {a b : List α}
    (hinj : ∀ x ∈ a, ∀ y ∈ b, rec x = rec y → x = y)
    (ha : ((a.map rec).map Prod.fst).Nodup) (hb : ((b.map rec).map Prod.fst).Nodup) :
    MergeSpec (a.map rec) (b.map rec)
      (KeyedList.mergeBy keyOf differ PsbtError.conflictingField a b) (fun l => l.map rec) := by
  rw [nodup_keys_iff hkey] at ha hb
  by_cases hc : KeyedList.Consistent keyOf a b
  · refine .of_ok (KeyedList.mergeBy_ok ha hb (fun x => (hdiffer x x rfl).mpr rfl) hc)
      ((agree_iff_consistent hkey hinj).mpr hc) (fun y => ?_)
      ((nodup_keys_iff hkey _).mpr (KeyedList.nodup_merged ha hb))
    simp only [List.mem_map, KeyedList.mem_merged hc, or_and_right, exists_or]
  · refine .of_conflict (KeyedList.mergeBy_conflict ha hb
      (fun x _ y _ hxy => (hdiffer x y hxy).mp) hc) fun h => hc ?_
    exact (agree_iff_consistent hkey hinj).mp h

/-- Sorting the result of a merge changes none of this. -/
theorem MergeSpec.sorted {A B : List Record} {x : Except PsbtError (List α)}
    {le : α → α → Prop} [DecidableRel le] (h : MergeSpec A B x (fun l => l.map rec)) :
    MergeSpec A B (x >>= fun out => pure (out.insertionSort le)) (fun l => l.map rec) := by
  cases x with
  | error e =>
    obtain rfl := h.conflict e rfl
    refine .of_conflict rfl fun hc => ?_
    obtain ⟨r, hr⟩ := h.ok_iff.mpr hc
    cases hr
  | ok l =>
    have hp : ((l.insertionSort le).map rec).Perm (l.map rec) :=
      (List.perm_insertionSort le l).map rec
    exact .of_ok rfl (h.ok_iff.mp ⟨l, rfl⟩) (fun y => hp.mem_iff.trans (h.mem l rfl y))
      ((hp.map Prod.fst).nodup_iff.mpr (h.nodup l rfl))

end Lists

theorem mergeUnknown_spec {a b : List UnknownKv}
    (ha : ((unknownRecords a).map Prod.fst).Nodup) (hb : ((unknownRecords b).map Prod.fst).Nodup) :
    MergeSpec (unknownRecords a) (unknownRecords b) (mergeUnknown a b) unknownRecords := by
  refine mergeBy_spec (fun x y => Iff.rfl) (fun x y hxy => ?_) (fun x _ y _ hxy => ?_) ha hb
  · obtain ⟨k, v⟩ := x
    obtain ⟨k', v'⟩ := y
    obtain rfl : k = k' := hxy
    simp
  · obtain ⟨k, v⟩ := x
    obtain ⟨k', v'⟩ := y
    simpa [unknownRecord] using hxy

theorem mergePartialSigs_spec {a b : List (Bytes × Bytes)}
    (ha : ((a.map partialSigRecord).map Prod.fst).Nodup)
    (hb : ((b.map partialSigRecord).map Prod.fst).Nodup) :
    MergeSpec (a.map partialSigRecord) (b.map partialSigRecord) (mergePartialSigs a b)
      (fun l => l.map partialSigRecord) := by
  refine MergeSpec.sorted (mergeBy_spec (fun x y => ?_) (fun x y hxy => ?_)
    (fun x _ y _ hxy => ?_) ha hb)
  · simp [partialSigRecord]
  · simp [Prod.ext_iff, hxy]
  · simpa [partialSigRecord, Prod.ext_iff] using hxy

theorem mergeTapScriptSigs_spec {a b : List TapScriptSig}
    (hxa : ∀ s ∈ a, s.xOnly.length = 32) (hxb : ∀ s ∈ b, s.xOnly.length = 32)
    (ha : ((a.map tapScriptSigRecord).map Prod.fst).Nodup)
    (hb : ((b.map tapScriptSigRecord).map Prod.fst).Nodup) :
    MergeSpec (a.map tapScriptSigRecord) (b.map tapScriptSigRecord)
      (mergeTypedList (fun s => s.xOnly ++ s.leafHash) TapScriptSig.le a b)
      (fun l => l.map tapScriptSigRecord) := by
  refine MergeSpec.sorted (mergeBy_spec (fun x y => ?_) (fun x y hxy => ?_)
    (fun x hx y hy hxy => ?_) ha hb)
  · simp [tapScriptSigRecord]
  · simp
  · obtain ⟨k, l, v⟩ := x
    obtain ⟨k', l', v'⟩ := y
    simp only [tapScriptSigRecord, Prod.mk.injEq, List.cons.injEq, true_and,
      RecordValue.bytes.injEq] at hxy
    obtain ⟨rfl, rfl⟩ := List.append_inj hxy.1 ((hxa _ hx).trans (hxb _ hy).symm)
    rw [hxy.2]

theorem mergeTapLeafScripts_spec {a b : List TapLeafScript}
    (ha : ((a.map tapLeafScriptRecord).map Prod.fst).Nodup)
    (hb : ((b.map tapLeafScriptRecord).map Prod.fst).Nodup) :
    MergeSpec (a.map tapLeafScriptRecord) (b.map tapLeafScriptRecord)
      (mergeTypedList TapLeafScript.controlBlock TapLeafScript.le a b)
      (fun l => l.map tapLeafScriptRecord) := by
  refine MergeSpec.sorted (mergeBy_spec (fun x y => ?_) (fun x y hxy => ?_)
    (fun x hx y hy hxy => ?_) ha hb)
  · simp [tapLeafScriptRecord]
  · simp
  · obtain ⟨k, v⟩ := x
    obtain ⟨k', v'⟩ := y
    simpa [tapLeafScriptRecord] using hxy

/-- The thirteen merges of an input map. -/
structure FieldMerges (a b r : PsbtIn) : Prop where
  partialSigs : mergePartialSigs a.partialSigs b.partialSigs = .ok r.partialSigs
  tapScriptSigs : mergeTypedList (fun s => s.xOnly ++ s.leafHash) TapScriptSig.le
    a.tapScriptSigs b.tapScriptSigs = .ok r.tapScriptSigs
  tapLeafScripts : mergeTypedList TapLeafScript.controlBlock TapLeafScript.le
    a.tapLeafScripts b.tapLeafScripts = .ok r.tapLeafScripts
  nonWitnessUtxo : mergeField a.nonWitnessUtxo b.nonWitnessUtxo = .ok r.nonWitnessUtxo
  witnessUtxo : mergeField a.witnessUtxo b.witnessUtxo = .ok r.witnessUtxo
  sighashType : mergeField a.sighashType b.sighashType = .ok r.sighashType
  redeemScript : mergeField a.redeemScript b.redeemScript = .ok r.redeemScript
  witnessScript : mergeField a.witnessScript b.witnessScript = .ok r.witnessScript
  finalScriptsig : mergeField a.finalScriptsig b.finalScriptsig = .ok r.finalScriptsig
  finalScriptwitness : mergeField a.finalScriptwitness b.finalScriptwitness =
    .ok r.finalScriptwitness
  tapInternalKey : mergeField a.tapInternalKey b.tapInternalKey = .ok r.tapInternalKey
  tapMerkleRoot : mergeField a.tapMerkleRoot b.tapMerkleRoot = .ok r.tapMerkleRoot
  unknown : mergeUnknown a.unknown b.unknown = .ok r.unknown

theorem mergeInput_eq_ok {a b r : PsbtIn} : mergeInput a b = .ok r ↔ FieldMerges a b r := by
  constructor
  · intro h
    simp only [mergeInput, bind_eq_ok, pure_eq_ok, Except.ok.injEq] at h
    obtain ⟨_, h1, _, h2, _, h3, _, h4, _, h5, _, h6, _, h7, _, h8, _, h9, _, h10, _, h11, _, h12,
      _, h13, rfl⟩ := h
    exact ⟨h1, h2, h3, h4, h5, h6, h7, h8, h9, h10, h11, h12, h13⟩
  · intro h
    simp only [mergeInput, h.partialSigs, h.tapScriptSigs, h.tapLeafScripts, h.nonWitnessUtxo,
      h.witnessUtxo, h.sighashType, h.redeemScript, h.witnessScript, h.finalScriptsig,
      h.finalScriptwitness, h.tapInternalKey, h.tapMerkleRoot, h.unknown, ok_bind, pure_eq_ok]

theorem tx_injective : Function.Injective RecordValue.tx := fun _ _ h => RecordValue.tx.inj h
theorem out_injective : Function.Injective RecordValue.out := fun _ _ h => RecordValue.out.inj h
theorem number_injective : Function.Injective RecordValue.number :=
  fun _ _ h => RecordValue.number.inj h
theorem bytes_injective : Function.Injective RecordValue.bytes :=
  fun _ _ h => RecordValue.bytes.inj h

section Input

variable {a b : PsbtIn} (ha : WellFormedInput a) (hb : WellFormedInput b)
include ha hb

/-- Field by field, a successful merge is the union. -/
theorem FieldMerges.field {r : PsbtIn} (h : FieldMerges a b r) (f : Field) :
    Agree (toRel (fieldRecords a f)) (toRel (fieldRecords b f)) ∧
      (∀ y, y ∈ fieldRecords r f ↔ y ∈ fieldRecords a f ∨ y ∈ fieldRecords b f) ∧
        ((fieldRecords r f).map Prod.fst).Nodup := by
  cases f with
  | nonWitnessUtxo => exact (mergeField_spec _ tx_injective _ _).union h.nonWitnessUtxo
  | witnessUtxo => exact (mergeField_spec _ out_injective _ _).union h.witnessUtxo
  | partialSigs =>
    exact (mergePartialSigs_spec (ha.nodup .partialSigs) (hb.nodup .partialSigs)).union
      h.partialSigs
  | sighashType => exact (mergeField_spec _ number_injective _ _).union h.sighashType
  | redeemScript => exact (mergeField_spec _ bytes_injective _ _).union h.redeemScript
  | witnessScript => exact (mergeField_spec _ bytes_injective _ _).union h.witnessScript
  | tapScriptSigs =>
    exact (mergeTapScriptSigs_spec ha.xOnly hb.xOnly (ha.nodup .tapScriptSigs)
      (hb.nodup .tapScriptSigs)).union h.tapScriptSigs
  | tapLeafScripts =>
    exact (mergeTapLeafScripts_spec (ha.nodup .tapLeafScripts) (hb.nodup .tapLeafScripts)).union
      h.tapLeafScripts
  | tapInternalKey => exact (mergeField_spec _ bytes_injective _ _).union h.tapInternalKey
  | tapMerkleRoot => exact (mergeField_spec _ bytes_injective _ _).union h.tapMerkleRoot
  | finalScriptsig => exact (mergeField_spec _ bytes_injective _ _).union h.finalScriptsig
  | finalScriptwitness => exact (mergeField_spec _ bytes_injective _ _).union h.finalScriptwitness
  | unknown => exact (mergeUnknown_spec (ha.nodup .unknown) (hb.nodup .unknown)).union h.unknown

/-- Where all fields agree, all thirteen merges succeed. -/
theorem exists_fieldMerges
    (h : ∀ f, Agree (toRel (fieldRecords a f)) (toRel (fieldRecords b f))) :
    ∃ r, FieldMerges a b r := by
  obtain ⟨_, h1⟩ := (mergeField_spec _ tx_injective _ _).ok_iff.mpr (h .nonWitnessUtxo)
  obtain ⟨_, h2⟩ := (mergeField_spec _ out_injective _ _).ok_iff.mpr (h .witnessUtxo)
  obtain ⟨_, h3⟩ := (mergePartialSigs_spec (ha.nodup .partialSigs) (hb.nodup .partialSigs)).ok_iff.mpr
    (h .partialSigs)
  obtain ⟨_, h4⟩ := (mergeField_spec _ number_injective _ _).ok_iff.mpr (h .sighashType)
  obtain ⟨_, h5⟩ := (mergeField_spec _ bytes_injective _ _).ok_iff.mpr (h .redeemScript)
  obtain ⟨_, h6⟩ := (mergeField_spec _ bytes_injective _ _).ok_iff.mpr (h .witnessScript)
  obtain ⟨_, h7⟩ := (mergeTapScriptSigs_spec ha.xOnly hb.xOnly (ha.nodup .tapScriptSigs)
    (hb.nodup .tapScriptSigs)).ok_iff.mpr (h .tapScriptSigs)
  obtain ⟨_, h8⟩ := (mergeTapLeafScripts_spec (ha.nodup .tapLeafScripts)
    (hb.nodup .tapLeafScripts)).ok_iff.mpr (h .tapLeafScripts)
  obtain ⟨_, h9⟩ := (mergeField_spec _ bytes_injective _ _).ok_iff.mpr (h .tapInternalKey)
  obtain ⟨_, h10⟩ := (mergeField_spec _ bytes_injective _ _).ok_iff.mpr (h .tapMerkleRoot)
  obtain ⟨_, h11⟩ := (mergeField_spec _ bytes_injective _ _).ok_iff.mpr (h .finalScriptsig)
  obtain ⟨_, h12⟩ := (mergeField_spec _ bytes_injective _ _).ok_iff.mpr (h .finalScriptwitness)
  obtain ⟨_, h13⟩ := (mergeUnknown_spec (ha.nodup .unknown) (hb.nodup .unknown)).ok_iff.mpr
    (h .unknown)
  exact ⟨⟨_, _, _, _, _, _, _, _, _, _, _, _, _⟩, ⟨h3, h7, h8, h1, h2, h4, h5, h6, h11, h12, h9,
    h10, h13⟩⟩

theorem mergeInput_onlyError : OnlyError .conflictingField (mergeInput a b) := by
  refine .bind (mergePartialSigs_spec (ha.nodup .partialSigs) (hb.nodup .partialSigs)).conflict
    fun _ _ => ?_
  refine .bind (mergeTapScriptSigs_spec ha.xOnly hb.xOnly (ha.nodup .tapScriptSigs)
    (hb.nodup .tapScriptSigs)).conflict fun _ _ => ?_
  refine .bind (mergeTapLeafScripts_spec (ha.nodup .tapLeafScripts)
    (hb.nodup .tapLeafScripts)).conflict fun _ _ => ?_
  refine .bind (mergeField_spec 0 tx_injective _ _).conflict fun _ _ => ?_
  refine .bind (mergeField_spec 0 out_injective _ _).conflict fun _ _ => ?_
  refine .bind (mergeField_spec 0 number_injective _ _).conflict fun _ _ => ?_
  iterate 6 refine .bind (mergeField_spec 0 bytes_injective _ _).conflict fun _ _ => ?_
  exact .bind (mergeUnknown_spec (ha.nodup .unknown) (hb.nodup .unknown)).conflict fun _ _ => .ok _

/-- Different fields have different keys, so agreement is field by field. -/
theorem agree_inputRecords :
    Agree (toRel (inputRecords a)) (toRel (inputRecords b)) ↔
      ∀ f, Agree (toRel (fieldRecords a f)) (toRel (fieldRecords b f)) := by
  constructor
  · intro h f k v w hv hw
    exact h k v w (mem_inputRecords.mpr ⟨f, hv⟩) (mem_inputRecords.mpr ⟨f, hw⟩)
  · intro h k v w hv hw
    obtain ⟨f, hv⟩ := mem_inputRecords.mp hv
    obtain ⟨g, hw⟩ := mem_inputRecords.mp hw
    have hf : keyField k = f := ha.classified f _ hv
    have hfg : f = g := hf.symm.trans (hb.classified g _ hw)
    subst hfg
    exact h f k v w hv hw

/-- The merge of two input maps is well formed again. -/
theorem FieldMerges.wellFormed {r : PsbtIn} (h : FieldMerges a b r) : WellFormedInput r where
  nodup := fun f => (h.field ha hb f).2.2
  classified := fun f x hx => by
    rcases ((h.field ha hb f).2.1 x).mp hx with hx | hx
    · exact ha.classified f x hx
    · exact hb.classified f x hx
  xOnly := fun s hs => by
    obtain ⟨out, hout, hsort⟩ := bind_eq_ok.mp h.tapScriptSigs
    rw [← Except.ok.inj hsort, List.mem_insertionSort] at hs
    rcases KeyedList.mem_of_mergeBy hout hs with hs | hs
    · exact ha.xOnly s hs
    · exact hb.xOnly s hs

theorem mergeInput_spec :
    MergeSpec (inputRecords a) (inputRecords b) (mergeInput a b) inputRecords := by
  by_cases h : ∀ f, Agree (toRel (fieldRecords a f)) (toRel (fieldRecords b f))
  · obtain ⟨r, hr⟩ := exists_fieldMerges ha hb h
    refine .of_ok (mergeInput_eq_ok.mpr hr) ((agree_inputRecords ha hb).mpr h) (fun y => ?_)
      (hr.wellFormed ha hb).records_nodup
    simp only [mem_inputRecords, (hr.field ha hb _).2.1, exists_or]
  · have hno : ¬ Agree (toRel (inputRecords a)) (toRel (inputRecords b)) := fun hc =>
      h ((agree_inputRecords ha hb).mp hc)
    cases hx : mergeInput a b with
    | error e => exact .of_conflict (congrArg _ (mergeInput_onlyError ha hb e hx)) hno
    | ok r => exact absurd (fun f => ((mergeInput_eq_ok.mp hx).field ha hb f).1) h

end Input

theorem combinePsbt_eq_ok {a b r : Psbt} (htx : a.unsignedTx = b.unsignedTx) :
    combinePsbt a b = .ok r ↔
      mergeUnknown a.unknownGlobal b.unknownGlobal = .ok r.unknownGlobal ∧
        (a.inputs.zip b.inputs).mapM (fun (x, y) => mergeInput x y) = .ok r.inputs ∧
          (a.outputs.zip b.outputs).mapM (fun (x, y) => mergeOutput x y) = .ok r.outputs ∧
            r.version = a.version ∧ r.unsignedTx = a.unsignedTx := by
  rw [combinePsbt, htx, reject_false _ (by simp), ok_bind]
  constructor
  · intro h
    simp only [bind_eq_ok, pure_eq_ok, Except.ok.injEq] at h
    obtain ⟨_, hu, _, hi, _, ho, rfl⟩ := h
    exact ⟨hu, hi, ho, rfl, rfl⟩
  · rintro ⟨hu, hi, ho, hv, ht⟩
    rw [hu, ok_bind, hi, ok_bind, ho, ok_bind, pure_eq_ok, ← hv, ← ht]

theorem mergeOutput_spec {a b : PsbtOut} (ha : ((unknownRecords a.unknown).map Prod.fst).Nodup)
    (hb : ((unknownRecords b.unknown).map Prod.fst).Nodup) :
    MergeSpec (unknownRecords a.unknown) (unknownRecords b.unknown) (mergeOutput a b)
      (fun out => unknownRecords out.unknown) := by
  have h := mergeUnknown_spec ha hb
  cases hx : mergeUnknown a.unknown b.unknown with
  | error e =>
    rw [hx] at h
    obtain rfl := h.conflict e rfl
    refine .of_conflict (by rw [mergeOutput, hx]; rfl) fun hc => ?_
    obtain ⟨r, hr⟩ := h.ok_iff.mpr hc
    cases hr
  | ok r =>
    obtain ⟨hagree, hmem, hnd⟩ := h.union hx
    exact .of_ok (r := ⟨r⟩) (by rw [mergeOutput, hx]; rfl) hagree hmem hnd

/-- One merge per position of two lists of maps. -/
theorem zip_merges {α : Type} {merge : α → α → Except PsbtError α} {recs : α → List Record}
    {as bs : List α} (hlen : as.length = bs.length)
    (hspec : ∀ x ∈ as, ∀ y ∈ bs, MergeSpec (recs x) (recs y) (merge x y) recs) :
    ((∃ rs, (as.zip bs).mapM (fun (x, y) => merge x y) = .ok rs) ↔
      ∀ (i : Nat) x y, as[i]? = some x → bs[i]? = some y → Agree (toRel (recs x)) (toRel (recs y))) ∧
    ∀ rs, (as.zip bs).mapM (fun (x, y) => merge x y) = .ok rs → rs.length = as.length ∧
      ∀ (i : Nat) z, rs[i]? = some z → ∃ x y, as[i]? = some x ∧ bs[i]? = some y ∧ merge x y = .ok z := by
  have hpos : ∀ rs, (as.zip bs).mapM (fun (x, y) => merge x y) = .ok rs →
      rs.length = as.length ∧ ∀ (i : Nat) z, rs[i]? = some z →
        ∃ x y, as[i]? = some x ∧ bs[i]? = some y ∧ merge x y = .ok z := by
    intro rs h
    refine ⟨by rw [mapM_length h, List.length_zip, hlen, min_self], fun i z hz => ?_⟩
    obtain ⟨⟨x, y⟩, hxy, hm⟩ := mapM_getElem? h i z hz
    obtain ⟨hx, hy⟩ := List.getElem?_zip_eq_some.mp hxy
    exact ⟨x, y, hx, hy, hm⟩
  refine ⟨⟨?_, fun h => ?_⟩, hpos⟩
  · rintro ⟨rs, h⟩ i x y hx hy
    obtain ⟨hl, hget⟩ := hpos rs h
    have hi : i < rs.length := hl ▸ (List.getElem?_eq_some_iff.mp hx).1
    obtain ⟨x', y', hx', hy', hm⟩ := hget i rs[i] (List.getElem?_eq_getElem hi)
    obtain rfl := Option.some.inj (hx.symm.trans hx')
    obtain rfl := Option.some.inj (hy.symm.trans hy')
    exact (hspec x (List.mem_of_getElem? hx) y (List.mem_of_getElem? hy)).ok_iff.mp ⟨_, hm⟩
  · refine mapM_ok_of_forall fun ⟨x, y⟩ hxy => ?_
    obtain ⟨i, hi⟩ := List.mem_iff_getElem?.mp hxy
    obtain ⟨hx, hy⟩ := List.getElem?_zip_eq_some.mp hi
    exact (hspec x (List.mem_of_getElem? hx) y (List.mem_of_getElem? hy)).ok_iff.mpr
      (h i x y hx hy)

section Psbts

variable {a b : Psbt} (ha : WellFormed a) (hb : WellFormed b) (htx : a.unsignedTx = b.unsignedTx)
include ha hb htx

theorem inputs_merge :
    a.inputs.length = b.inputs.length ∧ ∀ x ∈ a.inputs, ∀ y ∈ b.inputs,
      MergeSpec (inputRecords x) (inputRecords y) (mergeInput x y) inputRecords := by
  refine ⟨by rw [ha.inputs_length, hb.inputs_length, htx], fun x hx y hy => ?_⟩
  exact mergeInput_spec (ha.inputs x hx) (hb.inputs y hy)

theorem outputs_merge :
    a.outputs.length = b.outputs.length ∧ ∀ x ∈ a.outputs, ∀ y ∈ b.outputs,
      MergeSpec (unknownRecords x.unknown) (unknownRecords y.unknown) (mergeOutput x y)
        (fun out => unknownRecords out.unknown) := by
  refine ⟨by rw [ha.outputs_length, hb.outputs_length, htx], fun x hx y hy => ?_⟩
  exact mergeOutput_spec (ha.outputs x hx) (hb.outputs y hy)

omit htx in
theorem globals_merge :
    MergeSpec (unknownRecords a.unknownGlobal) (unknownRecords b.unknownGlobal)
      (mergeUnknown a.unknownGlobal b.unknownGlobal) unknownRecords :=
  mergeUnknown_spec (List.nodup_cons.mp ha.globals).2 (List.nodup_cons.mp hb.globals).2

/-- The transaction is one record under a key that nothing else in the global map has. -/
theorem agree_globals :
    Agree (toRel (mapRecords a .globals)) (toRel (mapRecords b .globals)) ↔
      Agree (toRel (unknownRecords a.unknownGlobal)) (toRel (unknownRecords b.unknownGlobal)) := by
  have hnew : ∀ {p : Psbt}, WellFormed p → ∀ v, ([tUnsignedTx], v) ∉ unknownRecords p.unknownGlobal :=
    fun hp v hv => (List.nodup_cons.mp hp.globals).1 (List.mem_map.mpr ⟨_, hv, rfl⟩)
  constructor
  · intro h k v w hv hw
    exact h k v w (List.mem_cons_of_mem _ hv) (List.mem_cons_of_mem _ hw)
  · intro h k v w hv hw
    rcases List.mem_cons.mp hv with hv | hv <;> rcases List.mem_cons.mp hw with hw | hw
    · rw [(Prod.mk.inj hv).2, (Prod.mk.inj hw).2, htx]
    · rw [(Prod.mk.inj hv).1] at hw
      exact absurd hw (hnew hb w)
    · rw [(Prod.mk.inj hw).1] at hv
      exact absurd hv (hnew ha v)
    · exact h k v w hv hw

/-- Combination succeeds exactly when no map has a key with two values. -/
theorem combinePsbt_ok_iff :
    (∃ r, combinePsbt a b = .ok r) ↔ Agree (records a) (records b) := by
  have hin := (zip_merges (inputs_merge ha hb htx).1 (inputs_merge ha hb htx).2).1
  have hout := (zip_merges (outputs_merge ha hb htx).1 (outputs_merge ha hb htx).2).1
  have hglob := (globals_merge ha hb).ok_iff
  have hmaps : Agree (records a) (records b) ↔
      ∀ m, Agree (toRel (mapRecords a m)) (toRel (mapRecords b m)) :=
    ⟨fun h m k => h (m, k), fun h mk => h mk.1 mk.2⟩
  rw [hmaps]
  constructor
  · rintro ⟨r, hr⟩ m
    obtain ⟨hu, hi, ho, -⟩ := (combinePsbt_eq_ok htx).mp hr
    cases m with
    | globals => exact (agree_globals ha hb htx).mpr (hglob.mp ⟨_, hu⟩)
    | input i =>
      intro k v w hv hw
      cases hx : a.inputs[i]? with
      | none => simp [mapRecords, hx] at hv
      | some x =>
        cases hy : b.inputs[i]? with
        | none => simp [mapRecords, hy] at hw
        | some y =>
          simp only [mapRecords, hx, hy, Option.map_some, Option.getD_some] at hv hw
          exact hin.mp ⟨_, hi⟩ i x y hx hy k v w hv hw
    | output i =>
      intro k v w hv hw
      cases hx : a.outputs[i]? with
      | none => simp [mapRecords, hx] at hv
      | some x =>
        cases hy : b.outputs[i]? with
        | none => simp [mapRecords, hy] at hw
        | some y =>
          simp only [mapRecords, hx, hy, Option.map_some, Option.getD_some] at hv hw
          exact hout.mp ⟨_, ho⟩ i x y hx hy k v w hv hw
  · intro h
    obtain ⟨u, hu⟩ := hglob.mpr ((agree_globals ha hb htx).mp (h .globals))
    obtain ⟨is, hi⟩ := hin.mpr fun i x y hx hy k v w hv hw =>
      h (.input i) k v w (by simpa [mapRecords, hx] using hv) (by simpa [mapRecords, hy] using hw)
    obtain ⟨os, ho⟩ := hout.mpr fun i x y hx hy k v w hv hw =>
      h (.output i) k v w (by simpa [mapRecords, hx] using hv) (by simpa [mapRecords, hy] using hw)
    exact ⟨⟨a.version, a.unsignedTx, is, os, u⟩, (combinePsbt_eq_ok htx).mpr ⟨hu, hi, ho, rfl, rfl⟩⟩

/-- On one transaction the only failure is a conflict. -/
theorem combinePsbt_onlyError : OnlyError .conflictingField (combinePsbt a b) := by
  rw [combinePsbt, htx, reject_false _ (by simp), ok_bind]
  refine .bind (globals_merge ha hb).conflict fun _ _ => ?_
  refine .bind (.mapM fun ⟨x, y⟩ hxy => ?_) fun _ _ => ?_
  · exact ((inputs_merge ha hb htx).2 x (List.of_mem_zip hxy).1 y (List.of_mem_zip hxy).2).conflict
  · refine .bind (.mapM fun ⟨x, y⟩ hxy => ?_) fun _ _ => .ok _
    exact ((outputs_merge ha hb htx).2 x (List.of_mem_zip hxy).1 y (List.of_mem_zip hxy).2).conflict

/-- The result stands on the same transaction and holds the union of the records. -/
theorem combinePsbt_records {r : Psbt} (h : combinePsbt a b = .ok r) :
    WellFormed r ∧ r.unsignedTx = a.unsignedTx ∧
      ∀ m x, x ∈ mapRecords r m ↔ x ∈ mapRecords a m ∨ x ∈ mapRecords b m := by
  obtain ⟨hu, hi, ho, -, ht⟩ := (combinePsbt_eq_ok htx).mp h
  obtain ⟨hilen, hin⟩ := (zip_merges (inputs_merge ha hb htx).1 (inputs_merge ha hb htx).2).2 _ hi
  obtain ⟨holen, hout⟩ :=
    (zip_merges (outputs_merge ha hb htx).1 (outputs_merge ha hb htx).2).2 _ ho
  obtain ⟨-, humem, hund⟩ := (globals_merge ha hb).union hu
  have hglobals : ∀ x, x ∈ mapRecords r .globals ↔
      x ∈ mapRecords a .globals ∨ x ∈ mapRecords b .globals := fun x => by
    simp only [mapRecords, List.mem_cons, humem, ht, htx]
    tauto
  refine ⟨⟨?_, ?_, fun z hz => ?_, fun z hz => ?_, ?_⟩, ht, fun m x => ?_⟩
  · rw [hilen, ha.inputs_length, ht]
  · rw [holen, ha.outputs_length, ht]
  · obtain ⟨i, hget⟩ := List.mem_iff_getElem?.mp hz
    obtain ⟨x, y, hx, hy, hm⟩ := hin i z hget
    exact (mergeInput_eq_ok.mp hm).wellFormed (ha.inputs x (List.mem_of_getElem? hx))
      (hb.inputs y (List.mem_of_getElem? hy))
  · obtain ⟨i, hget⟩ := List.mem_iff_getElem?.mp hz
    obtain ⟨x, y, hx, hy, hm⟩ := hout i z hget
    exact (mergeOutput_spec (ha.outputs x (List.mem_of_getElem? hx))
      (hb.outputs y (List.mem_of_getElem? hy))).nodup z hm
  · refine List.nodup_cons.mpr ⟨fun hmem => ?_, hund⟩
    obtain ⟨x, hx, hkey⟩ := List.mem_map.mp hmem
    rcases (humem x).mp hx with hx | hx
    · exact (List.nodup_cons.mp ha.globals).1 (List.mem_map.mpr ⟨x, hx, hkey⟩)
    · exact (List.nodup_cons.mp hb.globals).1 (List.mem_map.mpr ⟨x, hx, hkey⟩)
  · cases m with
    | globals => exact hglobals x
    | input i =>
      cases hz : r.inputs[i]? with
      | none =>
        have hn : ∀ l : List PsbtIn, l.length = r.inputs.length → l[i]? = none := fun l hl =>
          List.getElem?_eq_none (hl ▸ List.getElem?_eq_none_iff.mp hz)
        have hb' := (inputs_merge ha hb htx).1
        simp [mapRecords, hz, hn a.inputs hilen.symm, hn b.inputs (hb' ▸ hilen.symm)]
      | some z =>
        obtain ⟨x', y, hx, hy, hm⟩ := hin i z hz
        have hspec := (inputs_merge ha hb htx).2 x' (List.mem_of_getElem? hx) y
          (List.mem_of_getElem? hy)
        simpa [mapRecords, hz, hx, hy] using hspec.mem z hm x
    | output i =>
      cases hz : r.outputs[i]? with
      | none =>
        have hn : ∀ l : List PsbtOut, l.length = r.outputs.length → l[i]? = none := fun l hl =>
          List.getElem?_eq_none (hl ▸ List.getElem?_eq_none_iff.mp hz)
        have hb' := (outputs_merge ha hb htx).1
        simp [mapRecords, hz, hn a.outputs holen.symm, hn b.outputs (hb' ▸ holen.symm)]
      | some z =>
        obtain ⟨x', y, hx, hy, hm⟩ := hout i z hz
        have hspec := (outputs_merge ha hb htx).2 x' (List.mem_of_getElem? hx) y
          (List.mem_of_getElem? hy)
        simpa [mapRecords, hz, hx, hy] using hspec.mem z hm x

theorem combinePsbt_records_union {r : Psbt} (h : combinePsbt a b = .ok r) :
    records r = records a ∪ records b :=
  Set.ext fun x => (combinePsbt_records ha hb htx h).2.2 x.1.1 (x.1.2, x.2)

end Psbts

/-- Both fail, or both succeed with the same bytes. -/
def SameOutcome (x y : Except PsbtError Psbt) : Prop :=
  (∃ r r', x = .ok r ∧ y = .ok r' ∧ serializePsbt r = serializePsbt r') ∨
    ∃ e e', x = .error e ∧ y = .error e'

theorem sameOutcome_of {x y : Except PsbtError Psbt}
    (hiff : (∃ r, x = .ok r) ↔ ∃ r, y = .ok r)
    (hser : ∀ r r', x = .ok r → y = .ok r' → serializePsbt r = serializePsbt r') :
    SameOutcome x y := by
  cases x with
  | ok r =>
    obtain ⟨r', hr'⟩ := hiff.mp ⟨r, rfl⟩
    exact .inl ⟨r, r', rfl, hr', hser r r' rfl hr'⟩
  | error e =>
    cases y with
    | ok r' =>
      obtain ⟨r, hr⟩ := hiff.mpr ⟨r', rfl⟩
      cases hr
    | error e' => exact .inr ⟨e, e', rfl, rfl⟩

section Laws

variable {a b c : Psbt} (ha : WellFormed a) (hb : WellFormed b) (hc : WellFormed c)
  (hab : a.unsignedTx = b.unsignedTx) (hbc : b.unsignedTx = c.unsignedTx)

include ha hb hab in
theorem combine_comm : SameOutcome (combinePsbt a b) (combinePsbt b a) := by
  refine sameOutcome_of ?_ fun r r' hr hr' => ?_
  · rw [combinePsbt_ok_iff ha hb hab, combinePsbt_ok_iff hb ha hab.symm]
    exact ⟨Agree.symm, Agree.symm⟩
  · obtain ⟨hwf, htx, hmem⟩ := combinePsbt_records ha hb hab hr
    obtain ⟨hwf', htx', hmem'⟩ := combinePsbt_records hb ha hab.symm hr'
    refine serializePsbt_congr hwf hwf' (by rw [htx, htx', hab]) fun m x => ?_
    rw [hmem, hmem', or_comm]

include ha in
theorem combine_idem : ∃ r, combinePsbt a a = .ok r ∧ serializePsbt r = serializePsbt a := by
  obtain ⟨r, hr⟩ := (combinePsbt_ok_iff ha ha rfl).mpr ha.functional
  obtain ⟨hwf, htx, hmem⟩ := combinePsbt_records ha ha rfl hr
  exact ⟨r, hr, serializePsbt_congr hwf ha htx fun m x => by rw [hmem, or_self]⟩

include ha hb hc hab hbc in
/-- Both orders of joining three PSBTs ask for the same agreement and give the same union. -/
theorem combine_assoc :
    SameOutcome (combinePsbt a b >>= fun ab => combinePsbt ab c)
      (combinePsbt b c >>= fun bc => combinePsbt a bc) := by
  have hleft : (∃ r, (combinePsbt a b >>= fun ab => combinePsbt ab c) = .ok r) ↔
      Agree (records a) (records b) ∧ Agree (records a ∪ records b) (records c) := by
    simp only [bind_eq_ok]
    constructor
    · rintro ⟨r, ab, hab', hr⟩
      obtain ⟨hwf, htx, -⟩ := combinePsbt_records ha hb hab hab'
      have hu := combinePsbt_records_union ha hb hab hab'
      have htx' : ab.unsignedTx = c.unsignedTx := htx.trans (hab.trans hbc)
      exact ⟨(combinePsbt_ok_iff ha hb hab).mp ⟨ab, hab'⟩,
        hu ▸ (combinePsbt_ok_iff hwf hc htx').mp ⟨r, hr⟩⟩
    · rintro ⟨h, h'⟩
      obtain ⟨ab, hab'⟩ := (combinePsbt_ok_iff ha hb hab).mpr h
      obtain ⟨hwf, htx, -⟩ := combinePsbt_records ha hb hab hab'
      have htx' : ab.unsignedTx = c.unsignedTx := htx.trans (hab.trans hbc)
      rw [← combinePsbt_records_union ha hb hab hab'] at h'
      obtain ⟨r, hr⟩ := (combinePsbt_ok_iff hwf hc htx').mpr h'
      exact ⟨r, ab, hab', hr⟩
  have hright : (∃ r, (combinePsbt b c >>= fun bc => combinePsbt a bc) = .ok r) ↔
      Agree (records b) (records c) ∧ Agree (records a) (records b ∪ records c) := by
    simp only [bind_eq_ok]
    constructor
    · rintro ⟨r, bc, hbc', hr⟩
      obtain ⟨hwf, htx, -⟩ := combinePsbt_records hb hc hbc hbc'
      have hu := combinePsbt_records_union hb hc hbc hbc'
      have htx' : a.unsignedTx = bc.unsignedTx := hab.trans htx.symm
      exact ⟨(combinePsbt_ok_iff hb hc hbc).mp ⟨bc, hbc'⟩,
        hu ▸ (combinePsbt_ok_iff ha hwf htx').mp ⟨r, hr⟩⟩
    · rintro ⟨h, h'⟩
      obtain ⟨bc, hbc'⟩ := (combinePsbt_ok_iff hb hc hbc).mpr h
      obtain ⟨hwf, htx, -⟩ := combinePsbt_records hb hc hbc hbc'
      have htx' : a.unsignedTx = bc.unsignedTx := hab.trans htx.symm
      rw [← combinePsbt_records_union hb hc hbc hbc'] at h'
      obtain ⟨r, hr⟩ := (combinePsbt_ok_iff ha hwf htx').mpr h'
      exact ⟨r, bc, hbc', hr⟩
  refine sameOutcome_of ?_ fun r r' hr hr' => ?_
  · rw [hleft, hright]
    exact KeyedList.agree_assoc ha.functional hb.functional hc.functional
  · obtain ⟨ab, hab', hr⟩ := bind_eq_ok.mp hr
    obtain ⟨bc, hbc', hr'⟩ := bind_eq_ok.mp hr'
    obtain ⟨hwf, htx, hmem⟩ := combinePsbt_records ha hb hab hab'
    obtain ⟨hwf', htx', hmem'⟩ := combinePsbt_records hb hc hbc hbc'
    obtain ⟨hwr, htr, hmr⟩ := combinePsbt_records hwf hc (htx.trans (hab.trans hbc)) hr
    obtain ⟨hwr', htr', hmr'⟩ := combinePsbt_records ha hwf' (hab.trans htx'.symm) hr'
    refine serializePsbt_congr hwr hwr' (by rw [htr, htx, htr']) fun m x => ?_
    rw [hmr, hmr', hmem, hmem', or_assoc]

end Laws

/-- The Combiner is a lawful join of parsed PSBTs on one transaction: commutative,
associative across failures, idempotent, the union of the records of every map, and refused
exactly on a key with two values. -/
theorem combinePsbt_lawful {da db dc : Bytes} {a b c : Psbt} (ha : parsePsbt da = .ok a)
    (hb : parsePsbt db = .ok b) (hc : parsePsbt dc = .ok c) (hab : a.unsignedTx = b.unsignedTx)
    (hbc : b.unsignedTx = c.unsignedTx) :
    SameOutcome (combinePsbt a b) (combinePsbt b a) ∧
    SameOutcome (combinePsbt a b >>= fun ab => combinePsbt ab c)
      (combinePsbt b c >>= fun bc => combinePsbt a bc) ∧
    (∃ r, combinePsbt a a = .ok r ∧ serializePsbt r = serializePsbt a) ∧
    (∀ r, combinePsbt a b = .ok r → ∀ m, ((mapRecords r m).map Prod.fst).Nodup ∧
      ∀ x, x ∈ mapRecords r m ↔ x ∈ mapRecords a m ∨ x ∈ mapRecords b m) ∧
    (combinePsbt a b = .error .conflictingField ↔
      ∃ m k v w, (k, v) ∈ mapRecords a m ∧ (k, w) ∈ mapRecords b m ∧ v ≠ w) := by
  have hwa := parsePsbt_wellFormed ha
  have hwb := parsePsbt_wellFormed hb
  have hwc := parsePsbt_wellFormed hc
  refine ⟨combine_comm hwa hwb hab, combine_assoc hwa hwb hwc hab hbc, combine_idem hwa,
    fun r hr m => ?_, ?_⟩
  · obtain ⟨hwr, -, hmem⟩ := combinePsbt_records hwa hwb hab hr
    exact ⟨hwr.mapRecords_nodup m, hmem m⟩
  · have hiff := combinePsbt_ok_iff hwa hwb hab
    have hconf : (∃ m k v w, (k, v) ∈ mapRecords a m ∧ (k, w) ∈ mapRecords b m ∧ v ≠ w) ↔
        ¬ Agree (records a) (records b) := by
      simp only [Agree, Prod.forall, not_forall]
      constructor
      · rintro ⟨m, k, v, w, hv, hw, hne⟩
        exact ⟨m, k, v, w, hv, hw, hne⟩
      · rintro ⟨m, k, v, w, hv, hw, hne⟩
        exact ⟨m, k, v, w, hv, hw, hne⟩
    rw [hconf, ← hiff]
    cases hx : combinePsbt a b with
    | ok r => simp
    | error e => simp [combinePsbt_onlyError hwa hwb hab e hx]

/-- A PSBT with one input, which carries the given records, and one output. -/
def cosignedPsbt (input : PsbtIn) : Psbt where
  version := 0
  unsignedTx := ⟨2, [⟨List.replicate 32 0x11, 0, [], 0xffffffff, []⟩], [⟨1000, [0x51]⟩], 0⟩
  inputs := [input]
  outputs := [⟨[⟨[0xfc, 0x01], [0x07]⟩]⟩]
  unknownGlobal := []

/-- The copy of the cosigner whose key ends in `tag`. -/
def cosignerCopy (tag : UInt8) : Psbt :=
  cosignedPsbt { emptyInput with
    partialSigs := [(0x02 :: List.replicate 32 tag, [0x30, tag, 0x01])] }

theorem combinePsbt_lawful_three_cosigners :
    SameOutcome (combinePsbt (cosignerCopy 1) (cosignerCopy 2))
        (combinePsbt (cosignerCopy 2) (cosignerCopy 1)) ∧
      SameOutcome
        (combinePsbt (cosignerCopy 1) (cosignerCopy 2) >>= fun ab =>
          combinePsbt ab (cosignedPsbt { emptyInput with sighashType := some 1 }))
        (combinePsbt (cosignerCopy 2) (cosignedPsbt { emptyInput with sighashType := some 1 }) >>=
          fun bc => combinePsbt (cosignerCopy 1) bc) := by
  have ha : parsePsbt (serializePsbt (cosignerCopy 1)) = .ok (cosignerCopy 1) := by decide +kernel
  have hb : parsePsbt (serializePsbt (cosignerCopy 2)) = .ok (cosignerCopy 2) := by decide +kernel
  have hc : parsePsbt (serializePsbt (cosignedPsbt { emptyInput with sighashType := some 1 })) =
      .ok (cosignedPsbt { emptyInput with sighashType := some 1 }) := by decide +kernel
  have h := combinePsbt_lawful ha hb hc rfl rfl
  exact ⟨h.1, h.2.1⟩

end Yubtc.Combine
