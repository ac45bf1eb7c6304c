import Yubtc.PsbtRecords

/-!
# Canonical form

The serializer sorts every map by key, so two PSBTs on one transaction with the same records
have the same bytes, however their lists are ordered.
-/
namespace Yubtc.CanonicalForm

open LittleEndian Wire Transaction PsbtData PsbtCodec PsbtRecords

/-- The pair a record of an input map is written as; an empty final field is not written. -/
def encodeRecord (x : Record) : Option (Bytes × Bytes) :=
  match x.2 with
  | .tx t => some (x.1, t.serializeWire)
  | .out o => some (x.1, encodeWitnessUtxo o)
  | .number n => some (x.1, packL n)
  | .bytes b =>
    if (x.1 = [tFinalScriptsig] ∨ x.1 = [tFinalScriptwitness]) ∧ b = [] then none
    else some (x.1, b)

theorem encodeRecord_key {x : Record} {p : Bytes × Bytes} (h : encodeRecord x = some p) :
    p.1 = x.1 := by
  obtain ⟨k, v⟩ := x
  cases v <;> simp only [encodeRecord] at h
  · cases h
    rfl
  · cases h
    rfl
  · cases h
    rfl
  · split at h
    · cases h
    · cases h
      rfl

theorem encode_keys_sublist (l : List Record) :
    ((l.filterMap encodeRecord).map Prod.fst).Sublist (l.map Prod.fst) := by
  induction l with
  | nil => exact List.Sublist.refl _
  | cons x l ih =>
    cases h : encodeRecord x with
    | none =>
      rw [List.filterMap_cons_none h]
      exact ih.cons _
    | some p =>
      rw [List.filterMap_cons_some h, List.map_cons, List.map_cons, encodeRecord_key h]
      exact ih.cons_cons _

/-- A record outside the two final fields is always written. -/
theorem encode_bytes {k b : Bytes} (h : k ≠ [tFinalScriptsig] ∧ k ≠ [tFinalScriptwitness]) :
    encodeRecord (k, .bytes b) = some (k, b) :=
  if_neg fun hc => hc.1.elim h.1 h.2

theorem filterMap_encode_map {α : Type} {l : List α} {rec : α → Record} {pair : α → Bytes × Bytes}
    (h : ∀ a ∈ l, encodeRecord (rec a) = some (pair a)) :
    (l.map rec).filterMap encodeRecord = l.map pair := by
  induction l with
  | nil => rfl
  | cons a l ih =>
    rw [List.map_cons, List.filterMap_cons_some (h a List.mem_cons_self),
      ih fun a ha => h a (List.mem_cons_of_mem _ ha), List.map_cons]

theorem filterMap_encode_optional {α : Type} {ty : UInt8} {value : α → RecordValue}
    {encode : α → Bytes} (h : ∀ v, encodeRecord ([ty], value v) = some ([ty], encode v))
    (field : Option α) :
    (optionalRecord ty value field).filterMap encodeRecord = fieldPair ty encode field := by
  cases field with
  | none => rfl
  | some v => simp [optionalRecord, fieldPair, h]

theorem filterMap_encode_final {ty : UInt8} (h : ty = tFinalScriptsig ∨ ty = tFinalScriptwitness)
    (field : Option Bytes) :
    (optionalRecord ty .bytes field).filterMap encodeRecord =
      fieldPair ty id (nonempty field) := by
  cases field with
  | none => rfl
  | some v =>
    rcases h with rfl | rfl <;> cases v <;> rfl

/-- The pairs of an input map are its records, encoded. -/
theorem inputPairs_eq {input : PsbtIn} (h : WellFormedInput input) :
    inputPairs input = (inputRecords input).filterMap encodeRecord := by
  have hunknown : (input.unknown.map unknownRecord).filterMap encodeRecord =
      input.unknown.map fun kv => (kv.key, kv.value) := by
    refine filterMap_encode_map fun kv hkv => encode_bytes ?_
    have hk : keyField kv.key = .unknown :=
      h.classified .unknown (unknownRecord kv) (List.mem_map_of_mem hkv)
    refine ⟨fun he => ?_, fun he => ?_⟩
    · rw [he] at hk
      exact absurd hk (by decide)
    · rw [he] at hk
      exact absurd hk (by decide)
  have hne : ∀ {k : Bytes} {t : UInt8}, t ≠ tFinalScriptsig → t ≠ tFinalScriptwitness →
      t :: k ≠ [tFinalScriptsig] ∧ t :: k ≠ [tFinalScriptwitness] := fun h h' =>
    ⟨fun he => h (List.cons.inj he).1, fun he => h' (List.cons.inj he).1⟩
  have hkeyed : (input.partialSigs.map partialSigRecord).filterMap encodeRecord =
      input.partialSigs.map fun p => (tPartialSig :: p.1, p.2) :=
    filterMap_encode_map fun _ _ => encode_bytes (hne (by decide) (by decide))
  have htapSigs : (input.tapScriptSigs.map tapScriptSigRecord).filterMap encodeRecord =
      input.tapScriptSigs.map fun s => (tInTapScriptSig :: (s.xOnly ++ s.leafHash), s.sig) :=
    filterMap_encode_map fun _ _ => encode_bytes (hne (by decide) (by decide))
  have hleaves : (input.tapLeafScripts.map tapLeafScriptRecord).filterMap encodeRecord =
      input.tapLeafScripts.map
        fun leaf => (tInTapLeafScript :: leaf.controlBlock, leaf.scriptWithVersion) :=
    filterMap_encode_map fun _ _ => encode_bytes (hne (by decide) (by decide))
  have hplain : ∀ {t : UInt8}, t ≠ tFinalScriptsig → t ≠ tFinalScriptwitness → ∀ field,
      (optionalRecord t .bytes field).filterMap encodeRecord = fieldPair t id field :=
    fun h h' field => filterMap_encode_optional (fun _ => encode_bytes (hne h h')) field
  simp only [inputRecords, Field.all, List.flatMap_cons, List.flatMap_nil, List.append_nil,
    List.filterMap_append, fieldRecords, hunknown, hkeyed, htapSigs, hleaves]
  rw [filterMap_encode_optional (fun _ => rfl), filterMap_encode_optional (fun _ => rfl),
    filterMap_encode_optional (fun _ => rfl), hplain (by decide) (by decide),
    hplain (by decide) (by decide), hplain (by decide) (by decide),
    hplain (by decide) (by decide), filterMap_encode_final (.inl rfl),
    filterMap_encode_final (.inr rfl)]
  simp only [inputPairs, List.append_assoc]

/-- Sorting hides the order of pairs with distinct keys. -/
theorem writeMap_congr {pairs pairs' : List (Bytes × Bytes)} (hp : pairs.Perm pairs')
    (hn : (pairs.map Prod.fst).Nodup) : writeMap pairs = writeMap pairs' := by
  have h := KeyedList.insertionSort_eq_of_perm (fun (a b : Bytes) => List.le_antisymm)
    Prod.fst hp hn
  exact congrArg (fun l => l.flatMap encodePair ++ [0]) h

theorem perm_of_mem {l l' : List Record} (hn : (l.map Prod.fst).Nodup)
    (hn' : (l'.map Prod.fst).Nodup) (h : ∀ x, x ∈ l ↔ x ∈ l') : l.Perm l' :=
  (List.perm_ext_iff_of_nodup hn.of_map hn'.of_map).mpr h

theorem writeMap_input_congr {p q : PsbtIn} (hp : WellFormedInput p) (hq : WellFormedInput q)
    (h : ∀ x, x ∈ inputRecords p ↔ x ∈ inputRecords q) :
    writeMap (inputPairs p) = writeMap (inputPairs q) := by
  rw [inputPairs_eq hp, inputPairs_eq hq]
  refine writeMap_congr ((perm_of_mem hp.records_nodup hq.records_nodup h).filterMap _) ?_
  exact hp.records_nodup.sublist (encode_keys_sublist _)

theorem writeMap_unknown_congr {p q : List UnknownKv}
    (hp : ((unknownRecords p).map Prod.fst).Nodup) (hq : ((unknownRecords q).map Prod.fst).Nodup)
    (h : ∀ x, x ∈ unknownRecords p ↔ x ∈ unknownRecords q) :
    (p.map fun kv => (kv.key, kv.value)).Perm (q.map fun kv => (kv.key, kv.value)) := by
  have hinj : Function.Injective unknownRecord := fun x y hxy => by
    obtain ⟨k, v⟩ := x
    obtain ⟨k', v'⟩ := y
    simpa [unknownRecord] using hxy
  have hpq : p.Perm q := by
    refine (List.perm_ext_iff_of_nodup hp.of_map.of_map hq.of_map.of_map).mpr fun kv => ?_
    rw [← List.mem_map_of_injective hinj, ← List.mem_map_of_injective (l := q) hinj]
    exact h (unknownRecord kv)
  exact hpq.map _

theorem flatMap_eq_of_getElem? {α β : Type} {f : α → List β} {l l' : List α}
    (hlen : l.length = l'.length)
    (h : ∀ (i : Nat) x y, l[i]? = some x → l'[i]? = some y → f x = f y) :
    l.flatMap f = l'.flatMap f := by
  rw [List.flatMap_def, List.flatMap_def]
  congr 1
  refine List.ext_getElem (by simpa using hlen) fun i hi hi' => ?_
  simp only [List.getElem_map]
  simp only [List.length_map] at hi hi'
  exact h i _ _ (List.getElem?_eq_getElem hi) (List.getElem?_eq_getElem hi')

/-- The bytes of a PSBT are determined by its transaction and its records. -/
theorem serializePsbt_congr {p q : Psbt} (hp : WellFormed p) (hq : WellFormed q)
    (htx : p.unsignedTx = q.unsignedTx)
    (h : ∀ m x, x ∈ mapRecords p m ↔ x ∈ mapRecords q m) :
    serializePsbt p = serializePsbt q := by
  have hglobals : writeMap (([tUnsignedTx], p.unsignedTx.serializeStripped) ::
        p.unknownGlobal.map fun kv => (kv.key, kv.value)) =
      writeMap (([tUnsignedTx], q.unsignedTx.serializeStripped) ::
        q.unknownGlobal.map fun kv => (kv.key, kv.value)) := by
    have hnp := List.nodup_cons.mp hp.globals
    have hnq := List.nodup_cons.mp hq.globals
    rw [htx]
    refine writeMap_congr (List.Perm.cons _ (writeMap_unknown_congr hnp.2 hnq.2 fun x => ?_)) ?_
    · have hx := h .globals x
      simp only [mapRecords, List.mem_cons, htx] at hx
      by_cases he : x = ([tUnsignedTx], .tx q.unsignedTx)
      · subst he
        exact iff_of_false (fun hm => hnp.1 (List.mem_map.mpr ⟨_, hm, rfl⟩))
          (fun hm => hnq.1 (List.mem_map.mpr ⟨_, hm, rfl⟩))
      · simpa only [he, false_or] using hx
    · have heq : (p.unknownGlobal.map fun kv => (kv.key, kv.value)).map Prod.fst =
          (unknownRecords p.unknownGlobal).map Prod.fst := by
        simp [unknownRecords, unknownRecord]
      rw [List.map_cons, heq]
      exact hp.globals
  have hinputs : p.inputs.flatMap (fun input => writeMap (inputPairs input)) =
      q.inputs.flatMap fun input => writeMap (inputPairs input) := by
    refine flatMap_eq_of_getElem? (by rw [hp.inputs_length, hq.inputs_length, htx])
      fun i x y hx hy => writeMap_input_congr (hp.inputs x (List.mem_of_getElem? hx))
        (hq.inputs y (List.mem_of_getElem? hy)) fun z => ?_
    simpa [mapRecords, hx, hy] using h (.input i) z
  have houtputs : p.outputs.flatMap (fun out => writeMap (out.unknown.map fun kv => (kv.key, kv.value))) =
      q.outputs.flatMap fun out => writeMap (out.unknown.map fun kv => (kv.key, kv.value)) := by
    refine flatMap_eq_of_getElem? (by rw [hp.outputs_length, hq.outputs_length, htx])
      fun i x y hx hy => ?_
    have hnx := hp.outputs x (List.mem_of_getElem? hx)
    refine writeMap_congr (writeMap_unknown_congr hnx (hq.outputs y (List.mem_of_getElem? hy))
      fun z => ?_) ?_
    · simpa [mapRecords, hx, hy] using h (.output i) z
    · simpa [unknownRecords, unknownRecord, Function.comp_def] using hnx
  rw [serializePsbt, serializePsbt, hglobals, hinputs, houtputs]

end Yubtc.CanonicalForm
