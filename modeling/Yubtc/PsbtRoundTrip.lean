import Yubtc.GlobalRecords

/-!
# Writing and reading again

What a PSBT is written as is read again as the same records, sorted by key and without the
empty final fields, as long as none of its previous transactions is bare.
-/
namespace Yubtc.PsbtRoundTrip

open LittleEndian Wire Errors ExceptRules Transaction PsbtData PsbtCodec PsbtRecords
  CanonicalForm PsbtReading RecordCodec PsbtLayout GlobalRecords

/-- In the order the writer puts a map in. -/
def sortKeys {α : Type} (l : List (Bytes × α)) : List (Bytes × α) :=
  l.insertionSort fun a b => a.1 ≤ b.1

theorem sortKeys_perm {α : Type} (l : List (Bytes × α)) : (sortKeys l).Perm l :=
  List.perm_insertionSort _ l

theorem mem_sortKeys {α : Type} {l : List (Bytes × α)} {x : Bytes × α} :
    x ∈ sortKeys l ↔ x ∈ l := (sortKeys_perm l).mem_iff

theorem sortKeys_nodup {α : Type} {l : List (Bytes × α)} (h : (l.map Prod.fst).Nodup) :
    ((sortKeys l).map Prod.fst).Nodup :=
  ((sortKeys_perm l).map Prod.fst).nodup_iff.mpr h

theorem sortKeys_pairwise {α : Type} (l : List (Bytes × α)) :
    (sortKeys l).Pairwise fun a b => a.1 ≤ b.1 := by
  have : Std.Total (fun a b : Bytes × α => a.1 ≤ b.1) := ⟨fun a b => Std.Total.total a.1 b.1⟩
  have : IsTrans (Bytes × α) (fun a b => a.1 ≤ b.1) := ⟨fun a b c => IsTrans.trans a.1 b.1 c.1⟩
  exact List.pairwise_insertionSort _ l

theorem eq_sortKeys {α : Type} {l l' : List (Bytes × α)} (hs : l.Pairwise fun a b => a.1 ≤ b.1)
    (hp : l.Perm l') (hn : (l.map Prod.fst).Nodup) : l = sortKeys l' :=
  KeyedList.eq_insertionSort_of_perm (fun (_ _ : Bytes) => List.le_antisymm) Prod.fst hs hp hn

theorem sortKeys_of_sorted {α : Type} {l : List (Bytes × α)}
    (hs : l.Pairwise fun a b => a.1 ≤ b.1) (hn : (l.map Prod.fst).Nodup) : sortKeys l = l :=
  (eq_sortKeys hs (.refl l) hn).symm

/-- Values can be changed before or after sorting. -/
theorem sortKeys_map {α γ : Type} {l : List (Bytes × α)} {g : Bytes × α → Bytes × γ}
    (hg : ∀ x ∈ l, (g x).1 = x.1) (hn : (l.map Prod.fst).Nodup) :
    (sortKeys l).map g = sortKeys (l.map g) := by
  have hkeys : ((sortKeys l).map g).map Prod.fst = (sortKeys l).map Prod.fst := by
    rw [List.map_map]
    exact List.map_congr_left fun x hx => hg x (mem_sortKeys.mp hx)
  refine eq_sortKeys ?_ ((sortKeys_perm l).map g) (hkeys ▸ sortKeys_nodup hn)
  rw [List.pairwise_map]
  refine (sortKeys_pairwise l).imp_of_mem fun {a b} ha hb hab => ?_
  rw [hg a (mem_sortKeys.mp ha), hg b (mem_sortKeys.mp hb)]
  exact hab

theorem sortKeys_filter {α : Type} {l : List (Bytes × α)} (p : Bytes × α → Bool)
    (hn : (l.map Prod.fst).Nodup) : (sortKeys l).filter p = sortKeys (l.filter p) :=
  eq_sortKeys ((sortKeys_pairwise l).filter p) ((sortKeys_perm l).filter p)
    ((sortKeys_nodup hn).sublist (List.filter_sublist.map Prod.fst))

theorem flatMap_length_perm {α : Type} {l l' : List α} {encode : α → Bytes} (h : l.Perm l') :
    (l.flatMap encode).length = (l'.flatMap encode).length :=
  (h.flatMap_right encode).length_eq

instance (x : Record) : Decidable (EmptyFinal x) :=
  inferInstanceAs (Decidable ((x.1 = [tFinalScriptsig] ∨ x.1 = [tFinalScriptwitness]) ∧
    x.2 = .bytes []))

/-- The records that are written. -/
def writtenRecords (l : List Record) : List Record := l.filter fun x => ¬ EmptyFinal x

/-- The pair of a record that is written. -/
def recordPair (x : Record) : Bytes × Bytes := (encodeRecord x).getD ([], [])

theorem encodeRecord_written {x : Record} (h : ¬ EmptyFinal x) :
    encodeRecord x = some (recordPair x) := by
  unfold recordPair
  cases he : encodeRecord x with
  | none => exact absurd (encodeRecord_eq_none.mp he) h
  | some pair => rfl

theorem filterMap_encodeRecord (l : List Record) :
    l.filterMap encodeRecord = (writtenRecords l).map recordPair := by
  induction l with
  | nil => rfl
  | cons x l ih =>
    by_cases hx : EmptyFinal x
    · rw [List.filterMap_cons_none (encodeRecord_eq_none.mpr hx), ih, writtenRecords,
        writtenRecords, List.filter_cons_of_neg (by simpa using hx)]
    · rw [List.filterMap_cons_some (encodeRecord_written hx), ih, writtenRecords,
        writtenRecords, List.filter_cons_of_pos (by simpa using hx), List.map_cons]

theorem mem_writtenRecords {l : List Record} {x : Record} :
    x ∈ writtenRecords l ↔ x ∈ l ∧ ¬ EmptyFinal x := by
  rw [writtenRecords, List.mem_filter, decide_eq_true_eq]

theorem recordPair_key {l : List Record} : ∀ x ∈ writtenRecords l, (recordPair x).1 = x.1 :=
  fun _ hx => encodeRecord_key (encodeRecord_written (mem_writtenRecords.mp hx).2)

theorem writtenRecords_nodup {l : List Record} (h : (l.map Prod.fst).Nodup) :
    ((writtenRecords l).map Prod.fst).Nodup :=
  h.sublist (List.filter_sublist.map Prod.fst)

/-- An input map is written as its records in key order. -/
theorem sortKeys_inputPairs {input : PsbtIn} (h : WellFormedInput input) :
    sortKeys (inputPairs input) =
      (sortKeys (writtenRecords (inputRecords input))).map recordPair := by
  rw [inputPairs_eq h, filterMap_encodeRecord,
    sortKeys_map recordPair_key (writtenRecords_nodup h.records_nodup)]

theorem filter_inputRecords {input : PsbtIn} (h : WellFormedInput input) (f : Field) :
    ((inputRecords input).filter fun x => keyField x.1 = f).Perm (fieldRecords input f) := by
  refine perm_of_mem (h.records_nodup.sublist (List.filter_sublist.map Prod.fst)) (h.nodup f)
    fun x => ?_
  rw [List.mem_filter, mem_inputRecords, decide_eq_true_eq]
  constructor
  · rintro ⟨⟨g, hx⟩, hf⟩
    rwa [← hf, h.classified g x hx]
  · intro hx
    exact ⟨⟨f, hx⟩, h.classified f x hx⟩

/-- The map that comes back: each field sorted, empty final fields gone. -/
structure Reread (input input' : PsbtIn) : Prop where
  wellFormed : WellFormedInput input'
  fields : ∀ f, fieldRecords input' f = sortKeys (writtenRecords (fieldRecords input f))

theorem parseInputMap_written {input : PsbtIn} (h : WellFormedInput input)
    (hread : ∀ x ∈ writtenRecords (inputRecords input), Readable x)
    (hsmall : (encodeMap (sortKeys (inputPairs input))).length < 2 ^ 64) :
    ∃ input', parseInputMap (sortKeys (inputPairs input)) = .ok input' ∧ Reread input input' := by
  have hnodup := writtenRecords_nodup h.records_nodup
  have hdecodes : List.Forall₂ Decodes (sortKeys (inputPairs input))
      (sortKeys (writtenRecords (inputRecords input))) := by
    rw [sortKeys_inputPairs h] at hsmall ⊢
    rw [List.forall₂_map_left_iff, List.forall₂_same]
    intro x hx
    have hmem := mem_sortKeys.mp hx
    refine decodes_encodeRecord (hread x hmem)
      (encodeRecord_written (mem_writtenRecords.mp hmem).2) ?_
    have hpair : recordPair x ∈ (sortKeys (writtenRecords (inputRecords input))).map recordPair :=
      List.mem_map_of_mem hx
    have hle := length_le_of_mem encodePair hpair
    rw [encodePair_length] at hle
    rw [encodeMap, List.length_append] at hsmall
    omega
  have hparse := parseInputMap_eq_ok.mpr ⟨_, hdecodes, rfl⟩
  refine ⟨_, hparse, parseInputMap_wellFormed ?_ hparse, fun f => ?_⟩
  · rw [← decodes_keys hdecodes]
    exact sortKeys_nodup hnodup
  · have hdecoded : ∀ x ∈ sortKeys (writtenRecords (inputRecords input)), Decoded x := by
      intro x hx
      obtain ⟨_, -, hd⟩ := forall_decoded hdecodes x hx
      exact hd.decoded
    rw [fieldRecords_foldl hdecoded (sortKeys_nodup hnodup), sortKeys_filter _ hnodup]
    refine eq_sortKeys (sortKeys_pairwise _) ?_ (sortKeys_nodup (hnodup.sublist
      (List.filter_sublist.map Prod.fst)))
    refine (sortKeys_perm _).trans ?_
    rw [writtenRecords, List.filter_filter, writtenRecords]
    have hcomm : (inputRecords input).filter
        (fun x => decide (keyField x.1 = f) && decide (¬ EmptyFinal x)) =
        ((inputRecords input).filter fun x => keyField x.1 = f).filter
          fun x => ¬ EmptyFinal x := by
      rw [List.filter_filter]
      exact List.filter_congr fun x _ => Bool.and_comm _ _
    rw [hcomm]
    exact (filter_inputRecords h f).filter _

def sortKvs (unknown : List UnknownKv) : List UnknownKv :=
  (sortKeys (unknown.map written)).map kept

/-- What the serializer lays out. -/
def writtenLayout (psbt : Psbt) : Layout where
  globals := sortKeys (txPair psbt.unsignedTx :: psbt.unknownGlobal.map written)
  inputs := psbt.inputs.map fun input => sortKeys (inputPairs input)
  outputs := psbt.outputs.map fun out => sortKeys (out.unknown.map written)

theorem serializePsbt_eq (psbt : Psbt) : serializePsbt psbt = (writtenLayout psbt).bytes := by
  simp only [serializePsbt, Layout.bytes, writtenLayout, List.flatMap_map, List.append_assoc]
  rfl

/-- A PSBT with keys that the reader takes and a transaction that fits. -/
structure Writable (psbt : Psbt) : Prop where
  wellFormed : WellFormed psbt
  hashes : Fits psbt.unsignedTx
  unsigned : ∀ vin ∈ psbt.unsignedTx.vin, vin.script = [] ∧ vin.witness = []
  vout : psbt.unsignedTx.vout ≠ []
  globals : ∀ kv ∈ psbt.unknownGlobal, GlobalKey kv.key
  inputs : ∀ input ∈ psbt.inputs, ∀ x ∈ inputRecords input, InputKey x.1
  outputs : ∀ out ∈ psbt.outputs, ∀ kv ∈ out.unknown, OutputKey kv.key
  size : (serializePsbt psbt).length ≤ psbtMaxSize

theorem key_ne_nil {key : Bytes} (h : ∃ s, splitKey key = .ok s) : key ≠ [] := by
  rintro rfl
  obtain ⟨s, hs⟩ := h
  cases hs

theorem map_written_keys (unknown : List UnknownKv) :
    (unknown.map written).map Prod.fst = (unknownRecords unknown).map Prod.fst := by
  rw [unknownRecords, List.map_map, List.map_map]
  rfl

theorem globals_nodup {psbt : Psbt} (h : WellFormed psbt) :
    ((txPair psbt.unsignedTx :: psbt.unknownGlobal.map written).map Prod.fst).Nodup := by
  have hn := h.globals
  rw [mapRecords, List.map_cons, ← map_written_keys] at hn
  exact hn

theorem writtenLayout_sound {psbt : Psbt} (h : Writable psbt) : (writtenLayout psbt).Sound := by
  refine ⟨⟨fun p hp => ?_, sortKeys_nodup (globals_nodup h.wellFormed)⟩, fun pairs hp => ?_,
    fun pairs hp => ?_⟩
  · cases List.mem_cons.mp (mem_sortKeys.mp hp) with
    | inl he =>
      rw [he]
      exact List.cons_ne_nil _ _
    | inr hp =>
      obtain ⟨kv, hkv, rfl⟩ := List.mem_map.mp hp
      exact key_ne_nil (h.globals kv hkv).split
  · obtain ⟨input, hin, rfl⟩ := List.mem_map.mp hp
    have hwf := h.wellFormed.inputs input hin
    rw [sortKeys_inputPairs hwf]
    have hkeys : ((sortKeys (writtenRecords (inputRecords input))).map recordPair).map Prod.fst =
        (sortKeys (writtenRecords (inputRecords input))).map Prod.fst := by
      rw [List.map_map]
      exact List.map_congr_left fun x hx => recordPair_key x (mem_sortKeys.mp hx)
    constructor
    · intro p hp
      obtain ⟨x, hx, rfl⟩ := List.mem_map.mp hp
      have hmem := mem_sortKeys.mp hx
      rw [recordPair_key x hmem]
      exact key_ne_nil (h.inputs input hin x (mem_writtenRecords.mp hmem).1).split
    · rw [hkeys]
      exact sortKeys_nodup (writtenRecords_nodup hwf.records_nodup)
  · obtain ⟨out, hout, rfl⟩ := List.mem_map.mp hp
    constructor
    · intro p hp
      obtain ⟨kv, hkv, rfl⟩ := List.mem_map.mp (mem_sortKeys.mp hp)
      exact key_ne_nil (h.outputs out hout kv hkv).split
    · refine sortKeys_nodup ?_
      rw [map_written_keys]
      exact h.wellFormed.outputs out hout

theorem tx_key_first {key : Bytes} (h : key ≠ []) : [tUnsignedTx] ≤ key := by
  cases key with
  | nil => exact absurd rfl h
  | cons b rest =>
    rw [List.cons_le_cons_iff]
    by_cases hb : b = tUnsignedTx
    · exact .inr ⟨hb.symm, List.nil_le _⟩
    · refine .inl (UInt8.lt_iff_toNat_lt.mpr (Nat.pos_of_ne_zero fun h0 => hb ?_))
      exact UInt8.toNat_inj.mp h0

/-- The transaction's pair comes first. -/
theorem sortKeys_globals {psbt : Psbt} (h : ∀ kv ∈ psbt.unknownGlobal, GlobalKey kv.key) :
    sortKeys (txPair psbt.unsignedTx :: psbt.unknownGlobal.map written) =
      txPair psbt.unsignedTx :: sortKeys (psbt.unknownGlobal.map written) := by
  refine List.insertionSort_cons_of_forall_rel _ fun p hp => tx_key_first ?_
  obtain ⟨kv, hkv, rfl⟩ := List.mem_map.mp hp
  exact key_ne_nil (h kv hkv).split

/-- The transaction is a part of the PSBT. -/
theorem stripped_small {psbt : Psbt} (h : (serializePsbt psbt).length ≤ psbtMaxSize) :
    psbt.unsignedTx.serializeStripped.length < 2 ^ 64 := by
  have hmem : txPair psbt.unsignedTx ∈ (writtenLayout psbt).globals :=
    mem_sortKeys.mpr List.mem_cons_self
  have hle := length_le_of_mem encodePair hmem
  rw [serializePsbt_eq] at h
  simp only [Layout.bytes, encodeMap, List.length_append] at h
  rw [encodePair_length, txPair] at hle
  have hmax : psbtMaxSize < 2 ^ 64 := by decide
  dsimp only at hle
  omega

theorem foldlM_writtenGlobals {psbt : Psbt} (h : Writable psbt) :
    (writtenLayout psbt).globals.foldlM parseGlobalPair ⟨0, none, []⟩ =
      .ok ⟨0, some psbt.unsignedTx, sortKvs psbt.unknownGlobal⟩ := by
  have hlayout : (writtenLayout psbt).globals =
      txPair psbt.unsignedTx :: sortKeys (psbt.unknownGlobal.map written) :=
    sortKeys_globals h.globals
  have hsmall := stripped_small h.size
  have hvalue : UnsignedValue psbt.unsignedTx.serializeStripped psbt.unsignedTx := by
    refine ⟨?_, h.vout, fun vin hvin => (h.unsigned vin hvin).1⟩
    rw [parseTx_serializeStripped (stripped_inRange h.hashes hsmall) fun hc => absurd hc Bool.false_ne_true,
      map_bareInput fun vin hvin => (h.unsigned vin hvin).2]
  have hkeys : ∀ p ∈ sortKeys (psbt.unknownGlobal.map written), GlobalKey p.1 := by
    intro p hp
    obtain ⟨kv, hkv, rfl⟩ := List.mem_map.mp (mem_sortKeys.mp hp)
    exact h.globals kv hkv
  rw [hlayout, List.foldlM_cons, txPair, parseGlobalPair_unsignedTx hvalue, ok_bind,
    foldlM_kept hkeys]
  rfl

theorem writtenLayout_counted {psbt : Psbt} (h : Writable psbt) : (writtenLayout psbt).Counted := by
  refine ⟨_, _, foldlM_writtenGlobals h, rfl, ?_, ?_⟩
  · rw [writtenLayout, List.length_map, h.wellFormed.inputs_length]
  · rw [writtenLayout, List.length_map, h.wellFormed.outputs_length]

/-- Every input map can be read again. -/
def RereadableInputs (psbt : Psbt) : Prop :=
  ∀ input ∈ psbt.inputs, ∀ x ∈ writtenRecords (inputRecords input), Readable x

/-- What comes back of a PSBT. -/
structure RereadAs (psbt psbt' : Psbt) : Prop where
  version : psbt'.version = 0
  unsignedTx : psbt'.unsignedTx = psbt.unsignedTx
  globals : psbt'.unknownGlobal = sortKvs psbt.unknownGlobal
  inputs : List.Forall₂ Reread psbt.inputs psbt'.inputs
  outputs : psbt'.outputs = psbt.outputs.map fun out => ⟨sortKvs out.unknown⟩

theorem parse_inputs {psbt : Psbt} (h : Writable psbt) (hread : RereadableInputs psbt) :
    ∃ inputs, (writtenLayout psbt).inputs.mapM parseInputMap = .ok inputs ∧
      List.Forall₂ Reread psbt.inputs inputs := by
  have hsize := h.size
  rw [serializePsbt_eq] at hsize
  obtain ⟨-, hin, -⟩ := (writtenLayout_sound h).readMaps hsize
  have hone : ∀ input ∈ psbt.inputs, ∃ input',
      parseInputMap (sortKeys (inputPairs input)) = .ok input' ∧ Reread input input' := by
    intro input hmem
    exact parseInputMap_written (h.wellFormed.inputs input hmem) (hread input hmem)
      (hin _ (List.mem_map_of_mem hmem)).2
  have hall : ∀ l : List PsbtIn, (∀ input ∈ l, ∃ input',
      parseInputMap (sortKeys (inputPairs input)) = .ok input' ∧ Reread input input') →
      ∃ inputs, (l.map fun input => sortKeys (inputPairs input)).mapM parseInputMap = .ok inputs ∧
        List.Forall₂ Reread l inputs := by
    intro l hl
    induction l with
    | nil => exact ⟨[], rfl, .nil⟩
    | cons input l ih =>
      obtain ⟨input', hparse, hr⟩ := hl input List.mem_cons_self
      obtain ⟨inputs, hrest, hrs⟩ := ih fun x hx => hl x (List.mem_cons_of_mem _ hx)
      refine ⟨input' :: inputs, ?_, .cons hr hrs⟩
      rw [List.map_cons, List.mapM_cons, hparse, ok_bind, hrest, ok_bind]
      rfl
  exact hall psbt.inputs hone

theorem parse_outputs {psbt : Psbt} (h : Writable psbt) :
    (writtenLayout psbt).outputs.mapM parseOutputMap =
      .ok (psbt.outputs.map fun out => ⟨sortKvs out.unknown⟩) := by
  rw [mapM_eq_ok, writtenLayout, List.forall₂_map_left_iff, List.forall₂_map_right_iff,
    List.forall₂_same]
  intro out hout
  refine parseOutputMap_eq_ok.mpr ⟨fun p hp => ?_, rfl⟩
  obtain ⟨kv, hkv, rfl⟩ := List.mem_map.mp (mem_sortKeys.mp hp)
  exact h.outputs out hout kv hkv

/-- Writing and reading again. -/
theorem parsePsbt_serializePsbt {psbt : Psbt} (h : Writable psbt) (hread : RereadableInputs psbt) :
    ∃ psbt', parsePsbt (serializePsbt psbt) = .ok psbt' ∧ RereadAs psbt psbt' := by
  obtain ⟨inputs, hinputs, hreread⟩ := parse_inputs h hread
  have hsize := h.size
  rw [serializePsbt_eq] at hsize ⊢
  refine ⟨⟨0, psbt.unsignedTx, inputs, psbt.outputs.map fun out => ⟨sortKvs out.unknown⟩,
    sortKvs psbt.unknownGlobal⟩, ?_, rfl, rfl, rfl, hreread, rfl⟩
  refine parsePsbt_bytes (writtenLayout_sound h) ⟨foldlM_writtenGlobals h, ?_, ?_, hinputs,
    parse_outputs h⟩ hsize
  · rw [writtenLayout, List.length_map, h.wellFormed.inputs_length]
  · rw [writtenLayout, List.length_map, h.wellFormed.outputs_length]

end Yubtc.PsbtRoundTrip
