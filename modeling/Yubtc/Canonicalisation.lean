import Yubtc.PsbtRoundTrip

/-!
# One pass is canonical

A PSBT that was read can be written and read again: what comes back has the same records, and a
PSBT already in the writer's form comes back byte for byte. A bare previous transaction is the
exception; it is written as something that announces witness stacks.
-/
namespace Yubtc.Canonicalisation

open LittleEndian Wire Errors ExceptRules Transaction PsbtData PsbtCodec PsbtRecords
  CanonicalForm PsbtReading RecordCodec PsbtLayout GlobalRecords PsbtRoundTrip

/-- An input map holds the records that its pairs decode to. -/
theorem inputRecords_perm {pairs : List (Bytes × Bytes)} {input : PsbtIn}
    (hn : (pairs.map Prod.fst).Nodup) (h : parseInputMap pairs = .ok input) :
    ∃ xs, List.Forall₂ Decodes pairs xs ∧ (inputRecords input).Perm xs := by
  obtain ⟨xs, hxs, rfl⟩ := parseInputMap_eq_ok.mp h
  have hdecoded : ∀ x ∈ xs, Decoded x := by
    intro x hx
    obtain ⟨_, -, hd⟩ := forall_decoded hxs x hx
    exact hd.decoded
  have hnx : (xs.map Prod.fst).Nodup := decodes_keys hxs ▸ hn
  refine ⟨xs, hxs, perm_of_mem (parseInputMap_wellFormed hn h).records_nodup hnx fun x => ?_⟩
  simp only [mem_inputRecords, fieldRecords_foldl hdecoded hnx, List.mem_filter, decide_eq_true_eq]
  exact ⟨fun ⟨_, hx, _⟩ => hx, fun hx => ⟨_, hx, rfl⟩⟩

theorem filterMap_encode_length {pairs : List (Bytes × Bytes)} {xs : List Record}
    (h : List.Forall₂ Decodes pairs xs) :
    ((xs.filterMap encodeRecord).flatMap encodePair).length ≤ (pairs.flatMap encodePair).length := by
  induction h with
  | nil => exact le_rfl
  | @cons pair x pairs xs hx _ ih =>
    rw [List.flatMap_cons, List.length_append]
    cases he : encodeRecord x with
    | none =>
      rw [List.filterMap_cons_none he]
      omega
    | some pair' =>
      have hle := hx.length_le he
      rw [List.filterMap_cons_some he, List.flatMap_cons, List.length_append]
      omega

theorem encodeMap_length (pairs : List (Bytes × Bytes)) :
    (encodeMap pairs).length = (pairs.flatMap encodePair).length + 1 := by
  rw [encodeMap, List.length_append, List.length_singleton]

theorem encodeMap_sortKeys_length (pairs : List (Bytes × Bytes)) :
    (encodeMap (sortKeys pairs)).length = (encodeMap pairs).length := by
  rw [encodeMap_length, encodeMap_length, flatMap_length_perm (sortKeys_perm pairs)]

/-- No map is written longer than it was read. -/
theorem writtenInput_length {pairs : List (Bytes × Bytes)} {input : PsbtIn}
    (hn : (pairs.map Prod.fst).Nodup) (h : parseInputMap pairs = .ok input) :
    (encodeMap (sortKeys (inputPairs input))).length ≤ (encodeMap pairs).length := by
  obtain ⟨xs, hxs, hp⟩ := inputRecords_perm hn h
  rw [encodeMap_sortKeys_length, encodeMap_length, encodeMap_length,
    inputPairs_eq (parseInputMap_wellFormed hn h), flatMap_length_perm (hp.filterMap encodeRecord)]
  exact Nat.succ_le_succ (filterMap_encode_length hxs)

theorem flatMap_encodeMap_length {α : Type} {maps : List (List (Bytes × Bytes))} {as : List α}
    {parse : List (Bytes × Bytes) → Except PsbtError α} {w : α → List (Bytes × Bytes)}
    (hlen : ∀ pairs a, pairs ∈ maps → parse pairs = .ok a →
      (encodeMap (w a)).length ≤ (encodeMap pairs).length)
    (h : maps.mapM parse = .ok as) :
    ((as.map w).flatMap encodeMap).length ≤ (maps.flatMap encodeMap).length := by
  induction maps generalizing as with
  | nil =>
    cases h
    exact le_rfl
  | cons pairs maps ih =>
    rw [List.mapM_cons] at h
    obtain ⟨a, ha, h⟩ := bind_eq_ok.mp h
    obtain ⟨as, has, h⟩ := bind_eq_ok.mp h
    cases h
    have hfirst := hlen pairs a List.mem_cons_self ha
    have hrest := ih (fun p b hp => hlen p b (List.mem_cons_of_mem _ hp)) has
    simp only [List.map_cons, List.flatMap_cons, List.length_append]
    omega

theorem writtenOutput_length {pairs : List (Bytes × Bytes)} {out : PsbtOut}
    (h : parseOutputMap pairs = .ok out) :
    (encodeMap (sortKeys (out.unknown.map written))).length ≤ (encodeMap pairs).length := by
  obtain ⟨-, rfl⟩ := parseOutputMap_eq_ok.mp h
  rw [map_written_kept, encodeMap_sortKeys_length]

/-- What the layout's maps say about a PSBT that was read from it. -/
theorem interprets_globals {l : Layout} {psbt : Psbt} (hs : l.Sound) (h : l.Interprets psbt) :
    GlobalsRead l.globals ⟨psbt.version, some psbt.unsignedTx, psbt.unknownGlobal⟩ :=
  foldlM_parseGlobalPair hs.globals.nodup h.globals

theorem writtenLayout_length {l : Layout} {psbt : Psbt} (hs : l.Sound) (h : l.Interprets psbt) :
    (writtenLayout psbt).bytes.length ≤ l.bytes.length := by
  have hglobals := (interprets_globals hs h).size
  have hin := flatMap_encodeMap_length (w := fun input => sortKeys (inputPairs input))
    (fun pairs a hp ha => writtenInput_length (hs.inputs pairs hp).nodup ha) h.inputs
  have hout := flatMap_encodeMap_length
    (w := fun out : PsbtOut => sortKeys (out.unknown.map written))
    (fun pairs a _ ha => writtenOutput_length ha) h.outputs
  have hfirst := encodeMap_sortKeys_length (txPair psbt.unsignedTx :: psbt.unknownGlobal.map written)
  have hpairs : globalPairs ⟨psbt.version, some psbt.unsignedTx, psbt.unknownGlobal⟩ =
      txPair psbt.unsignedTx :: psbt.unknownGlobal.map written := rfl
  rw [hpairs] at hglobals
  rw [encodeMap_length (txPair _ :: _)] at hfirst
  simp only [Layout.bytes, writtenLayout, List.length_append, encodeMap_length l.globals]
  omega

/-- Every PSBT that was read can be written. -/
theorem parsed_writable {data : Bytes} {psbt : Psbt} (h : parsePsbt data = .ok psbt) :
    Writable psbt := by
  obtain ⟨l, -, hinterprets, hsound, hbytes, hsize⟩ := parsePsbt_layout h
  have hglobals := interprets_globals hsound hinterprets
  obtain ⟨value, -, hvalue⟩ := hglobals.unsignedTx _ rfl
  obtain ⟨hfits, hwitness, -⟩ := parseTx_spec hvalue.parses
  refine ⟨parsePsbt_wellFormed h, hfits,
    fun vin hvin => ⟨hvalue.scripts vin hvin, hwitness rfl vin hvin⟩, hvalue.vout,
    hglobals.unknown, ?_, ?_, ?_⟩
  · intro input hin x hx
    obtain ⟨i, hi⟩ := List.mem_iff_getElem?.mp hin
    obtain ⟨pairs, hpairs, hparse⟩ := mapM_getElem? hinterprets.inputs i input hi
    have hn := (hsound.inputs pairs (List.mem_of_getElem? hpairs)).nodup
    obtain ⟨xs, hxs, hp⟩ := inputRecords_perm hn hparse
    obtain ⟨_, -, hd⟩ := forall_decoded hxs x (hp.mem_iff.mp hx)
    exact hd.fits
  · intro out hout kv hkv
    obtain ⟨i, hi⟩ := List.mem_iff_getElem?.mp hout
    obtain ⟨pairs, hpairs, hparse⟩ := mapM_getElem? hinterprets.outputs i out hi
    obtain ⟨hkeys, rfl⟩ := parseOutputMap_eq_ok.mp hparse
    obtain ⟨p, hp, rfl⟩ := List.mem_map.mp hkv
    exact hkeys p hp
  · rw [serializePsbt_eq]
    exact ((writtenLayout_length hsound hinterprets).trans hbytes).trans hsize

/-- A map in key order. -/
def Sorted (pairs : List (Bytes × Bytes)) : Prop := pairs.Pairwise fun p q => p.1 ≤ q.1

instance (pairs : List (Bytes × Bytes)) : Decidable (Sorted pairs) :=
  inferInstanceAs (Decidable (pairs.Pairwise fun p q => p.1 ≤ q.1))

/-- Data in the writer's form, with the maps that stand in it. That writing the maps gives the
data back says that every count and length of the container is minimal. -/
structure Canonical (data : Bytes) (l : Layout) : Prop where
  maps : rawMaps data = .ok l
  minimal : l.bytes = data
  sorted : Sorted l.globals ∧ (∀ pairs ∈ l.inputs, Sorted pairs) ∧
    ∀ pairs ∈ l.outputs, Sorted pairs
  globals : CanonicalGlobals l.globals
  inputs : ∀ pairs ∈ l.inputs, ∀ p ∈ pairs, CanonicalValue p.2 (keyField p.1)

theorem filterMap_encode_canonical {pairs : List (Bytes × Bytes)} {xs : List Record}
    (h : List.Forall₂ Decodes pairs xs)
    (hc : ∀ p ∈ pairs, CanonicalValue p.2 (keyField p.1)) : xs.filterMap encodeRecord = pairs := by
  induction h with
  | nil => rfl
  | @cons pair x pairs xs hx _ ih =>
    rw [List.filterMap_cons_some (hx.canonical (hc pair List.mem_cons_self)),
      ih fun p hp => hc p (List.mem_cons_of_mem _ hp)]

theorem sortKeys_canonical {pairs : List (Bytes × Bytes)} {input : PsbtIn}
    (hn : (pairs.map Prod.fst).Nodup) (h : parseInputMap pairs = .ok input) (hs : Sorted pairs)
    (hc : ∀ p ∈ pairs, CanonicalValue p.2 (keyField p.1)) :
    sortKeys (inputPairs input) = pairs := by
  obtain ⟨xs, hxs, hp⟩ := inputRecords_perm hn h
  refine (eq_sortKeys hs ?_ hn).symm
  have hperm := hp.filterMap encodeRecord
  rw [filterMap_encode_canonical hxs hc] at hperm
  rw [inputPairs_eq (parseInputMap_wellFormed hn h)]
  exact hperm.symm

theorem map_eq_of_mapM {α : Type} {maps : List (List (Bytes × Bytes))} {as : List α}
    {parse : List (Bytes × Bytes) → Except PsbtError α} {w : α → List (Bytes × Bytes)}
    (hw : ∀ pairs a, pairs ∈ maps → parse pairs = .ok a → w a = pairs)
    (h : maps.mapM parse = .ok as) : as.map w = maps := by
  induction maps generalizing as with
  | nil =>
    cases h
    rfl
  | cons pairs maps ih =>
    rw [List.mapM_cons] at h
    obtain ⟨a, ha, h⟩ := bind_eq_ok.mp h
    obtain ⟨as, has, h⟩ := bind_eq_ok.mp h
    cases h
    rw [List.map_cons, hw pairs a List.mem_cons_self ha,
      ih (fun p b hp => hw p b (List.mem_cons_of_mem _ hp)) has]

theorem writtenLayout_canonical {data : Bytes} {l : Layout} {psbt : Psbt} (hs : l.Sound)
    (h : l.Interprets psbt) (hc : Canonical data l) : writtenLayout psbt = l := by
  obtain ⟨hglobals, hinputs, houtputs⟩ := hc.sorted
  have hfirst : sortKeys (txPair psbt.unsignedTx :: psbt.unknownGlobal.map written) = l.globals :=
    (eq_sortKeys hglobals ((interprets_globals hs h).canonical hc.globals) hs.globals.nodup).symm
  have hin : psbt.inputs.map (fun input => sortKeys (inputPairs input)) = l.inputs :=
    map_eq_of_mapM (fun pairs a hp ha => sortKeys_canonical (hs.inputs pairs hp).nodup ha
      (hinputs pairs hp) (hc.inputs pairs hp)) h.inputs
  have hout : psbt.outputs.map (fun out => sortKeys (out.unknown.map written)) = l.outputs := by
    refine map_eq_of_mapM (fun pairs a hp ha => ?_) h.outputs
    obtain ⟨-, rfl⟩ := parseOutputMap_eq_ok.mp ha
    rw [map_written_kept]
    exact sortKeys_of_sorted (houtputs pairs hp) (hs.outputs pairs hp).nodup
  rw [writtenLayout, hfirst, hin, hout]

/-- Every pair of a type that the reader does not know is kept as it is. -/
structure KeepsUnknown (l : Layout) (psbt : Psbt) : Prop where
  globals : ∀ p ∈ l.globals, p.1 ≠ [tUnsignedTx] → kept p ∈ psbt.unknownGlobal
  inputs : ∀ (i : Nat) pairs input, l.inputs[i]? = some pairs → psbt.inputs[i]? = some input →
    ∀ p ∈ pairs, keyField p.1 = .unknown → kept p ∈ input.unknown
  outputs : ∀ (i : Nat) pairs out, l.outputs[i]? = some pairs → psbt.outputs[i]? = some out →
    out.unknown = pairs.map kept

theorem keeps_unknown_input {pairs : List (Bytes × Bytes)} {input : PsbtIn}
    (hn : (pairs.map Prod.fst).Nodup) (h : parseInputMap pairs = .ok input)
    {p : Bytes × Bytes} (hp : p ∈ pairs) (hkey : keyField p.1 = .unknown) :
    kept p ∈ input.unknown := by
  obtain ⟨xs, hxs, hperm⟩ := inputRecords_perm hn h
  obtain ⟨x, hx, hd⟩ := exists_decoded hxs p hp
  obtain ⟨f, hf⟩ := mem_inputRecords.mp (hperm.mem_iff.mpr hx)
  have hxkey : keyField x.1 = .unknown := hd.key ▸ hkey
  have hclass := (parseInputMap_wellFormed hn h).classified f x hf
  rw [← hclass, hxkey] at hf
  obtain ⟨kv, hkv, rfl⟩ := List.mem_map.mp hf
  have hvalue := hd.value
  rw [hxkey] at hvalue
  obtain ⟨key, value⟩ := p
  obtain rfl : kv.key = key := hd.key
  obtain rfl : value = kv.value := RecordValue.bytes.inj (Option.some.inj hvalue)
  exact hkv

theorem keepsUnknown {data : Bytes} {l : Layout} {psbt : Psbt} (hs : l.Sound)
    (h : l.Interprets psbt) (hc : Canonical data l) : KeepsUnknown l psbt := by
  refine ⟨fun p hp hkey => ?_, fun i pairs input hpairs hinput p hp hkey => ?_,
    fun i pairs out hpairs hout => ?_⟩
  · have hmem := ((interprets_globals hs h).canonical hc.globals).mem_iff.mp hp
    cases List.mem_cons.mp hmem with
    | inl he => exact absurd (congrArg Prod.fst he) hkey
    | inr hmem =>
      obtain ⟨kv, hkv, rfl⟩ := List.mem_map.mp hmem
      exact hkv
  · obtain ⟨pairs', hpairs', hparse⟩ := mapM_getElem? h.inputs i input hinput
    cases hpairs.symm.trans hpairs'
    exact keeps_unknown_input (hs.inputs pairs (List.mem_of_getElem? hpairs)).nodup hparse hp hkey
  · obtain ⟨pairs', hpairs', hparse⟩ := mapM_getElem? h.outputs i out hout
    cases hpairs.symm.trans hpairs'
    obtain ⟨-, rfl⟩ := parseOutputMap_eq_ok.mp hparse
    rfl

/-- Data in the writer's form comes back byte for byte. -/
theorem serializePsbt_parsePsbt {data : Bytes} {psbt : Psbt} {l : Layout}
    (h : parsePsbt data = .ok psbt) (hc : Canonical data l) :
    serializePsbt psbt = data ∧ KeepsUnknown l psbt := by
  obtain ⟨l', hl', hinterprets, hsound, -, -⟩ := parsePsbt_layout h
  cases hc.maps.symm.trans hl'
  refine ⟨?_, keepsUnknown hsound hinterprets hc⟩
  rw [serializePsbt_eq, writtenLayout_canonical hsound hinterprets hc, hc.minimal]

/-- A transaction with one input and one output. -/
def samplePrev : PsbtTransaction :=
  ⟨2, [⟨List.replicate 32 0x22, 1, [0x51], 0xffffffff, []⟩], [⟨5000, [0x51]⟩], 0⟩

/-- The spend of its output. -/
def sampleTx : PsbtTransaction :=
  ⟨2, [⟨List.replicate 32 0x33, 0, [], 0xffffffff, []⟩], [⟨4000, [0x52]⟩], 0⟩

/-- Known and unknown types next to each other, in key order. -/
def sampleLayout : Layout where
  globals := [txPair sampleTx, ([0xfc, 0x01], [0x07])]
  inputs := [[([tUnsignedTx], samplePrev.serializeWire), ([tRedeemScript], [0x51]),
    ([0x0f, 0x02], []), ([tInTapInternalKey], List.replicate 32 0x44)]]
  outputs := [[([0x03], [0x01]), ([0xfc], [0x02])]]

/-- What it is read as. -/
def samplePsbt : Psbt where
  version := 0
  unsignedTx := sampleTx
  inputs := [{ emptyInput with
    nonWitnessUtxo := some samplePrev
    redeemScript := some [0x51]
    tapInternalKey := some (List.replicate 32 0x44)
    unknown := [⟨[0x0f, 0x02], []⟩] }]
  outputs := [⟨[⟨[0x03], [0x01]⟩, ⟨[0xfc], [0x02]⟩]⟩]
  unknownGlobal := [⟨[0xfc, 0x01], [0x07]⟩]

theorem samplePsbt_parsed : parsePsbt sampleLayout.bytes = .ok samplePsbt := by decide +kernel

theorem sampleLayout_maps : rawMaps sampleLayout.bytes = .ok sampleLayout := by decide +kernel

theorem samplePrev_parsed : parseTx samplePrev.serializeWire true = .ok samplePrev := by
  decide +kernel

theorem serializePsbt_parsePsbt_sample :
    serializePsbt samplePsbt = sampleLayout.bytes ∧ KeepsUnknown sampleLayout samplePsbt := by
  have htx : parseTx sampleTx.serializeStripped false = .ok sampleTx := by decide +kernel
  refine serializePsbt_parsePsbt samplePsbt_parsed ⟨sampleLayout_maps, rfl, by decide +kernel, ?_, ?_⟩
  · simp only [CanonicalGlobals, sampleLayout, txPair, List.forall_mem_cons, List.not_mem_nil]
    refine ⟨⟨by decide, fun _ tx hparsed => ?_⟩, ⟨by decide, fun hkey => absurd hkey (by decide)⟩,
      fun _ hin => hin.elim⟩
    cases htx.symm.trans hparsed
    rfl
  · simp only [sampleLayout, List.forall_mem_cons, List.not_mem_nil]
    refine ⟨⟨fun t hparsed => ?_, trivial, trivial, trivial, fun _ hin => hin.elim⟩, fun _ hin => hin.elim⟩
    cases samplePrev_parsed.symm.trans hparsed
    rfl

theorem sortKeys_congr {α : Type} {l l' : List (Bytes × α)} (hp : l.Perm l')
    (hn : (l.map Prod.fst).Nodup) : sortKeys l = sortKeys l' :=
  eq_sortKeys (sortKeys_pairwise l) ((sortKeys_perm l).trans hp) (sortKeys_nodup hn)

/-- An empty final field of an input map, which the format drops. -/
def Dropped (m : MapId) (x : Record) : Prop := (∃ i, m = .input i) ∧ EmptyFinal x

/-- The same transaction and the same records, up to what the format drops. -/
structure SameRecords (psbt psbt' : Psbt) : Prop where
  version : psbt'.version = psbt.version
  unsignedTx : psbt'.unsignedTx = psbt.unsignedTx
  records : ∀ m x, x ∈ mapRecords psbt' m ↔ x ∈ mapRecords psbt m ∧ ¬ Dropped m x

/-- What is written is read again as the same records and written as the same bytes. -/
def Stable (psbt : Psbt) : Prop :=
  ∃ psbt', parsePsbt (serializePsbt psbt) = .ok psbt' ∧ SameRecords psbt psbt' ∧
    serializePsbt psbt' = serializePsbt psbt

theorem mem_reread {input input' : PsbtIn} (h : Reread input input') {x : Record} :
    x ∈ inputRecords input' ↔ x ∈ inputRecords input ∧ ¬ EmptyFinal x := by
  simp only [mem_inputRecords, h.fields, mem_sortKeys, mem_writtenRecords]
  exact ⟨fun ⟨f, hx, hne⟩ => ⟨⟨f, hx⟩, hne⟩, fun ⟨⟨f, hx⟩, hne⟩ => ⟨f, hx, hne⟩⟩

theorem mem_sortKvs {unknown : List UnknownKv} {kv : UnknownKv} :
    kv ∈ sortKvs unknown ↔ kv ∈ unknown := by
  have hperm := (sortKeys_perm (unknown.map written)).map kept
  rw [map_kept_written] at hperm
  exact hperm.mem_iff

theorem mem_unknownRecords_sortKvs {unknown : List UnknownKv} {x : Record} :
    x ∈ unknownRecords (sortKvs unknown) ↔ x ∈ unknownRecords unknown := by
  simp only [unknownRecords, List.mem_map, mem_sortKvs]

theorem forall₂_getElem? {α β : Type} {R : α → β → Prop} {l : List α} {l' : List β}
    (h : List.Forall₂ R l l') (i : Nat) :
    (∃ a b, l[i]? = some a ∧ l'[i]? = some b ∧ R a b) ∨ l[i]? = none ∧ l'[i]? = none := by
  induction h generalizing i with
  | nil => exact .inr ⟨rfl, rfl⟩
  | cons hab _ ih =>
    cases i with
    | zero => exact .inl ⟨_, _, rfl, rfl, hab⟩
    | succ i => exact ih i

theorem mapRecords_reread {psbt psbt' : Psbt} (h : RereadAs psbt psbt') (m : MapId) (x : Record) :
    x ∈ mapRecords psbt' m ↔ x ∈ mapRecords psbt m ∧ ¬ Dropped m x := by
  cases m with
  | globals =>
    have hdrop : ¬ Dropped .globals x := fun hd => hd.1.elim fun _ hm => MapId.noConfusion hm
    simp only [PsbtRecords.mapRecords, h.unsignedTx, h.globals, List.mem_cons,
      mem_unknownRecords_sortKvs, hdrop, not_false_eq_true, and_true]
  | input i =>
    have hdrop : Dropped (.input i) x ↔ EmptyFinal x := ⟨fun hd => hd.2, fun he => ⟨⟨i, rfl⟩, he⟩⟩
    rw [hdrop]
    rcases forall₂_getElem? h.inputs i with ⟨input, input', hi, hi', hr⟩ | ⟨hi, hi'⟩
    · simp only [PsbtRecords.mapRecords, hi, hi', Option.map_some, Option.getD_some]
      exact mem_reread hr
    · simp only [PsbtRecords.mapRecords, hi, hi', Option.map_none, Option.getD_none,
        List.not_mem_nil, false_and]
  | output i =>
    have hdrop : ¬ Dropped (.output i) x := fun hd => hd.1.elim fun _ hm => MapId.noConfusion hm
    simp only [PsbtRecords.mapRecords, h.outputs, List.getElem?_map, Option.map_map, hdrop,
      not_false_eq_true, and_true]
    cases psbt.outputs[i]? with
    | none => exact Iff.rfl
    | some out => exact mem_unknownRecords_sortKvs

theorem sortKeys_inputPairs_reread {input input' : PsbtIn} (hwf : WellFormedInput input)
    (h : Reread input input') : sortKeys (inputPairs input') = sortKeys (inputPairs input) := by
  have hperm : (writtenRecords (inputRecords input')).Perm (writtenRecords (inputRecords input)) := by
    refine perm_of_mem (writtenRecords_nodup h.wellFormed.records_nodup)
      (writtenRecords_nodup hwf.records_nodup) fun x => ?_
    rw [mem_writtenRecords, mem_writtenRecords, mem_reread h]
    exact ⟨fun hx => hx.1, fun hx => ⟨hx, hx.2⟩⟩
  rw [sortKeys_inputPairs hwf, sortKeys_inputPairs h.wellFormed,
    sortKeys_congr hperm (writtenRecords_nodup h.wellFormed.records_nodup)]

theorem map_written_sortKvs (unknown : List UnknownKv) :
    (sortKvs unknown).map written = sortKeys (unknown.map written) := by
  rw [sortKvs, map_written_kept]

theorem writtenLayout_reread {psbt psbt' : Psbt} (hwf : WellFormed psbt) (h : RereadAs psbt psbt') :
    writtenLayout psbt' = writtenLayout psbt := by
  have hn := globals_nodup hwf
  have hglobals : sortKeys (txPair psbt'.unsignedTx :: psbt'.unknownGlobal.map written) =
      sortKeys (txPair psbt.unsignedTx :: psbt.unknownGlobal.map written) := by
    rw [h.unsignedTx, h.globals, map_written_sortKvs]
    exact (sortKeys_congr ((sortKeys_perm _).symm.cons _) hn).symm
  have hinputs : psbt'.inputs.map (fun input => sortKeys (inputPairs input)) =
      psbt.inputs.map fun input => sortKeys (inputPairs input) := by
    refine List.ext_getElem? fun i => ?_
    rw [List.getElem?_map, List.getElem?_map]
    rcases forall₂_getElem? h.inputs i with ⟨input, input', hi, hi', hr⟩ | ⟨hi, hi'⟩
    · rw [hi, hi', Option.map_some, Option.map_some,
        sortKeys_inputPairs_reread (hwf.inputs input (List.mem_of_getElem? hi)) hr]
    · rw [hi, hi']
  have houtputs : psbt'.outputs.map (fun out => sortKeys (out.unknown.map written)) =
      psbt.outputs.map fun out => sortKeys (out.unknown.map written) := by
    rw [h.outputs, List.map_map]
    refine List.map_congr_left fun out hout => ?_
    have hkeys := hwf.outputs out hout
    rw [← map_written_keys] at hkeys
    rw [Function.comp_apply, map_written_sortKvs, sortKeys_congr (sortKeys_perm _)
      (sortKeys_nodup hkeys)]
  rw [writtenLayout, writtenLayout, hglobals, hinputs, houtputs]

/-- What a previous transaction's pair is read as. -/
theorem decodes_tx {pair : Bytes × Bytes} {x : Record} (h : Decodes pair x)
    (hkey : pair.1 = [tUnsignedTx]) : ∃ t, x.2 = .tx t ∧ parseTx pair.2 true = .ok t := by
  have hkind := decodeValue_kind h.value
  rw [h.key, hkey] at hkind
  obtain ⟨t, ht, hx⟩ := hkind
  exact ⟨t, hx, ht⟩

theorem decodes_tx_key {pair : Bytes × Bytes} {x : Record} {t : PsbtTransaction}
    (h : Decodes pair x) (hx : x.2 = .tx t) : pair.1 = [tUnsignedTx] := by
  have hkind := decodeValue_kind h.value
  rw [hx] at hkind
  have hfield : keyField x.1 = .nonWitnessUtxo := by
    cases hf : keyField x.1 <;> rw [hf] at hkind
    case witnessUtxo =>
      obtain ⟨_, _, he⟩ := hkind
      cases he
    case sighashType =>
      obtain ⟨_, he⟩ := hkind
      cases he
    all_goals cases hkind
  have hopt := h.decoded.optional (by rw [hfield]; rfl)
  rw [← h.key, hopt, hfield]
  rfl

/-- No previous transaction of the data is bare. -/
def NoBare (l : Layout) : Prop :=
  ∀ pairs ∈ l.inputs, ∀ p ∈ pairs, p.1 = [tUnsignedTx] → ¬ CountsBare p.2

theorem rereadable_of_noBare {l : Layout} {psbt : Psbt} (hs : l.Sound) (h : l.Interprets psbt)
    (hb : NoBare l) : RereadableInputs psbt := by
  intro input hin x hx
  obtain ⟨i, hi⟩ := List.mem_iff_getElem?.mp hin
  obtain ⟨pairs, hpairs, hparse⟩ := mapM_getElem? h.inputs i input hi
  have hmem := List.mem_of_getElem? hpairs
  obtain ⟨xs, hxs, hp⟩ := inputRecords_perm (hs.inputs pairs hmem).nodup hparse
  obtain ⟨pair, hpair, hd⟩ := forall_decoded hxs x (hp.mem_iff.mp (mem_writtenRecords.mp hx).1)
  refine hd.readable fun t ht hbare => ?_
  have hkey := decodes_tx_key hd ht
  obtain ⟨t', ht', hparsed⟩ := decodes_tx hd hkey
  cases ht.symm.trans ht'
  exact hb pairs hmem pair hpair hkey ((bare_iff_countsBare hparsed).mp hbare)

theorem eq_of_key {input : PsbtIn} (h : WellFormedInput input) {x y : Record}
    (hx : x ∈ inputRecords input) (hy : y ∈ inputRecords input) (he : x.1 = y.1) : x = y :=
  List.inj_on_of_nodup_map h.records_nodup hx hy he

/-- A bare previous transaction does not come back. -/
theorem bare_lost {input input' : PsbtIn} {x : Record} {t : PsbtTransaction}
    (hwf : WellFormedInput input) (hx : x ∈ inputRecords input) (ht : x.2 = .tx t)
    (hkey : x.1 = [tUnsignedTx]) (hbare : Bare t)
    (h : parseInputMap (sortKeys (inputPairs input)) = .ok input') : x ∉ inputRecords input' := by
  intro hx'
  have hn : ((sortKeys (inputPairs input)).map Prod.fst).Nodup := by
    rw [inputPairs_eq hwf]
    exact sortKeys_nodup (hwf.records_nodup.sublist (encode_keys_sublist _))
  obtain ⟨xs, hxs, hp⟩ := inputRecords_perm hn h
  obtain ⟨pair, hpair, hd⟩ := forall_decoded hxs x (hp.mem_iff.mp hx')
  rw [mem_sortKeys, inputPairs_eq hwf, List.mem_filterMap] at hpair
  obtain ⟨y, hy, hencode⟩ := hpair
  obtain rfl : y = x := eq_of_key hwf hy hx ((encodeRecord_key hencode).symm.trans hd.key.symm)
  obtain ⟨key, value⟩ := y
  obtain rfl : value = .tx t := ht
  cases hencode
  rw [hkey] at hd
  exact not_decodes_bare hbare rfl hd rfl

theorem not_stable_of_bare {l : Layout} {psbt : Psbt} (hs : l.Sound) (h : l.Interprets psbt)
    (hw : Writable psbt) {pairs : List (Bytes × Bytes)} (hpairs : pairs ∈ l.inputs)
    {p : Bytes × Bytes} (hp : p ∈ pairs) (hkey : p.1 = [tUnsignedTx]) (hbare : CountsBare p.2) :
    ¬ Stable psbt := by
  rintro ⟨psbt', hparse, hsame, -⟩
  obtain ⟨i, hi⟩ := List.mem_iff_getElem?.mp hpairs
  have hlen : i < psbt.inputs.length := by
    rw [mapM_length h.inputs]
    exact (List.getElem?_eq_some_iff.mp hi).1
  have hinput := List.getElem?_eq_getElem hlen
  obtain ⟨pairs₀, hpairs₀, hread⟩ := mapM_getElem? h.inputs i _ hinput
  cases hi.symm.trans hpairs₀
  have hn := (hs.inputs pairs hpairs).nodup
  have hwf := parseInputMap_wellFormed hn hread
  obtain ⟨xs, hxs, hperm⟩ := inputRecords_perm hn hread
  obtain ⟨x, hx, hd⟩ := exists_decoded hxs p hp
  have hmem := hperm.mem_iff.mpr hx
  obtain ⟨t, ht, hparsed⟩ := decodes_tx hd hkey
  have hnotEmpty : ¬ Dropped (.input i) x := fun hdrop => by
    have hval := hdrop.2.2
    rw [ht] at hval
    cases hval
  have hsize := hw.size
  rw [serializePsbt_eq] at hsize hparse
  have hinterprets := interprets_of_parse (writtenLayout_sound hw) (writtenLayout_counted hw)
    hsize hparse
  have hafter : x ∈ mapRecords psbt' (.input i) := by
    refine (hsame.records _ x).mpr ⟨?_, hnotEmpty⟩
    rw [PsbtRecords.mapRecords, hinput]
    exact hmem
  rw [PsbtRecords.mapRecords] at hafter
  cases hi' : psbt'.inputs[i]? with
  | none =>
    rw [hi'] at hafter
    cases hafter
  | some input' =>
    rw [hi'] at hafter
    obtain ⟨pairs', hpairs', hread'⟩ := mapM_getElem? hinterprets.inputs i input' hi'
    rw [writtenLayout, List.getElem?_map, hinput, Option.map_some] at hpairs'
    cases hpairs'
    exact bare_lost hwf hmem ht (hd.key.trans hkey) ((bare_iff_countsBare hparsed).mpr hbare)
      hread' hafter

/-- One pass is stable exactly when no previous transaction is bare. -/
theorem stable_iff {data : Bytes} {psbt : Psbt} (h : parsePsbt data = .ok psbt) :
    Stable psbt ↔ ∀ l, rawMaps data = .ok l → NoBare l := by
  obtain ⟨l, hl, hinterprets, hsound, -, -⟩ := parsePsbt_layout h
  have hw := parsed_writable h
  constructor
  · intro hstable l' hl' pairs hpairs p hp hkey hbare
    cases hl.symm.trans hl'
    exact not_stable_of_bare hsound hinterprets hw hpairs hp hkey hbare hstable
  · intro hb
    obtain ⟨psbt', hparse, hreread⟩ :=
      parsePsbt_serializePsbt hw (rereadable_of_noBare hsound hinterprets (hb l hl))
    refine ⟨psbt', hparse, ⟨?_, hreread.unsignedTx, mapRecords_reread hreread⟩, ?_⟩
    · rw [hreread.version]
      exact (interprets_globals hsound hinterprets).version.symm
    · rw [serializePsbt_eq, serializePsbt_eq, writtenLayout_reread hw.wellFormed hreread]

theorem stable_iff_sample : Stable samplePsbt := by
  refine (stable_iff samplePsbt_parsed).mpr fun l hl => ?_
  cases sampleLayout_maps.symm.trans hl
  simp only [NoBare, sampleLayout, List.forall_mem_cons, List.not_mem_nil]
  refine ⟨⟨fun _ hbare => ?_, fun hkey => absurd hkey (by decide),
    fun hkey => absurd hkey (by decide), fun hkey => absurd hkey (by decide), nofun⟩, nofun⟩
  exact absurd ((bare_iff_countsBare samplePrev_parsed).mpr hbare).1 (by decide)

/-- A previous transaction in the witness layout, without inputs. -/
def bareLayout : Layout where
  globals := [txPair sampleTx]
  inputs := [[([tUnsignedTx], packl 2 ++ [0x00, 0x01, 0x00, 0x01] ++ packQ 5000 ++ [0x00] ++ packL 0)]]
  outputs := [[]]

def barePsbt : Psbt where
  version := 0
  unsignedTx := sampleTx
  inputs := [{ emptyInput with nonWitnessUtxo := some ⟨2, [], [⟨5000, []⟩], 0⟩ }]
  outputs := [⟨[]⟩]
  unknownGlobal := []

/-- It is read, and what is written is refused. -/
theorem bare_not_stable : parsePsbt bareLayout.bytes = .ok barePsbt ∧ ¬ Stable barePsbt := by
  refine ⟨by decide +kernel, ?_⟩
  rintro ⟨psbt', hparse, -⟩
  have hrefused : parsePsbt (serializePsbt barePsbt) = .error .invalidFieldValue := by
    decide +kernel
  cases hrefused.symm.trans hparse

end Yubtc.Canonicalisation
