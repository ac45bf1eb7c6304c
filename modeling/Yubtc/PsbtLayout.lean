import Yubtc.RecordCodec

/-!
# Layout

A PSBT is its magic and a sequence of maps. The maps can be read before they are interpreted,
and a layout whose keys are sound is read as the maps it was written from.
-/
namespace Yubtc.PsbtLayout

open LittleEndian Wire Errors ExceptRules Transaction PsbtData PsbtCodec PsbtRecords
  CanonicalForm PsbtReading RecordCodec
open Readers (Reads Weighs)

/-- One map, its pairs in the given order. -/
def encodeMap (pairs : List (Bytes × Bytes)) : Bytes := pairs.flatMap encodePair ++ [0]

/-- What the reader asks of the keys of a map. -/
structure SoundKeys (pairs : List (Bytes × Bytes)) : Prop where
  nonempty : ∀ p ∈ pairs, p.1 ≠ []
  nodup : (pairs.map Prod.fst).Nodup

theorem readMapFrom_reads {pairs : List (Bytes × Bytes)} (out : List (Bytes × Bytes)) {fuel : Nat}
    (hfuel : pairs.length < fuel) (hne : ∀ p ∈ pairs, p.1 ≠ [])
    (hn : ((out ++ pairs).map Prod.fst).Nodup)
    (hsmall : ∀ p ∈ pairs, p.1.length < 2 ^ 64 ∧ p.2.length < 2 ^ 64) :
    Reads (readMapFrom fuel out) (encodeMap pairs) (out ++ pairs) := by
  induction pairs generalizing out fuel with
  | nil =>
    intro rest
    cases fuel with
    | zero => cases hfuel
    | succ fuel => rw [List.append_nil]; rfl
  | cons p pairs ih =>
    cases fuel with
    | zero => cases hfuel
    | succ fuel =>
      intro rest
      obtain ⟨hkey, hvalue⟩ := hsmall p List.mem_cons_self
      have hpos : ¬ p.1.length = 0 := fun h0 =>
        hne p List.mem_cons_self (List.eq_nil_of_length_eq_zero h0)
      have hnew : ¬ p.1 ∈ out.map Prod.fst := by
        intro hmem
        rw [List.map_append, List.nodup_append] at hn
        exact hn.2.2 _ hmem _ (List.mem_map_of_mem List.mem_cons_self) rfl
      have hrest := ih (out ++ [p]) (Nat.lt_of_succ_lt_succ hfuel)
        (fun q hq => hne q (List.mem_cons_of_mem _ hq)) (by rwa [List.append_assoc])
        (fun q hq => hsmall q (List.mem_cons_of_mem _ hq)) rest
      have hbytes : encodeMap (p :: pairs) ++ rest =
          writeCompactSize p.1.length ++ (p.1 ++ (writeCompactSize p.2.length ++ p.2 ++
            (encodeMap pairs ++ rest))) := by
        simp only [encodeMap, List.flatMap_cons, encodePair, List.append_assoc]
      rw [hbytes, readMapFrom, readCompactSize_reads hkey, ok_bind]
      dsimp only
      rw [if_neg hpos, take_reads rfl, ok_bind]
      dsimp only
      rw [reject_false _ hnew, ok_bind, readVarBytes_reads hvalue, ok_bind]
      dsimp only
      rw [hrest, List.append_assoc]
      rfl

theorem encodePair_ne_nil (pair : Bytes × Bytes) : encodePair pair ≠ [] := by
  intro hnil
  have hlen := encodePair_length pair
  rw [hnil, List.length_nil] at hlen
  have hpos := List.length_pos_of_ne_nil (compactSize_ne_nil pair.1.length)
  rw [compactSize_length] at hpos
  omega

theorem readMap_reads {pairs : List (Bytes × Bytes)} (h : SoundKeys pairs)
    (hsmall : (encodeMap pairs).length < 2 ^ 64) : Reads readMap (encodeMap pairs) pairs := by
  intro rest
  have hcount := length_le_flatMap (l := pairs) fun p _ => encodePair_ne_nil p
  have hlen : (encodeMap pairs).length = (pairs.flatMap encodePair).length + 1 := by
    rw [encodeMap, List.length_append, List.length_singleton]
  have hfuel : pairs.length < (encodeMap pairs ++ rest).length + 1 := by
    rw [List.length_append]
    omega
  refine readMapFrom_reads [] hfuel h.nonempty h.nodup (fun p hp => ?_) rest
  have hle := length_le_of_mem encodePair hp
  rw [encodePair_length] at hle
  omega

theorem readMapFrom_weighs {fuel : Nat} {out pairs : List (Bytes × Bytes)} {r r' : Bytes}
    (h : readMapFrom fuel out r = .ok (pairs, r')) :
    ∃ new, pairs = out ++ new ∧ (∀ p ∈ new, p.1 ≠ []) ∧
      (encodeMap new).length + r'.length ≤ r.length := by
  induction fuel generalizing out r with
  | zero => cases h
  | succ fuel ih =>
    obtain ⟨⟨keylen, r₁⟩, hlen, h⟩ := bind_eq_ok.mp h
    have h₁ : compactSizeLen keylen + r₁.length ≤ r.length := readCompactSize_weighs r keylen r₁ hlen
    rcases ite_eq_ok.mp h with ⟨hzero, h⟩ | ⟨hpos, h⟩
    · cases h
      refine ⟨[], (List.append_nil _).symm, fun p hp => absurd hp List.not_mem_nil, ?_⟩
      rw [show keylen = 0 from hzero] at h₁
      exact h₁
    · obtain ⟨⟨key, r₂⟩, hkey, h⟩ := bind_eq_ok.mp h
      obtain ⟨-, h⟩ := reject_bind_eq_ok.mp h
      obtain ⟨⟨value, r₃⟩, hvalue, h⟩ := bind_eq_ok.mp h
      obtain ⟨new, rfl, hne, hw⟩ := ih h
      obtain ⟨hkeylen, -⟩ := take_eq_ok.mp hkey
      have h₂ : keylen + r₂.length ≤ r₁.length := take_weighs keylen r₁ key r₂ hkey
      have h₃ : compactSizeLen value.length + value.length + r₃.length ≤ r₂.length :=
        readVarBytes_weighs r₂ value r₃ hvalue
      refine ⟨(key, value) :: new, by rw [List.append_assoc]; rfl, ?_, ?_⟩
      · intro p hp
        cases List.mem_cons.mp hp with
        | inl he =>
          rw [he]
          rintro rfl
          exact hpos hkeylen.symm
        | inr hp => exact hne p hp
      · simp only [encodeMap, List.flatMap_cons, List.length_append, encodePair_length,
          hkeylen] at hw ⊢
        omega

theorem readMap_spec {pairs : List (Bytes × Bytes)} {r r' : Bytes}
    (h : readMap r = .ok (pairs, r')) :
    SoundKeys pairs ∧ (encodeMap pairs).length + r'.length ≤ r.length := by
  obtain ⟨new, hnew, hne, hw⟩ := readMapFrom_weighs h
  obtain rfl : pairs = new := hnew
  exact ⟨⟨hne, readMap_nodup h⟩, hw⟩

theorem encodeMap_ne_nil (pairs : List (Bytes × Bytes)) : encodeMap pairs ≠ [] :=
  List.append_ne_nil_of_right_ne_nil _ (List.cons_ne_nil _ _)

theorem readMaps_reads {α : Type} {parse : List (Bytes × Bytes) → Except PsbtError α}
    {maps : List (List (Bytes × Bytes))} {as : List α}
    (hmaps : ∀ pairs ∈ maps, SoundKeys pairs ∧ (encodeMap pairs).length < 2 ^ 64)
    (h : maps.mapM parse = .ok as) :
    Reads (readMaps parse maps.length) (maps.flatMap encodeMap) as := by
  induction maps generalizing as with
  | nil =>
    cases h
    exact Reads.pure []
  | cons pairs maps ih =>
    intro rest
    rw [List.mapM_cons] at h
    obtain ⟨a, ha, h⟩ := bind_eq_ok.mp h
    obtain ⟨as, has, h⟩ := bind_eq_ok.mp h
    cases h
    obtain ⟨hsound, hsmall⟩ := hmaps pairs List.mem_cons_self
    have hne : ¬ encodeMap pairs ++ (maps.flatMap encodeMap ++ rest) = [] := fun hnil =>
      encodeMap_ne_nil pairs (List.append_eq_nil_iff.mp hnil).1
    have hrest := ih (fun p hp => hmaps p (List.mem_cons_of_mem _ hp)) has rest
    rw [List.flatMap_cons, List.append_assoc, List.length_cons, readMaps, reject_false _ hne,
      ok_bind, readMap_reads hsound hsmall, ok_bind]
    dsimp only
    rw [ha, ok_bind, hrest, ok_bind]
    rfl

/-- What was read as maps, before it was interpreted. -/
theorem readMaps_eq_ok {α : Type} {parse : List (Bytes × Bytes) → Except PsbtError α} {n : Nat}
    {r r' : Bytes} {as : List α} (h : readMaps parse n r = .ok (as, r')) :
    ∃ maps, readMaps .ok n r = .ok (maps, r') ∧ maps.length = n ∧ maps.mapM parse = .ok as ∧
      (∀ pairs ∈ maps, SoundKeys pairs) ∧
      (maps.flatMap encodeMap).length + r'.length ≤ r.length := by
  induction n generalizing r as with
  | zero =>
    cases h
    exact ⟨[], rfl, rfl, rfl, fun p hp => absurd hp List.not_mem_nil, by simp⟩
  | succ n ih =>
    obtain ⟨hne, h⟩ := reject_bind_eq_ok.mp h
    obtain ⟨⟨pairs, r₁⟩, hpairs, h⟩ := bind_eq_ok.mp h
    obtain ⟨a, ha, h⟩ := bind_eq_ok.mp h
    obtain ⟨⟨rest, r₂⟩, hrest, h⟩ := bind_eq_ok.mp h
    cases h
    obtain ⟨maps, hmaps, hlen, hparse, hsound, hw⟩ := ih hrest
    obtain ⟨hpsound, hpw⟩ := readMap_spec hpairs
    refine ⟨pairs :: maps, ?_, by rw [List.length_cons, hlen], ?_, ?_, ?_⟩
    · rw [readMaps, reject_false _ hne, ok_bind, hpairs, ok_bind]
      dsimp only
      rw [ok_bind, hmaps, ok_bind]
      rfl
    · rw [List.mapM_cons, ha, ok_bind, hparse, ok_bind]
      rfl
    · intro p hp
      cases List.mem_cons.mp hp with
      | inl he => exact he ▸ hpsound
      | inr hp => exact hsound p hp
    · rw [List.flatMap_cons, List.length_append]
      omega

/-- The maps of a PSBT, not yet interpreted. -/
structure Layout where
  globals : List (Bytes × Bytes)
  inputs : List (List (Bytes × Bytes))
  outputs : List (List (Bytes × Bytes))
  deriving DecidableEq

namespace Layout

def bytes (l : Layout) : Bytes :=
  magic ++ (encodeMap l.globals ++ (l.inputs.flatMap encodeMap ++ l.outputs.flatMap encodeMap))

structure Sound (l : Layout) : Prop where
  globals : SoundKeys l.globals
  inputs : ∀ pairs ∈ l.inputs, SoundKeys pairs
  outputs : ∀ pairs ∈ l.outputs, SoundKeys pairs

/-- What the maps are interpreted as. -/
structure Interprets (l : Layout) (psbt : Psbt) : Prop where
  globals : l.globals.foldlM parseGlobalPair ⟨0, none, []⟩ =
    .ok ⟨psbt.version, some psbt.unsignedTx, psbt.unknownGlobal⟩
  inputs_length : l.inputs.length = psbt.unsignedTx.vin.length
  outputs_length : l.outputs.length = psbt.unsignedTx.vout.length
  inputs : l.inputs.mapM parseInputMap = .ok psbt.inputs
  outputs : l.outputs.mapM parseOutputMap = .ok psbt.outputs

/-- There are as many maps as the transaction says. -/
def Counted (l : Layout) : Prop :=
  ∃ globals tx, l.globals.foldlM parseGlobalPair ⟨0, none, []⟩ = .ok globals ∧
    globals.unsignedTx = some tx ∧ l.inputs.length = tx.vin.length ∧
    l.outputs.length = tx.vout.length

end Layout

/-- The maps as they stand in the data: the transaction of the first one says how many there
are of the others. -/
def rawMaps (data : Bytes) : Except PsbtError Layout := do
  let (globalPairs, r) ← readMap (data.drop magic.length)
  let globals ← globalPairs.foldlM parseGlobalPair ⟨0, none, []⟩
  let unsignedTx ← orElseThrow .missingUnsignedTx globals.unsignedTx
  let (inputs, r) ← readMaps .ok unsignedTx.vin.length r
  let (outputs, _) ← readMaps .ok unsignedTx.vout.length r
  return ⟨globalPairs, inputs, outputs⟩

/-- Reading a PSBT is reading its maps and interpreting them. -/
theorem parsePsbt_layout {data : Bytes} {psbt : Psbt} (h : parsePsbt data = .ok psbt) :
    ∃ l : Layout, rawMaps data = .ok l ∧ l.Interprets psbt ∧ l.Sound ∧
      l.bytes.length ≤ data.length ∧ data.length ≤ psbtMaxSize := by
  obtain ⟨hsize, h⟩ := reject_bind_eq_ok.mp h
  obtain ⟨hmagic, h⟩ := reject_bind_eq_ok.mp h
  obtain ⟨⟨pairs, r⟩, hread, h⟩ := bind_eq_ok.mp h
  obtain ⟨globals, hglobals, h⟩ := bind_eq_ok.mp h
  obtain ⟨tx, htx, h⟩ := bind_eq_ok.mp h
  obtain ⟨⟨inputs, r₁⟩, hinputs, h⟩ := bind_eq_ok.mp h
  obtain ⟨⟨outputs, r₂⟩, houtputs, h⟩ := bind_eq_ok.mp h
  obtain ⟨-, h⟩ := reject_bind_eq_ok.mp h
  obtain ⟨hend, h⟩ := reject_bind_eq_ok.mp h
  cases h
  obtain ⟨hgsound, hgw⟩ := readMap_spec hread
  obtain ⟨ins, hins, hinlen, hinparse, hinsound, hinw⟩ := readMaps_eq_ok hinputs
  obtain ⟨outs, houts, houtlen, houtparse, houtsound, houtw⟩ := readMaps_eq_ok houtputs
  refine ⟨⟨pairs, ins, outs⟩, ?_, ⟨?_, hinlen, houtlen, hinparse, houtparse⟩,
    ⟨hgsound, hinsound, houtsound⟩, ?_, Nat.not_lt.mp hsize⟩
  · exact bind_eq_ok.mpr ⟨_, hread, bind_eq_ok.mpr ⟨_, hglobals, bind_eq_ok.mpr ⟨_, htx,
      bind_eq_ok.mpr ⟨_, hins, bind_eq_ok.mpr ⟨_, houts, rfl⟩⟩⟩⟩⟩
  · rw [hglobals, ← orElseThrow_eq_ok.mp htx]
  · have hmlen : magic.length ≤ data.length := by
      have hlen := congrArg List.length (not_not.mp hmagic)
      rw [List.length_take] at hlen
      omega
    simp only [List.length_drop] at hgw
    simp only [Layout.bytes, List.length_append]
    omega

theorem Layout.Sound.readMaps {l : Layout} (hl : l.Sound) (hsize : l.bytes.length ≤ psbtMaxSize) :
    Reads readMap (encodeMap l.globals) l.globals ∧
      (∀ pairs ∈ l.inputs, SoundKeys pairs ∧ (encodeMap pairs).length < 2 ^ 64) ∧
      (∀ pairs ∈ l.outputs, SoundKeys pairs ∧ (encodeMap pairs).length < 2 ^ 64) := by
  have hmax : psbtMaxSize < 2 ^ 64 := by decide
  simp only [Layout.bytes, List.length_append] at hsize
  refine ⟨readMap_reads hl.globals (by omega), fun pairs hp => ⟨hl.inputs pairs hp, ?_⟩,
    fun pairs hp => ⟨hl.outputs pairs hp, ?_⟩⟩
  · have hle := length_le_of_mem encodeMap hp
    omega
  · have hle := length_le_of_mem encodeMap hp
    omega

theorem drop_magic (rest : Bytes) : (magic ++ rest).drop magic.length = rest :=
  List.drop_left

/-- A sound layout is read as its maps. -/
theorem rawMaps_bytes {l : Layout} (hl : l.Sound) (hc : l.Counted)
    (hsize : l.bytes.length ≤ psbtMaxSize) : rawMaps l.bytes = .ok l := by
  obtain ⟨hglobals, hin, hout⟩ := hl.readMaps hsize
  obtain ⟨globals, tx, hfold, htx, hinlen, houtlen⟩ := hc
  have hself : ∀ maps : List (List (Bytes × Bytes)),
      maps.mapM (Except.ok : _ → Except PsbtError _) = .ok maps := by
    intro maps
    rw [mapM_eq_ok]
    exact List.forall₂_same.mpr fun _ _ => rfl
  have hinputs := readMaps_reads hin (hself l.inputs)
  have houtputs := (readMaps_reads hout (hself l.outputs)).all
  rw [hinlen] at hinputs
  rw [houtlen] at houtputs
  unfold rawMaps
  rw [Layout.bytes, drop_magic, hglobals, ok_bind]
  dsimp only
  rw [hfold, ok_bind, htx, orElseThrow_some, ok_bind, hinputs, ok_bind]
  dsimp only
  rw [houtputs, ok_bind]
  rfl

/-- And as what they are interpreted as. -/
theorem parsePsbt_bytes {l : Layout} {psbt : Psbt} (hl : l.Sound) (h : l.Interprets psbt)
    (hsize : l.bytes.length ≤ psbtMaxSize) : parsePsbt l.bytes = .ok psbt := by
  obtain ⟨hglobals, hin, hout⟩ := hl.readMaps hsize
  have hinputs := readMaps_reads hin h.inputs
  have houtputs := (readMaps_reads hout h.outputs).all
  rw [h.inputs_length] at hinputs
  rw [h.outputs_length] at houtputs
  have hmagic : ¬ l.bytes.take magic.length ≠ magic := by
    rw [Layout.bytes, List.take_left, not_not]
  have hread : readMap (l.bytes.drop magic.length) = .ok (l.globals,
      l.inputs.flatMap encodeMap ++ l.outputs.flatMap encodeMap) := by
    rw [Layout.bytes, drop_magic, hglobals]
  unfold parsePsbt
  rw [reject_false _ (Nat.not_lt.mpr hsize), ok_bind, reject_false _ hmagic, ok_bind]
  dsimp only
  rw [hread, ok_bind]
  dsimp only
  rw [h.globals, ok_bind, orElseThrow_some, ok_bind, hinputs, ok_bind]
  dsimp only
  rw [houtputs, ok_bind]
  dsimp only
  rw [reject_false _ (fun hr => hr.1 rfl), ok_bind, reject_false _ (fun hr => hr rfl), ok_bind]
  rfl

/-- Nothing else is read from it. -/
theorem interprets_of_parse {l : Layout} {psbt : Psbt} (hl : l.Sound) (hc : l.Counted)
    (hsize : l.bytes.length ≤ psbtMaxSize) (h : parsePsbt l.bytes = .ok psbt) :
    l.Interprets psbt := by
  obtain ⟨l', hl', hinterprets, -⟩ := parsePsbt_layout h
  cases (rawMaps_bytes hl hc hsize).symm.trans hl'
  exact hinterprets

end Yubtc.PsbtLayout
