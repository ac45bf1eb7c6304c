import Yubtc.PsbtLayout

/-!
# Global and output maps

The first map holds the transaction, perhaps a version, and pairs that are kept; an output map
holds pairs that are kept.
-/
namespace Yubtc.GlobalRecords

open LittleEndian Wire Errors ExceptRules Transaction PsbtData PsbtCodec PsbtRecords
  CanonicalForm PsbtReading RecordCodec PsbtLayout

/-- The keys that an output map keeps. -/
structure OutputKey (key : Bytes) : Prop where
  split : ∃ s, splitKey key = .ok s
  script : ∀ t, t = tUnsignedTx ∨ t = tInWitnessUtxo → key.head? = some t → key.tail = []
  derivation : key.head? = some tPartialSig → pubkeyKeydataLen key.tail = true

/-- A type of one byte is the head of its key. -/
theorem splitKey_head {key keydata : Bytes} {ty : Nat} (h : splitKey key = .ok (ty, keydata))
    (t : UInt8) (ht : t ≤ 0xfc) :
    (ty = t.toNat ↔ key.head? = some t) ∧ (ty = t.toNat → key.tail = keydata) := by
  rcases splitKey_cases h with ⟨hle, rfl⟩ | ⟨hgt, -⟩
  · have hnat : (UInt8.ofNat ty).toNat = ty := by
      rw [UInt8.toNat_ofNat']
      omega
    rw [List.head?_cons, Option.some.injEq, ← UInt8.toNat_inj, hnat]
    exact ⟨Iff.rfl, fun _ => rfl⟩
  · have hne : ty ≠ t.toNat := by
      rintro rfl
      exact absurd (UInt8.le_iff_toNat_le.mp ht) (Nat.not_le.mpr hgt)
    refine ⟨iff_of_false hne fun hhead => ?_, fun he => absurd he hne⟩
    cases key with
    | nil => cases hhead
    | cons b rest =>
      cases hhead
      have hsmall : splitKey (t :: rest) = .ok (t.toNat, rest) := if_pos ht
      cases hsmall.symm.trans h
      exact hne rfl

theorem parseOutputPair_iff {out out' : PsbtOut} {key value : Bytes} :
    parseOutputPair out (key, value) = .ok out' ↔
      OutputKey key ∧ out' = ⟨out.unknown ++ [⟨key, value⟩]⟩ := by
  cases hsplit : splitKey key with
  | error e =>
    constructor
    · intro h
      obtain ⟨s, hs, -⟩ := bind_eq_ok.mp h
      cases hsplit.symm.trans hs
    · rintro ⟨hk, -⟩
      obtain ⟨s, hs⟩ := hk.split
      cases hsplit.symm.trans hs
  | ok s =>
    obtain ⟨ty, keydata⟩ := s
    have h00 := splitKey_head hsplit tUnsignedTx (by decide)
    have h01 := splitKey_head hsplit tInWitnessUtxo (by decide)
    have h02 := splitKey_head hsplit tPartialSig (by decide)
    have hnoscript : ∀ t, t = tUnsignedTx ∨ t = tInWitnessUtxo → key.head? = some t →
        ty = tUnsignedTx.toNat ∨ ty = tInWitnessUtxo.toNat := by
      rintro t (rfl | rfl) hhead
      · exact .inl (h00.1.mpr hhead)
      · exact .inr (h01.1.mpr hhead)
    rw [parseOutputPair]
    simp only [hsplit, ok_bind]
    by_cases hscript : ty = tUnsignedTx.toNat ∨ ty = tInWitnessUtxo.toNat
    · have htail : key.tail = keydata := hscript.elim h00.2 h01.2
      rw [if_pos hscript, reject_bind_eq_ok, not_not, pure_eq_ok, Except.ok.injEq]
      constructor
      · rintro ⟨rfl, rfl⟩
        refine ⟨⟨⟨_, hsplit⟩, fun _ _ _ => htail, fun hhead => ?_⟩, rfl⟩
        have hty := h02.1.mpr hhead
        rw [hty] at hscript
        exact absurd hscript (by decide)
      · rintro ⟨hk, rfl⟩
        refine ⟨?_, rfl⟩
        rw [← htail]
        rcases hscript with he | he
        · exact hk.script _ (.inl rfl) (h00.1.mp he)
        · exact hk.script _ (.inr rfl) (h01.1.mp he)
    · rw [if_neg hscript]
      by_cases hkey : ty = tPartialSig.toNat
      · rw [if_pos hkey, reject_bind_eq_ok, not_not, pure_eq_ok, Except.ok.injEq]
        constructor
        · rintro ⟨hlen, rfl⟩
          refine ⟨⟨⟨_, hsplit⟩, fun t ht hhead => absurd (hnoscript t ht hhead) hscript,
            fun _ => ?_⟩, rfl⟩
          rwa [h02.2 hkey]
        · rintro ⟨hk, rfl⟩
          have hlen := hk.derivation (h02.1.mp hkey)
          rw [h02.2 hkey] at hlen
          exact ⟨hlen, rfl⟩
      · rw [if_neg hkey, pure_eq_ok, Except.ok.injEq]
        constructor
        · rintro rfl
          exact ⟨⟨⟨_, hsplit⟩, fun t ht hhead => absurd (hnoscript t ht hhead) hscript,
            fun hhead => absurd (h02.1.mpr hhead) hkey⟩, rfl⟩
        · rintro ⟨-, rfl⟩
          rfl

/-- A pair as it is kept. -/
def kept (pair : Bytes × Bytes) : UnknownKv := ⟨pair.1, pair.2⟩

/-- A kept pair as it is written. -/
def written (kv : UnknownKv) : Bytes × Bytes := (kv.key, kv.value)

@[simp] theorem written_kept (pair : Bytes × Bytes) : written (kept pair) = pair := rfl
@[simp] theorem kept_written (kv : UnknownKv) : kept (written kv) = kv := rfl

theorem map_written_kept (pairs : List (Bytes × Bytes)) :
    (pairs.map kept).map written = pairs := by
  rw [List.map_map]
  exact List.map_id pairs

theorem map_kept_written (unknown : List UnknownKv) :
    (unknown.map written).map kept = unknown := by
  rw [List.map_map]
  exact List.map_id unknown

theorem foldlM_parseOutputPair {pairs : List (Bytes × Bytes)} {out out' : PsbtOut} :
    pairs.foldlM parseOutputPair out = .ok out' ↔
      (∀ p ∈ pairs, OutputKey p.1) ∧ out' = ⟨out.unknown ++ pairs.map kept⟩ := by
  induction pairs generalizing out with
  | nil =>
    rw [List.foldlM_nil, pure_eq_ok, Except.ok.injEq, List.map_nil, List.append_nil]
    constructor
    · rintro rfl
      exact ⟨fun p hp => absurd hp List.not_mem_nil, rfl⟩
    · rintro ⟨-, rfl⟩
      rfl
  | cons p pairs ih =>
    rw [List.foldlM_cons, bind_eq_ok, List.forall_mem_cons]
    constructor
    · rintro ⟨next, hp, hrest⟩
      obtain ⟨hkey, rfl⟩ := parseOutputPair_iff.mp hp
      obtain ⟨hkeys, rfl⟩ := ih.mp hrest
      refine ⟨⟨hkey, hkeys⟩, ?_⟩
      rw [List.append_assoc]
      rfl
    · rintro ⟨⟨hkey, hkeys⟩, rfl⟩
      refine ⟨_, parseOutputPair_iff.mpr ⟨hkey, rfl⟩, ih.mpr ⟨hkeys, ?_⟩⟩
      rw [List.append_assoc]
      rfl

theorem parseOutputMap_eq_ok {pairs : List (Bytes × Bytes)} {out : PsbtOut} :
    parseOutputMap pairs = .ok out ↔ (∀ p ∈ pairs, OutputKey p.1) ∧ out = ⟨pairs.map kept⟩ :=
  foldlM_parseOutputPair

/-- The keys that the global map keeps. -/
structure GlobalKey (key : Bytes) : Prop where
  split : ∃ s, splitKey key = .ok s
  other : key.head? ≠ some tUnsignedTx ∧ key.head? ≠ some tVersion
  xpub : key.head? = some tGlobalXpub → key.tail.length = 78

/-- What stands for the unsigned transaction. -/
structure UnsignedValue (value : Bytes) (tx : PsbtTransaction) : Prop where
  parses : parseTx value false = .ok tx
  vout : tx.vout ≠ []
  scripts : ∀ vin ∈ tx.vin, vin.script = []

/-- What stands for version zero. -/
def VersionValue (value : Bytes) : Prop := value.length = 4 ∧ unpackL value = 0

/-- What a pair of the global map can do. -/
inductive GlobalStep (key value : Bytes) (globals : GlobalMap) : GlobalMap → Prop where
  | unsignedTx (tx : PsbtTransaction) (hkey : key = [tUnsignedTx]) (h : UnsignedValue value tx) :
    GlobalStep key value globals { globals with unsignedTx := some tx }
  | version (hkey : key = [tVersion]) (h : VersionValue value) :
    GlobalStep key value globals { globals with version := 0 }
  | unknown (hkey : GlobalKey key) :
    GlobalStep key value globals
      { globals with unknownGlobal := globals.unknownGlobal ++ [⟨key, value⟩] }

theorem parseGlobalPair_unsignedTx {globals : GlobalMap} {value : Bytes} {tx : PsbtTransaction}
    (h : UnsignedValue value tx) : parseGlobalPair globals ([tUnsignedTx], value) =
      .ok { globals with unsignedTx := some tx } := by
  have hscripts : ¬(tx.vout = [] ∨ ∃ vin ∈ tx.vin, vin.script ≠ []) := by
    rintro (hvout | ⟨vin, hvin, hne⟩)
    · exact h.vout hvout
    · exact hne (h.scripts vin hvin)
  have hp : parseGlobalPair globals ([tUnsignedTx], value) =
      ((parseTx value false).mapError (fun _ => .invalidUnsignedTx) >>= fun tx =>
        reject (tx.vout = [] ∨ ∃ vin ∈ tx.vin, vin.script ≠ []) .invalidUnsignedTx >>= fun _ =>
          .ok { globals with unsignedTx := some tx }) := rfl
  rw [hp, mapError_eq_ok.mpr h.parses, ok_bind, reject_false _ hscripts, ok_bind]

theorem parseGlobalPair_kept {globals : GlobalMap} {key value : Bytes} (h : GlobalKey key) :
    parseGlobalPair globals (key, value) =
      .ok { globals with unknownGlobal := globals.unknownGlobal ++ [⟨key, value⟩] } := by
  obtain ⟨⟨ty, keydata⟩, hsplit⟩ := h.split
  have h00 := (splitKey_head hsplit tUnsignedTx (by decide)).1
  have hfb := (splitKey_head hsplit tVersion (by decide)).1
  have h01 := splitKey_head hsplit tGlobalXpub (by decide)
  refine bind_eq_ok.mpr ⟨_, hsplit, ?_⟩
  by_cases hwide : ty > 0xff
  · exact if_pos hwide
  · refine (if_neg hwide).trans ?_
    refine (if_neg fun he => h.other.1 (h00.mp he)).trans ?_
    refine (if_neg fun he => h.other.2 (hfb.mp he)).trans ?_
    by_cases hxpub : ty = tGlobalXpub.toNat
    · refine (if_pos hxpub).trans ?_
      have hlen := h.xpub (h01.1.mp hxpub)
      rw [h01.2 hxpub] at hlen
      exact reject_bind_eq_ok.mpr ⟨not_not.mpr hlen, rfl⟩
    · exact if_neg hxpub

/-- Nothing else happens to a pair. -/
theorem parseGlobalPair_step {globals globals' : GlobalMap} {key value : Bytes}
    (h : parseGlobalPair globals (key, value) = .ok globals') :
    GlobalStep key value globals globals' := by
  obtain ⟨⟨ty, keydata⟩, hsplit, h⟩ := bind_eq_ok.mp h
  have h00 := (splitKey_head hsplit tUnsignedTx (by decide)).1
  have hfb := (splitKey_head hsplit tVersion (by decide)).1
  have h01 := splitKey_head hsplit tGlobalXpub (by decide)
  rcases ite_eq_ok.mp h with ⟨hty, h⟩ | ⟨-, h⟩
  · cases h
    have hne : ∀ t : UInt8, ty ≠ t.toNat := by
      rintro t rfl
      exact absurd hty (Nat.not_lt.mpr (Nat.le_of_lt_succ t.toNat_lt))
    exact .unknown ⟨⟨_, hsplit⟩, ⟨fun he => hne _ (h00.mpr he), fun he => hne _ (hfb.mpr he)⟩,
      fun he => absurd (h01.1.mpr he) (hne _)⟩
  rcases ite_eq_ok.mp h with ⟨hty, h⟩ | ⟨hn00, h⟩
  · obtain ⟨_, hk, h⟩ := bind_eq_ok.mp h
    obtain ⟨tx, htx, h⟩ := bind_eq_ok.mp h
    obtain ⟨hscripts, h⟩ := reject_bind_eq_ok.mp h
    cases h
    rw [not_or] at hscripts
    refine .unsignedTx tx (key_of_noKeydata (hty ▸ hsplit) (by decide) hk)
      ⟨mapError_eq_ok.mp htx, hscripts.1, fun vin hvin => ?_⟩
    by_contra hne
    exact hscripts.2 ⟨vin, hvin, hne⟩
  rcases ite_eq_ok.mp h with ⟨hty, h⟩ | ⟨hnfb, h⟩
  · obtain ⟨_, hk, h⟩ := bind_eq_ok.mp h
    obtain ⟨_, hlen, h⟩ := bind_eq_ok.mp h
    obtain ⟨hzero, h⟩ := reject_bind_eq_ok.mp h
    cases h
    rw [not_not] at hzero
    rw [hzero]
    exact .version (key_of_noKeydata (hty ▸ hsplit) (by decide) hk)
      ⟨not_not.mp (reject_eq_ok.mp hlen), hzero⟩
  have hother : key.head? ≠ some tUnsignedTx ∧ key.head? ≠ some tVersion :=
    ⟨fun he => hn00 (h00.mpr he), fun he => hnfb (hfb.mpr he)⟩
  rcases ite_eq_ok.mp h with ⟨hty, h⟩ | ⟨hn01, h⟩
  · obtain ⟨hlen, h⟩ := reject_bind_eq_ok.mp h
    cases h
    refine .unknown ⟨⟨_, hsplit⟩, hother, fun _ => ?_⟩
    rw [h01.2 hty]
    exact not_not.mp hlen
  · cases h
    exact .unknown ⟨⟨_, hsplit⟩, hother, fun he => absurd (h01.1.mpr he) hn01⟩

/-- The pair that the transaction is written as. -/
def txPair (tx : PsbtTransaction) : Bytes × Bytes := ([tUnsignedTx], tx.serializeStripped)

/-- What is written of the globals. -/
def globalPairs (globals : GlobalMap) : List (Bytes × Bytes) :=
  (globals.unsignedTx.map txPair).toList ++ globals.unknownGlobal.map written

/-- Pairs in the form the writer gives them. -/
def CanonicalGlobals (pairs : List (Bytes × Bytes)) : Prop :=
  ∀ p ∈ pairs, p.1 ≠ [tVersion] ∧
    (p.1 = [tUnsignedTx] → ∀ tx, parseTx p.2 false = .ok tx → p.2 = tx.serializeStripped)

/-- What the globals have become, and how it compares with the pairs read. -/
structure GlobalsRead (pairs : List (Bytes × Bytes)) (globals : GlobalMap) : Prop where
  version : globals.version = 0
  unknown : ∀ kv ∈ globals.unknownGlobal, GlobalKey kv.key
  unsignedTx : ∀ tx, globals.unsignedTx = some tx →
    ∃ value, ([tUnsignedTx], value) ∈ pairs ∧ UnsignedValue value tx
  size : ((globalPairs globals).flatMap encodePair).length ≤ (pairs.flatMap encodePair).length
  canonical : CanonicalGlobals pairs → pairs.Perm (globalPairs globals)

theorem txPair_length {value : Bytes} {tx : PsbtTransaction} (h : UnsignedValue value tx) :
    (encodePair (txPair tx)).length ≤ (encodePair ([tUnsignedTx], value)).length := by
  obtain ⟨-, hwitness, hlen⟩ := parseTx_spec h.parses
  rw [serializeWire_stripped (hwitness rfl)] at hlen
  have hle := compactSizeLen_add_mono hlen
  rw [encodePair_length, encodePair_length, txPair]
  dsimp only
  omega

theorem foldlM_parseGlobalPair {pairs : List (Bytes × Bytes)} {globals : GlobalMap}
    (hn : (pairs.map Prod.fst).Nodup)
    (h : pairs.foldlM parseGlobalPair ⟨0, none, []⟩ = .ok globals) :
    GlobalsRead pairs globals := by
  refine foldlM_induct (motive := fun done globals => GlobalsRead done globals) ?_ ?_ h
  · exact ⟨rfl, fun kv hkv => absurd hkv List.not_mem_nil, nofun, le_rfl, fun _ => .nil⟩
  · intro done pair rest globals globals' hl hread hstep
    have hsize : ((done ++ [pair]).flatMap encodePair).length =
        (done.flatMap encodePair).length + (encodePair pair).length := by
      rw [List.flatMap_append, List.length_append, List.flatMap_singleton]
    have hprev := hread.size
    have hcanon : CanonicalGlobals (done ++ [pair]) → done.Perm (globalPairs globals) := fun hc =>
      hread.canonical fun p hp => hc p (List.mem_append_left _ hp)
    cases parseGlobalPair_step hstep with
    | unsignedTx tx hkey hvalue =>
      have hpair : pair = ([tUnsignedTx], pair.2) := Prod.ext hkey rfl
      refine ⟨hread.version, hread.unknown, ?_, ?_, fun hc => ?_⟩
      · intro tx' htx'
        cases htx'
        exact ⟨pair.2, List.mem_append_right _ (List.mem_singleton.mpr hpair.symm), hvalue⟩
      · have htx := txPair_length hvalue
        rw [← hpair] at htx
        rw [hsize]
        simp only [globalPairs, List.flatMap_append, List.length_append, Option.map_some,
          Option.toList_some, List.flatMap_singleton] at hprev ⊢
        omega
      · -- The transaction's key is new, so no transaction was read before.
        have hnone : globals.unsignedTx = none := by
          rw [Option.eq_none_iff_forall_ne_some]
          intro tx' htx'
          obtain ⟨value, hmem, -⟩ := hread.unsignedTx tx' htx'
          exact next_key_new hn hl (hkey ▸ List.mem_map_of_mem hmem)
        have hdone := hcanon hc
        have hlast := (hc pair (List.mem_append_right _ List.mem_cons_self)).2 hkey tx hvalue.parses
        have hwritten : pair = txPair tx := by rw [hpair, hlast]; rfl
        rw [globalPairs, hnone] at hdone
        rw [hwritten]
        exact (List.perm_append_singleton _ _).trans (hdone.cons _)
    | version hkey hvalue =>
      refine ⟨rfl, hread.unknown, ?_, ?_, fun hc => ?_⟩
      · intro tx htx
        obtain ⟨value, hmem, hv⟩ := hread.unsignedTx tx htx
        exact ⟨value, List.mem_append_left _ hmem, hv⟩
      · rw [hsize]
        exact hprev.trans (Nat.le_add_right _ _)
      · exact absurd hkey (hc pair (List.mem_append_right _ List.mem_cons_self)).1
    | unknown hkey =>
      refine ⟨hread.version, ?_, ?_, ?_, fun hc => ?_⟩
      · intro kv hkv
        cases List.mem_append.mp hkv with
        | inl hkv => exact hread.unknown kv hkv
        | inr hkv =>
          rw [List.mem_singleton.mp hkv]
          exact hkey
      · intro tx htx
        obtain ⟨value, hmem, hv⟩ := hread.unsignedTx tx htx
        exact ⟨value, List.mem_append_left _ hmem, hv⟩
      · rw [hsize]
        simp only [globalPairs, List.flatMap_append, List.length_append, List.map_append,
          List.map_singleton, List.flatMap_singleton] at hprev ⊢
        have hw : written ⟨pair.1, pair.2⟩ = pair := rfl
        rw [hw]
        omega
      · have hdone := hcanon hc
        rw [globalPairs] at hdone ⊢
        rw [List.map_append, ← List.append_assoc]
        exact hdone.append_right _

/-- Kept pairs are read one after the other. -/
theorem foldlM_kept {pairs : List (Bytes × Bytes)} (hkeys : ∀ p ∈ pairs, GlobalKey p.1)
    (globals : GlobalMap) : pairs.foldlM parseGlobalPair globals =
      .ok { globals with unknownGlobal := globals.unknownGlobal ++ pairs.map kept } := by
  induction pairs generalizing globals with
  | nil =>
    rw [List.map_nil, List.append_nil]
    rfl
  | cons p pairs ih =>
    rw [List.foldlM_cons, parseGlobalPair_kept (hkeys p List.mem_cons_self), ok_bind,
      ih fun q hq => hkeys q (List.mem_cons_of_mem _ hq)]
    simp only [List.map_cons, List.append_assoc]
    rfl

end Yubtc.GlobalRecords
