import Yubtc.PsbtRoundTrip
import Yubtc.Combine
import Yubtc.SigningFrame
import Yubtc.Finalization

/-!
# Input maps that travel

An input map comes back from the wire as it is when each of its fields is in the order of the
writer and holds what the reader takes. Every role keeps its input maps so.
-/
namespace Yubtc.TidyInputs

open Wire Errors ExceptRules Crypto Script Transaction PsbtData PsbtCodec PsbtRoles PsbtRecords
  CanonicalForm PsbtReading RecordCodec PsbtRoundTrip Combine Signer SignWalk SignedState
  SigningFrame QuorumPsbt Finalization

variable {P : Primitives}

/-- The records of a field, all written and read again, in strict key order. -/
structure TidyField (f : Field) (l : List Record) : Prop where
  readable : ∀ x ∈ l, keyField x.1 = f ∧ Readable x ∧ ¬ EmptyFinal x
  sorted : l.Pairwise fun a b => a.1 < b.1

/-- An input map that comes back as it is. -/
structure Tidy (input : PsbtIn) : Prop where
  fields : ∀ f, TidyField f (fieldRecords input f)
  xOnly : ∀ s ∈ input.tapScriptSigs, s.xOnly.length = 32
  known : input.unknown = []

theorem tidyField_nil (f : Field) : TidyField f [] :=
  ⟨fun _ hx => absurd hx List.not_mem_nil, .nil⟩

theorem tidyField_one {f : Field} {x : Record} (hf : keyField x.1 = f) (hx : Readable x)
    (hempty : ¬ EmptyFinal x) : TidyField f [x] := by
  refine ⟨?_, List.pairwise_singleton _ _⟩
  intro y hy
  obtain rfl := List.mem_singleton.mp hy
  exact ⟨hf, hx, hempty⟩

theorem TidyField.nodup {f : Field} {l : List Record} (h : TidyField f l) :
    (l.map Prod.fst).Nodup := by
  rw [List.Nodup, List.pairwise_map]
  apply h.sorted.imp
  intro a b hlt heq
  exact List.lt_irrefl _ (heq ▸ hlt)

theorem Tidy.wellFormed {input : PsbtIn} (h : Tidy input) : WellFormedInput input where
  nodup f := (h.fields f).nodup
  classified f x hx := ((h.fields f).readable x hx).1
  xOnly := h.xOnly

theorem TidyField.written {f : Field} {l : List Record} (h : TidyField f l) :
    writtenRecords l = l := by
  rw [writtenRecords, List.filter_eq_self]
  intro x hx
  exact decide_eq_true (h.readable x hx).2.2

theorem TidyField.sortKeys {f : Field} {l : List Record} (h : TidyField f l) :
    sortKeys l = l := by
  apply sortKeys_of_sorted _ h.nodup
  apply h.sorted.imp
  intro a b hlt
  exact List.le_of_lt hlt

/-- What comes back of a tidy input map is the map. -/
theorem Tidy.reread {input input' : PsbtIn} (h : Tidy input) (hr : Reread input input') :
    input' = input := by
  apply input_ext _ hr.wellFormed.xOnly h.xOnly
  intro f
  rw [hr.fields f, (h.fields f).written, (h.fields f).sortKeys]

/-- The key of a field without key data. -/
theorem inputKey_optional {f : Field} (hf : isOptional f = true) :
    InputKey [fieldType f] ∧ keyField [fieldType f] = f := by
  cases f <;> first
    | exact ⟨⟨⟨_, rfl⟩, rfl, head_ne (by decide)⟩, rfl⟩
    | cases hf

theorem tidyField_optional {f : Field} {v : RecordValue} (hf : isOptional f = true)
    (hread : Readable ([fieldType f], v))
    (hempty : f = .finalScriptsig ∨ f = .finalScriptwitness → v ≠ .bytes []) :
    TidyField f [([fieldType f], v)] := by
  have hkey := (inputKey_optional hf).2
  apply tidyField_one hkey hread
  rintro ⟨hk | hk, hv⟩
  · dsimp only at hk
    rw [hk] at hkey
    exact hempty (.inl hkey.symm) hv
  · dsimp only at hk
    rw [hk] at hkey
    exact hempty (.inr hkey.symm) hv

/-- A previous transaction with inputs is read again. -/
theorem tidyField_tx {prev : PsbtTransaction} (hfits : Fits prev) (hvin : prev.vin ≠ []) :
    TidyField .nonWitnessUtxo (optionalRecord tUnsignedTx .tx (some prev)) := by
  have hread : Readable ([tUnsignedTx], .tx prev) := by
    refine ⟨(inputKey_optional (f := .nonWitnessUtxo) rfl).1, prev, rfl, hfits, ?_⟩
    exact fun hbare => hvin hbare.1
  apply tidyField_optional (f := .nonWitnessUtxo) rfl hread
  rintro (h | h) <;> cases h

theorem tidyField_out (out : PsbtTxOut) :
    TidyField .witnessUtxo (optionalRecord tInWitnessUtxo .out (some out)) := by
  have hread : Readable ([tInWitnessUtxo], .out out) :=
    ⟨(inputKey_optional (f := .witnessUtxo) rfl).1, out, rfl⟩
  apply tidyField_optional (f := .witnessUtxo) rfl hread
  rintro (h | h) <;> cases h

/-- The fields whose value is a byte string, for the final ones not the empty one. -/
theorem tidyField_bytes {f : Field} {value : Bytes}
    (hf : f = .redeemScript ∨ f = .witnessScript ∨ f = .tapInternalKey ∧ value.length = 32 ∨
      (f = .finalScriptsig ∨ f = .finalScriptwitness) ∧ value ≠ []) :
    TidyField f (optionalRecord (fieldType f) .bytes (some value)) := by
  have hoptional : isOptional f = true := by
    rcases hf with rfl | rfl | ⟨rfl, -⟩ | ⟨rfl | rfl, -⟩ <;> rfl
  apply tidyField_optional hoptional
  · refine ⟨(inputKey_optional hoptional).1, ?_⟩
    rcases hf with rfl | rfl | ⟨rfl, hlen⟩ | ⟨rfl | rfl, -⟩
    · exact ⟨value, rfl⟩
    · exact ⟨value, rfl⟩
    · exact ⟨value, rfl, hlen⟩
    · exact ⟨value, rfl⟩
    · exact ⟨value, rfl⟩
  · intro hfinal hnil
    rcases hf with rfl | rfl | ⟨rfl, -⟩ | ⟨-, hne⟩
    · rcases hfinal with h | h <;> cases h
    · rcases hfinal with h | h <;> cases h
    · rcases hfinal with h | h <;> cases h
    · exact hne (RecordValue.bytes.inj hnil)

/-- No list field has a record that is left out. -/
theorem not_emptyFinal_of_list {x : Record} (h : isOptional (keyField x.1) = false) :
    ¬ EmptyFinal x := by
  rintro ⟨hk | hk, -⟩ <;>
  · rw [hk] at h
    cases h

theorem cons_lt_cons_self {b : UInt8} {x y : Bytes} : b :: x < b :: y ↔ x < y := by
  rw [List.cons_lt_cons_iff]
  exact ⟨fun h => h.elim (fun hlt => absurd hlt (UInt8.lt_irrefl b)) And.right,
    fun h => .inr ⟨rfl, h⟩⟩

/-- Byte strings whose first parts have one length compare part by part. -/
theorem append_lt_append {x y u v : Bytes} (h : x.length = y.length) :
    x ++ u < y ++ v ↔ x < y ∨ x = y ∧ u < v := by
  induction x generalizing y with
  | nil =>
    obtain rfl := List.length_eq_zero_iff.mp h.symm
    simp
  | cons a x ih =>
    cases y with
    | nil => cases h
    | cons b y =>
      have hrest := @ih y (Nat.succ.inj h)
      rw [List.cons_append, List.cons_append, List.cons_lt_cons_iff, List.cons_lt_cons_iff, hrest,
        List.cons.injEq]
      tauto

theorem tidy_partialSigs {sigs : List (Bytes × Bytes)} :
    TidyField .partialSigs (sigs.map partialSigRecord) ↔
      OrderedSigs sigs ∧ ∀ p ∈ sigs, pubkeyKeydataLen p.1 = true := by
  have hsorted : (sigs.map partialSigRecord).Pairwise (fun a b => a.1 < b.1) ↔
      OrderedSigs sigs := by
    rw [List.pairwise_map, OrderedSigs]
    simp only [partialSigRecord, cons_lt_cons_self]
  constructor
  · intro h
    refine ⟨hsorted.mp h.sorted, ?_⟩
    intro p hp
    exact (h.readable _ (List.mem_map_of_mem hp)).2.1.key.shape
  · rintro ⟨hordered, hlen⟩
    refine ⟨?_, hsorted.mpr hordered⟩
    intro x hx
    obtain ⟨p, hp, rfl⟩ := List.mem_map.mp hx
    exact ⟨rfl, ⟨⟨⟨_, rfl⟩, hlen p hp, head_ne (by decide)⟩, p.2, rfl⟩,
      not_emptyFinal_of_list rfl⟩

theorem tidy_tapScriptSigs {sigs : List TapScriptSig} (hx : ∀ s ∈ sigs, s.xOnly.length = 32) :
    TidyField .tapScriptSigs (sigs.map tapScriptSigRecord) ↔
      OrderedTapSigs sigs ∧ ∀ s ∈ sigs, s.leafHash.length = 32 := by
  have hsorted : (sigs.map tapScriptSigRecord).Pairwise (fun a b => a.1 < b.1) ↔
      OrderedTapSigs sigs := by
    rw [List.pairwise_map, OrderedTapSigs]
    apply List.Pairwise.iff_of_mem
    intro a b ha hb
    have hlen : a.xOnly.length = b.xOnly.length := (hx a ha).trans (hx b hb).symm
    exact cons_lt_cons_self.trans (append_lt_append hlen)
  constructor
  · intro h
    refine ⟨hsorted.mp h.sorted, ?_⟩
    intro s hs
    have hshape : (s.xOnly ++ s.leafHash).length = 64 :=
      (h.readable _ (List.mem_map_of_mem hs)).2.1.key.shape
    rw [List.length_append, hx s hs] at hshape
    omega
  · rintro ⟨hordered, hlen⟩
    refine ⟨?_, hsorted.mpr hordered⟩
    intro x hmem
    obtain ⟨s, hs, rfl⟩ := List.mem_map.mp hmem
    have hshape : (s.xOnly ++ s.leafHash).length = 64 := by
      rw [List.length_append, hx s hs, hlen s hs]
    exact ⟨rfl, ⟨⟨⟨_, rfl⟩, hshape, head_ne (by decide)⟩, s.sig, rfl⟩, not_emptyFinal_of_list rfl⟩

/-- One leaf, as the Creator reveals it. -/
theorem tidy_tapLeafScript {leaf : TapLeafScript} (hblock : leaf.controlBlock.length = 33)
    (hscript : leaf.scriptWithVersion ≠ []) :
    TidyField .tapLeafScripts [tapLeafScriptRecord leaf] := by
  apply tidyField_one (x := tapLeafScriptRecord leaf) rfl
  · exact ⟨⟨⟨_, rfl⟩, hblock, head_ne (by decide)⟩, leaf.scriptWithVersion, rfl, hscript⟩
  · exact not_emptyFinal_of_list rfl

theorem tidy_emptyInput : Tidy emptyInput := by
  refine ⟨?_, fun s hs => absurd hs List.not_mem_nil, rfl⟩
  intro f
  rw [emptyInput_fieldRecords]
  exact tidyField_nil f

/-- A map that differs in one field. -/
theorem Tidy.withField {input r : PsbtIn} (f : Field) (h : Tidy input)
    (hf : TidyField f (fieldRecords r f))
    (hothers : ∀ g, g ≠ f → fieldRecords r g = fieldRecords input g)
    (hx : ∀ s ∈ r.tapScriptSigs, s.xOnly.length = 32) (hunknown : r.unknown = input.unknown) :
    Tidy r := by
  refine ⟨?_, hx, hunknown.trans h.known⟩
  intro g
  by_cases hg : g = f
  · exact hg ▸ hf
  · rw [hothers g hg]
    exact h.fields g

theorem Tidy.setTx {input : PsbtIn} {prev : PsbtTransaction} (h : Tidy input) (hfits : Fits prev)
    (hvin : prev.vin ≠ []) : Tidy { input with nonWitnessUtxo := some prev } := by
  refine h.withField .nonWitnessUtxo ?_ ?_ h.xOnly rfl
  · exact tidyField_tx hfits hvin
  · intro g hg
    cases g <;> first | rfl | exact absurd rfl hg

theorem Tidy.setRedeem {input : PsbtIn} (h : Tidy input) (script : Bytes) :
    Tidy { input with redeemScript := some script } := by
  refine h.withField .redeemScript ?_ ?_ h.xOnly rfl
  · exact tidyField_bytes (.inl rfl)
  · intro g hg
    cases g <;> first | rfl | exact absurd rfl hg

theorem Tidy.setWitnessScript {input : PsbtIn} (h : Tidy input) (script : Bytes) :
    Tidy { input with witnessScript := some script } := by
  refine h.withField .witnessScript ?_ ?_ h.xOnly rfl
  · exact tidyField_bytes (.inr (.inl rfl))
  · intro g hg
    cases g <;> first | rfl | exact absurd rfl hg

theorem Tidy.setInternalKey {input : PsbtIn} {key : Bytes} (h : Tidy input)
    (hlen : key.length = 32) : Tidy { input with tapInternalKey := some key } := by
  refine h.withField .tapInternalKey ?_ ?_ h.xOnly rfl
  · exact tidyField_bytes (.inr (.inr (.inl ⟨rfl, hlen⟩)))
  · intro g hg
    cases g <;> first | rfl | exact absurd rfl hg

theorem Tidy.setLeaf {input : PsbtIn} {leaf : TapLeafScript} (h : Tidy input)
    (hblock : leaf.controlBlock.length = 33) (hscript : leaf.scriptWithVersion ≠ []) :
    Tidy { input with tapLeafScripts := [leaf] } := by
  refine h.withField .tapLeafScripts ?_ ?_ h.xOnly rfl
  · exact tidy_tapLeafScript hblock hscript
  · intro g hg
    cases g <;> first | rfl | exact absurd rfl hg

theorem tidy_witnessInput (create : CreateInput) : Tidy (witnessInput create) := by
  refine tidy_emptyInput.withField .witnessUtxo ?_ ?_ tidy_emptyInput.xOnly rfl
  · exact tidyField_out _
  · intro g hg
    cases g <;> first | rfl | exact absurd rfl hg

theorem leafScript_ne_nil {leafValue : Bytes} {parts : Bytes × Nat × List Bytes}
    (h : leafScript leafValue = .ok parts) : leafValue ≠ [] := by
  rintro rfl
  cases h

/-- Every input map of the Creator, over previous transactions that have inputs. -/
theorem createInput_tidy {i : Nat} {vin : PsbtTxIn} {create : CreateInput} {input : PsbtIn}
    (hprev : ∀ prev, create.prevTx = some prev → Fits prev ∧ prev.vin ≠ [])
    (h : createInput P i vin create = .ok input) : Tidy input := by
  have hchecked : ∀ prev, checkedPrevTx P i vin create = .ok prev → Fits prev ∧ prev.vin ≠ [] := by
    intro prev hprevTx
    obtain ⟨prev', hsome, hprevTx⟩ := bind_eq_ok.mp hprevTx
    obtain ⟨-, hprevTx⟩ := reject_bind_eq_ok.mp hprevTx
    cases hprevTx
    exact hprev _ (orElseThrow_eq_ok.mp hsome)
  unfold createInput at h
  split at h
  · obtain ⟨prev, hcheck, h⟩ := bind_eq_ok.mp h
    cases h
    exact tidy_emptyInput.setTx (hchecked prev hcheck).1 (hchecked prev hcheck).2
  · split at h
    · obtain ⟨_, -, h⟩ := bind_eq_ok.mp h
      obtain ⟨-, h⟩ := reject_bind_eq_ok.mp h
      obtain ⟨prev, hcheck, h⟩ := bind_eq_ok.mp h
      cases h
      exact (tidy_emptyInput.setTx (hchecked prev hcheck).1 (hchecked prev hcheck).2).setRedeem _
    · split at h
      · obtain ⟨_, -, h⟩ := bind_eq_ok.mp h
        obtain ⟨-, h⟩ := reject_bind_eq_ok.mp h
        cases h
        exact (tidy_witnessInput create).setWitnessScript _
      · split at h
        · split at h
          · obtain ⟨_, hleaf, h⟩ := bind_eq_ok.mp h
            obtain ⟨_, -, h⟩ := bind_eq_ok.mp h
            obtain ⟨-, h⟩ := reject_bind_eq_ok.mp h
            obtain ⟨_, hblock, h⟩ := bind_eq_ok.mp h
            cases h
            have hlen := (tapscriptControlBlock_spec hblock).1
            exact ((tidy_witnessInput create).setLeaf hlen (leafScript_ne_nil hleaf)).setInternalKey
              (by decide)
          · cases h
            exact tidy_witnessInput create
        · cases h
          exact tidy_witnessInput create

theorem pubkey_keydata (hP : P.Lawful) (key : P.PrivateKey) :
    pubkeyKeydataLen (privkey2pubkey P key) = true := by
  rw [pubkeyKeydataLen, privkey2pubkey, hP.format_length]
  rfl

theorem xOnly_pubkey (hP : P.Lawful) (key : P.PrivateKey) :
    (slice (privkey2pubkey P key) 1 33).length = 32 := by
  rw [slice, List.length_take, List.length_drop, privkey2pubkey, hP.format_length]
  rfl

/-- A signature goes where its key belongs. -/
theorem addOutcome_tidy (hP : P.Lawful) {input : PsbtIn} {key : P.PrivateKey} {o : SignOutcome}
    (hown : OwnEntry P input key o) (h : Tidy input) : Tidy (addOutcome input o) := by
  obtain ⟨hsigs, htaps⟩ := ordered_of_own hown
  cases hown with
  | partialSig sig hnew =>
    obtain ⟨hordered, hlen⟩ := tidy_partialSigs.mp (h.fields .partialSigs)
    refine h.withField .partialSigs ?_ ?_ h.xOnly rfl
    · apply tidy_partialSigs.mpr ⟨hsigs hordered, _⟩
      intro p hp
      cases List.mem_cons.mp ((insert_perm _ _ _).mem_iff.mp hp) with
      | inl he => exact he ▸ pubkey_keydata hP key
      | inr hp => exact hlen p hp
    · intro g hg
      cases g <;> first | rfl | exact absurd rfl hg
  | tapScriptSig leaf sig hleaf hnew =>
    obtain ⟨hordered, hlen⟩ := (tidy_tapScriptSigs h.xOnly).mp (h.fields .tapScriptSigs)
    have hx : ∀ s ∈ (insertTapScriptSig input ⟨slice (privkey2pubkey P key) 1 33,
        tapscriptLeafHash P leaf.scriptWithVersion.dropLast, sig⟩).tapScriptSigs,
        s.xOnly.length = 32 ∧ s.leafHash.length = 32 := by
      intro s hs
      cases List.mem_cons.mp ((insert_perm _ _ _).mem_iff.mp hs) with
      | inl he => exact he ▸ ⟨xOnly_pubkey hP key, taggedHash_length P hP _ _⟩
      | inr hs => exact ⟨h.xOnly s hs, hlen s hs⟩
    refine h.withField .tapScriptSigs ?_ ?_ (fun s hs => (hx s hs).1) rfl
    · apply (tidy_tapScriptSigs fun s hs => (hx s hs).1).mpr ⟨htaps hordered, _⟩
      exact fun s hs => (hx s hs).2
    · intro g hg
      cases g <;> first | rfl | exact absurd rfl hg

theorem singleton_le {x y : Bytes} : [x] ≤ [y] ↔ x ≤ y := by
  rw [List.cons_le_cons_iff, and_iff_left (List.le_refl []), ← List.le_iff_lt_or_eq]

theorem tapScriptSig_le_iff (a b : TapScriptSig) : TapScriptSig.le a b = true ↔
    [a.xOnly, a.leafHash, a.sig] ≤ [b.xOnly, b.leafHash, b.sig] := by
  rw [List.cons_le_cons_iff, List.cons_le_cons_iff, singleton_le]
  simp only [TapScriptSig.le, Bool.or_eq_true, Bool.and_eq_true, decide_eq_true_eq]

theorem tapLeafScript_le_iff (a b : TapLeafScript) : TapLeafScript.le a b = true ↔
    [a.controlBlock, a.scriptWithVersion] ≤ [b.controlBlock, b.scriptWithVersion] := by
  rw [List.cons_le_cons_iff, singleton_le]
  simp only [TapLeafScript.le, Bool.or_eq_true, Bool.and_eq_true, decide_eq_true_eq]

/-- Sorting by an order of tuples sorts. -/
theorem pairwise_tuples {α : Type} {le : α → α → Bool} {tuple : α → List Bytes}
    (hle : ∀ a b, le a b = true ↔ tuple a ≤ tuple b) (l : List α) :
    (l.insertionSort fun a b => le a b).Pairwise fun a b => le a b = true := by
  have : Std.Total (fun a b : α => le a b = true) := by
    constructor
    intro a b
    rw [hle, hle]
    exact Std.Total.total (tuple a) (tuple b)
  have : IsTrans α (fun a b => le a b = true) := by
    constructor
    intro a b c
    rw [hle, hle, hle]
    exact IsTrans.trans (tuple a) (tuple b) (tuple c)
  exact List.pairwise_insertionSort _ l

theorem sorted_of_le {l : List Record} (hs : l.Pairwise fun a b => a.1 ≤ b.1)
    (hn : (l.map Prod.fst).Nodup) : l.Pairwise fun a b => a.1 < b.1 := by
  apply (hs.and (List.pairwise_map.mp hn)).imp
  intro a b hab
  exact Std.lt_of_le_of_ne hab.1 hab.2

theorem optionalRecord_sorted {α : Type} (ty : UInt8) (value : α → RecordValue)
    (field : Option α) :
    (optionalRecord ty value field).Pairwise fun a b : Record => a.1 < b.1 := by
  cases field with
  | none => exact .nil
  | some v => exact List.pairwise_singleton _ _

section Merge

variable {a b r : PsbtIn}

theorem merged_partialSigs (h : FieldMerges a b r) :
    (fieldRecords r .partialSigs).Pairwise fun x y => x.1 ≤ y.1 := by
  obtain ⟨out, -, hsort⟩ := bind_eq_ok.mp h.partialSigs
  have hr : r.partialSigs = sortKeys out := (Except.ok.inj hsort).symm
  rw [fieldRecords, hr, List.pairwise_map]
  apply (sortKeys_pairwise out).imp
  intro x y hxy
  exact List.not_lt.mp fun hlt => List.not_lt.mpr hxy (cons_lt_cons_self.mp hlt)

theorem merged_tapScriptSigs (ha : Tidy a) (hb : Tidy b) (h : FieldMerges a b r) :
    (fieldRecords r .tapScriptSigs).Pairwise fun x y => x.1 ≤ y.1 := by
  obtain ⟨out, -, hsort⟩ := bind_eq_ok.mp h.tapScriptSigs
  have hx := (h.wellFormed ha.wellFormed hb.wellFormed).xOnly
  have hr : r.tapScriptSigs = out.insertionSort fun x y => TapScriptSig.le x y :=
    (Except.ok.inj hsort).symm
  have hpair := pairwise_tuples tapScriptSig_le_iff out
  rw [← hr] at hpair
  rw [fieldRecords, List.pairwise_map]
  apply hpair.imp_of_mem
  intro s t hs ht hle
  apply List.not_lt.mp
  intro hlt
  rcases (append_lt_append ((hx t ht).trans (hx s hs).symm)).mp (cons_lt_cons_self.mp hlt)
    with hkey | ⟨hkey, hleaf⟩
  · rw [tapScriptSig_le_iff, List.cons_le_cons_iff] at hle
    rcases hle with hlt | ⟨heq, -⟩
    · exact List.lt_asymm hlt hkey
    · exact List.lt_irrefl _ (heq ▸ hkey)
  · rw [tapScriptSig_le_iff, List.cons_le_cons_iff, List.cons_le_cons_iff] at hle
    rcases hle with hlt | ⟨-, hlt | ⟨heq, -⟩⟩
    · exact List.lt_irrefl _ (hkey ▸ hlt)
    · exact List.lt_asymm hlt hleaf
    · exact List.lt_irrefl _ (heq ▸ hleaf)

theorem merged_tapLeafScripts (h : FieldMerges a b r) :
    (fieldRecords r .tapLeafScripts).Pairwise fun x y => x.1 ≤ y.1 := by
  obtain ⟨out, -, hsort⟩ := bind_eq_ok.mp h.tapLeafScripts
  have hr : r.tapLeafScripts = out.insertionSort fun x y => TapLeafScript.le x y :=
    (Except.ok.inj hsort).symm
  have hpair := pairwise_tuples tapLeafScript_le_iff out
  rw [← hr] at hpair
  rw [fieldRecords, List.pairwise_map]
  apply hpair.imp
  intro s t hle
  apply List.not_lt.mp
  intro hlt
  rw [tapLeafScript_le_iff, List.cons_le_cons_iff] at hle
  rcases hle with hle | ⟨heq, -⟩
  · exact List.lt_asymm hle (cons_lt_cons_self.mp hlt)
  · exact List.lt_irrefl _ (heq ▸ cons_lt_cons_self.mp hlt)

/-- The merge of tidy input maps is tidy. -/
theorem merged_tidy (ha : Tidy a) (hb : Tidy b) (h : FieldMerges a b r) : Tidy r := by
  have hwa := ha.wellFormed
  have hwb := hb.wellFormed
  have hknown : r.unknown = [] := by
    have hunknown := h.unknown
    rw [ha.known, hb.known] at hunknown
    exact (Except.ok.inj hunknown).symm
  refine ⟨?_, (h.wellFormed hwa hwb).xOnly, hknown⟩
  intro f
  obtain ⟨-, hmem, hnodup⟩ := h.field hwa hwb f
  constructor
  · intro x hx
    cases (hmem x).mp hx with
    | inl hx => exact (ha.fields f).readable x hx
    | inr hx => exact (hb.fields f).readable x hx
  · cases f with
    | partialSigs => exact sorted_of_le (merged_partialSigs h) hnodup
    | tapScriptSigs => exact sorted_of_le (merged_tapScriptSigs ha hb h) hnodup
    | tapLeafScripts => exact sorted_of_le (merged_tapLeafScripts h) hnodup
    | unknown =>
      rw [fieldRecords, hknown]
      exact .nil
    | _ => exact optionalRecord_sorted _ _ _

end Merge

/-- The Taproot fields are as they were, or gone. -/
def TapSettled (input r : PsbtIn) : Prop :=
  (r.tapScriptSigs = input.tapScriptSigs ∧ r.tapLeafScripts = input.tapLeafScripts ∧
    r.tapInternalKey = input.tapInternalKey ∧ r.tapMerkleRoot = input.tapMerkleRoot) ∨
  (r.tapScriptSigs = [] ∧ r.tapLeafScripts = [] ∧ r.tapInternalKey = none ∧
    r.tapMerkleRoot = none)

theorem finalBranch_tap {i : Nat} {input r : PsbtIn} {scriptPubkey : Bytes}
    (h : finalBranch P i input scriptPubkey = .ok r) : TapSettled input r := by
  unfold finalBranch at h
  split at h
  · obtain ⟨_, -, h⟩ := bind_eq_ok.mp h
    obtain ⟨_, -, h⟩ := bind_eq_ok.mp h
    cases h
    exact .inl ⟨rfl, rfl, rfl, rfl⟩
  · split at h
    · obtain ⟨_, -, h⟩ := bind_eq_ok.mp h
      cases h
      exact .inl ⟨rfl, rfl, rfl, rfl⟩
    · split at h
      · obtain ⟨_, -, h⟩ := bind_eq_ok.mp h
        obtain ⟨-, h⟩ := reject_bind_eq_ok.mp h
        obtain ⟨_, -, h⟩ := bind_eq_ok.mp h
        obtain ⟨-, h⟩ := reject_bind_eq_ok.mp h
        cases h
        exact .inr ⟨rfl, rfl, rfl, rfl⟩
      · obtain ⟨form, -, h⟩ := bind_eq_ok.mp h
        obtain ⟨-, h⟩ := reject_bind_eq_ok.mp h
        left
        cases form with
        | legacy committed =>
          obtain ⟨_, -, h⟩ := bind_eq_ok.mp h
          obtain ⟨_, -, h⟩ := bind_eq_ok.mp h
          cases h
          exact ⟨rfl, rfl, rfl, rfl⟩
        | p2wpkh committed =>
          obtain ⟨_, -, h⟩ := bind_eq_ok.mp h
          cases h
          exact ⟨rfl, rfl, rfl, rfl⟩
        | p2tr committed =>
          obtain ⟨_, -, h⟩ := bind_eq_ok.mp h
          cases h
          exact ⟨rfl, rfl, rfl, rfl⟩

theorem encodeWitnessStack_ne_nil (stack : List Bytes) : encodeWitnessStack stack ≠ [] := by
  intro h
  have hlen := congrArg List.length (List.append_eq_nil_iff.mp h).1
  rw [writeCompactSize_eq, compactSize_length] at hlen
  unfold compactSizeLen at hlen
  split at hlen <;> [skip; split at hlen <;> [skip; split at hlen]] <;> cases hlen

/-- One of the final fields, filled or absent. -/
theorem tidy_final {f : Field} (hf : f = .finalScriptsig ∨ f = .finalScriptwitness)
    {value : Option Bytes} (hne : value ≠ some []) :
    TidyField f (optionalRecord (fieldType f) .bytes value) := by
  cases value with
  | none => exact tidyField_nil f
  | some b =>
    apply tidyField_bytes
    exact .inr (.inr (.inr ⟨hf, fun hnil => hne (congrArg some hnil)⟩))

theorem finalField_filled {scriptPubkey : Bytes} {r : PsbtIn} (h : FinalField scriptPubkey r) :
    r.finalScriptsig ≠ some [] ∧ r.finalScriptwitness ≠ some [] := by
  rcases h with ⟨-, ⟨script, hne, hsig⟩, hwitness⟩ | ⟨-, hsig, stack, -, hwitness⟩
  · rw [hsig, hwitness]
    exact ⟨fun he => hne (Option.some.inj he), (Option.some_ne_none _).symm⟩
  · rw [hsig, hwitness]
    exact ⟨(Option.some_ne_none _).symm,
      fun he => encodeWitnessStack_ne_nil stack (Option.some.inj he)⟩

theorem finalBranch_tidy {i : Nat} {input r : PsbtIn} {scriptPubkey : Bytes}
    (hfinal : ¬ IsFinal input) (h : Tidy input)
    (hbranch : finalBranch P i input scriptPubkey = .ok r) : Tidy r := by
  have hnew := finalBranch_newly hfinal hbranch
  obtain ⟨hsig, hwitness⟩ := finalField_filled hnew.finalField
  have hcleared := hnew.cleared
  have hkept := hnew.kept
  have htap := finalBranch_tap hbranch
  refine ⟨?_, ?_, hkept.unknown.trans h.known⟩
  · intro f
    cases f with
    | nonWitnessUtxo =>
      rw [fieldRecords, hkept.nonWitnessUtxo]
      exact h.fields .nonWitnessUtxo
    | witnessUtxo =>
      rw [fieldRecords, hkept.witnessUtxo]
      exact h.fields .witnessUtxo
    | partialSigs =>
      rw [fieldRecords, hcleared.partialSigs]
      exact tidyField_nil _
    | sighashType =>
      rw [fieldRecords, hcleared.sighashType]
      exact tidyField_nil _
    | redeemScript =>
      rw [fieldRecords, hcleared.redeemScript]
      exact tidyField_nil _
    | witnessScript =>
      rw [fieldRecords, hcleared.witnessScript]
      exact tidyField_nil _
    | tapScriptSigs =>
      rcases htap with ⟨hs, -⟩ | ⟨hs, -⟩ <;> rw [fieldRecords, hs]
      · exact h.fields .tapScriptSigs
      · exact tidyField_nil _
    | tapLeafScripts =>
      rcases htap with ⟨-, hs, -⟩ | ⟨-, hs, -⟩ <;> rw [fieldRecords, hs]
      · exact h.fields .tapLeafScripts
      · exact tidyField_nil _
    | tapInternalKey =>
      rcases htap with ⟨-, -, hs, -⟩ | ⟨-, -, hs, -⟩ <;> rw [fieldRecords, hs]
      · exact h.fields .tapInternalKey
      · exact tidyField_nil _
    | tapMerkleRoot =>
      rcases htap with ⟨-, -, -, hs⟩ | ⟨-, -, -, hs⟩ <;> rw [fieldRecords, hs]
      · exact h.fields .tapMerkleRoot
      · exact tidyField_nil _
    | finalScriptsig => exact tidy_final (.inl rfl) hsig
    | finalScriptwitness => exact tidy_final (.inr rfl) hwitness
    | unknown =>
      rw [fieldRecords, hkept.unknown]
      exact h.fields .unknown
  · rcases htap with ⟨hs, -⟩ | ⟨hs, -⟩ <;> rw [hs]
    · exact h.xOnly
    · exact fun s hs => absurd hs List.not_mem_nil

end Yubtc.TidyInputs
