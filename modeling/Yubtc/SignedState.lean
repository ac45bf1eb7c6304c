import Yubtc.QuorumSigning
import Yubtc.Combine
import Yubtc.Lib.Copies

/-!
# The state of a signing session

After any signing and combining, a PSBT of a quorum is the created one with the records of
those who have signed, each once. Signing adds one member's record and combining unites two
sets of them, so the invariant is kept along every run on copies.
-/
namespace Yubtc.SignedState

open Wire Errors ExceptRules Crypto Script Quorum Transaction PsbtData PsbtCodec PsbtRoles
  PsbtRecords CanonicalForm QuorumPsbt QuorumSigning
open Signer (applyOutcome signPsbtInput_ok)
open KeyedList (Collects)

variable {P : Primitives}

/-- The signature a member makes for input `i`. -/
def sigOf (q : MsQuorum P) (base : Psbt) (i : Nat) (privkey : P.PrivateKey) : Bytes :=
  match inputUtxoData base i with
  | none => []
  | some (_, amount) =>
    match memberSignature q base i amount privkey with
    | .ok sig => sig
    | .error _ => []

/-- A member's entry in the list of partial signatures. -/
def partialEntry (q : MsQuorum P) (base : Psbt) (i : Nat) (privkey : P.PrivateKey) :
    Option (Bytes × Bytes) :=
  match q.form with
  | .p2sh | .p2wsh => some (memberKey q.form privkey, sigOf q base i privkey)
  | .p2tr => none

/-- A member's entry in the list of tapscript signatures. -/
def tapEntry (q : MsQuorum P) (base : Psbt) (i : Nat) (privkey : P.PrivateKey) :
    Option TapScriptSig :=
  match q.form with
  | .p2sh | .p2wsh => none
  | .p2tr => some ⟨memberKey q.form privkey, tapscriptLeafHash P q.script, sigOf q base i privkey⟩

def tapKey (s : TapScriptSig) : Bytes := s.xOnly ++ s.leafHash

/-- Who has signed input `i`. -/
def signersAt (S : Set (Nat × P.PrivateKey)) (i : Nat) : Set P.PrivateKey := {k | (i, k) ∈ S}

/-- The created PSBT with the records of the given signatures. -/
structure Signed (q : MsQuorum P) (base : Psbt) (S : Set (Nat × P.PrivateKey)) (psbt : Psbt) :
    Prop where
  frame : stripPsbt psbt = base
  partialSigs : ∀ (i : Nat) input, psbt.inputs[i]? = some input →
    Collects Prod.fst (partialEntry q base i) (signersAt S i) input.partialSigs
  tapScriptSigs : ∀ (i : Nat) input, psbt.inputs[i]? = some input →
    Collects tapKey (tapEntry q base i) (signersAt S i) input.tapScriptSigs

/-- A step of the session: a member signs one input. -/
def Allowed (q : MsQuorum P) (base : Psbt) (step : Nat × P.PrivateKey) : Prop :=
  step.1 < base.unsignedTx.vin.length ∧ step.2 ∈ q.members

section Facts

variable {q : MsQuorum P} {base psbt : Psbt} {S : Set (Nat × P.PrivateKey)}

theorem Signed.input (h : Signed q base S psbt) {i : Nat} {input : PsbtIn}
    (hin : psbt.inputs[i]? = some input) : base.inputs[i]? = some (strip input) := by
  rw [← h.frame, stripPsbt, List.getElem?_map, hin, Option.map_some]

theorem Signed.unsignedTx (h : Signed q base S psbt) : psbt.unsignedTx = base.unsignedTx := by
  rw [← h.frame]
  rfl

theorem Signed.inputUtxoData (h : Signed q base S psbt) (i : Nat) :
    PsbtRoles.inputUtxoData psbt i = PsbtRoles.inputUtxoData base i := by
  rw [← inputUtxoData_strip, h.frame]

theorem Signed.inputs_length (h : Signed q base S psbt) :
    psbt.inputs.length = base.inputs.length := by
  rw [← h.frame]
  exact (List.length_map _).symm

theorem signersAt_insert_same (S : Set (Nat × P.PrivateKey)) (i : Nat) (k : P.PrivateKey) :
    signersAt (insert (i, k) S) i = insert k (signersAt S i) := by
  ext k'
  simp [signersAt]

theorem signersAt_insert_other (S : Set (Nat × P.PrivateKey)) {i j : Nat} (k : P.PrivateKey)
    (h : j ≠ i) : signersAt (insert (i, k) S) j = signersAt S j := by
  ext k'
  simp [signersAt, h]

/-- A created PSBT, before anyone signs. -/
theorem signed_empty (h : FreshPsbt q base) : Signed q base ∅ base := by
  refine ⟨strip_fresh h, ?_, ?_⟩
  · intro i input hin
    obtain ⟨vin, output, -, hq⟩ := h.inputs i input hin
    rw [hq.partialSigs]
    exact .empty
  · intro i input hin
    obtain ⟨vin, output, -, hq⟩ := h.inputs i input hin
    rw [hq.tapScriptSigs]
    exact .empty

theorem sigOf_eq (h : FreshPsbt q base) {i : Nat} {input : PsbtIn} {vin : PsbtTxIn}
    {output : PsbtTxOut} (hin : base.inputs[i]? = some input)
    (hvin : base.unsignedTx.vin[i]? = some vin) (hq : QuorumInput q vin input output)
    (privkey : P.PrivateKey) :
    memberSignature q base i output.amount privkey = .ok (sigOf q base i privkey) := by
  have hi := (List.getElem?_eq_some_iff.mp hvin).1
  obtain ⟨sig, hsig⟩ := memberSignature_ok h hi output.amount privkey
  simp only [sigOf, inputUtxoData_quorum hin hvin hq.spends, hsig]

theorem sigOf_ecdsa (h : FreshPsbt q base) {i : Nat} {input : PsbtIn}
    (hin : base.inputs[i]? = some input) (hform : q.form ≠ .p2tr) (privkey : P.PrivateKey) :
    ∃ digest, sigOf q base i privkey = P.sign privkey digest ++ [sighashAll] := by
  obtain ⟨vin, output, hvin, hq⟩ := h.inputs i input hin
  exact memberSignature_ecdsa hform (sigOf_eq h hin hvin hq privkey)

theorem sigOf_schnorr (h : FreshPsbt q base) {i : Nat} {input : PsbtIn}
    (hin : base.inputs[i]? = some input) (hform : q.form = .p2tr) (privkey : P.PrivateKey) :
    ∃ digest, sigOf q base i privkey = P.signSchnorr privkey digest := by
  obtain ⟨vin, output, hvin, hq⟩ := h.inputs i input hin
  exact memberSignature_schnorr hform (sigOf_eq h hin hvin hq privkey)

theorem partialEntry_eq_some {i : Nat} {k : P.PrivateKey} {x : Bytes × Bytes} :
    partialEntry q base i k = some x ↔
      q.form ≠ .p2tr ∧ (memberKey q.form k, sigOf q base i k) = x := by
  unfold partialEntry
  split <;> rename_i hform <;> simp [hform]

theorem tapEntry_eq_some {i : Nat} {k : P.PrivateKey} {x : TapScriptSig} :
    tapEntry q base i k = some x ↔ q.form = .p2tr ∧
      ⟨memberKey q.form k, tapscriptLeafHash P q.script, sigOf q base i k⟩ = x := by
  unfold tapEntry
  split <;> rename_i hform <;> simp [hform]

/-- One key has one entry. -/
theorem partialEntry_one {i : Nat} {k k' : P.PrivateKey} (hk : k ∈ q.members)
    (hk' : k' ∈ q.members) {x y : Bytes × Bytes} (hx : partialEntry q base i k = some x)
    (hy : partialEntry q base i k' = some y) (h : x.1 = y.1) : k = k' := by
  obtain ⟨-, rfl⟩ := partialEntry_eq_some.mp hx
  obtain ⟨-, rfl⟩ := partialEntry_eq_some.mp hy
  exact q.memberKey_inj hk hk' h

theorem tapEntry_one {i : Nat} {k k' : P.PrivateKey} (hk : k ∈ q.members)
    (hk' : k' ∈ q.members) {x y : TapScriptSig} (hx : tapEntry q base i k = some x)
    (hy : tapEntry q base i k' = some y) (h : tapKey x = tapKey y) : k = k' := by
  obtain ⟨-, rfl⟩ := tapEntry_eq_some.mp hx
  obtain ⟨-, rfl⟩ := tapEntry_eq_some.mp hy
  exact q.memberKey_inj hk hk' (List.append_cancel_right h)

/-- A member's record is there exactly when the member has signed. -/
theorem hasSigned_iff (h : Signed q base S psbt) (hS : ∀ step ∈ S, Allowed q base step)
    {i : Nat} {input : PsbtIn} (hin : psbt.inputs[i]? = some input) {k : P.PrivateKey}
    (hk : k ∈ q.members) : HasSigned q k input ↔ (i, k) ∈ S := by
  have hkeyed := (h.partialSigs i input hin).mem
  have htap := (h.tapScriptSigs i input hin).mem
  by_cases hform : q.form = .p2tr
  · rw [hasSigned_tap hform]
    constructor
    · rintro ⟨x, hx, hkey, -⟩
      obtain ⟨k', hk', he⟩ := (htap x).mp hx
      obtain ⟨-, rfl⟩ := tapEntry_eq_some.mp he
      rwa [← q.memberKey_inj (hS _ hk').2 hk hkey]
    · intro hs
      exact ⟨_, (htap _).mpr ⟨k, hs, tapEntry_eq_some.mpr ⟨hform, rfl⟩⟩, rfl, rfl⟩
  · rw [hasSigned_keyed hform]
    constructor
    · intro hs
      obtain ⟨x, hx, hkey⟩ := List.mem_map.mp hs
      obtain ⟨k', hk', he⟩ := (hkeyed x).mp hx
      obtain ⟨-, rfl⟩ := partialEntry_eq_some.mp he
      rwa [← q.memberKey_inj (hS _ hk').2 hk hkey]
    · intro hs
      have hx := (hkeyed _).mpr ⟨k, hs, partialEntry_eq_some.mpr ⟨hform, rfl⟩⟩
      exact List.mem_map.mpr ⟨_, hx, rfl⟩

end Facts

section Sign

variable {q : MsQuorum P} {base psbt : Psbt} {S : Set (Nat × P.PrivateKey)}

theorem insert_perm {α : Type} (l : List α) (before : α → Bool) (x : α) :
    (l.takeWhile before ++ x :: l.dropWhile before).Perm (x :: l) := by
  have hp : (l.takeWhile before ++ x :: l.dropWhile before).Perm
      (x :: (l.takeWhile before ++ l.dropWhile before)) := List.perm_middle
  rwa [List.takeWhile_append_dropWhile] at hp

/-- Both lists of an input, after a member's record has been put in. -/
theorem signed_insert (h : Signed q base S psbt) {i : Nat} {k : P.PrivateKey}
    {f : PsbtIn → PsbtIn} (hf : ∀ input, strip (f input) = strip input)
    (hlists : ∀ input, psbt.inputs[i]? = some input →
      Collects Prod.fst (partialEntry q base i) (insert k (signersAt S i)) (f input).partialSigs ∧
      Collects tapKey (tapEntry q base i) (insert k (signersAt S i)) (f input).tapScriptSigs) :
    Signed q base (insert (i, k) S) (Psbt.modifyInput psbt i f) := by
  have hget : ∀ (j : Nat) input, (Psbt.modifyInput psbt i f).inputs[j]? = some input →
      ∃ old, psbt.inputs[j]? = some old ∧ input = if i = j then f old else old := by
    intro j input hj
    simp only [Psbt.modifyInput, List.getElem?_modify] at hj
    obtain ⟨old, hold, he⟩ := Option.map_eq_some_iff.mp hj
    refine ⟨old, hold, ?_⟩
    rw [← he]
  refine ⟨by rw [stripPsbt_modifyInput hf, h.frame], ?_, ?_⟩
  · intro j input hj
    obtain ⟨old, hold, rfl⟩ := hget j input hj
    by_cases hij : i = j
    · subst hij
      rw [if_pos rfl, signersAt_insert_same]
      exact (hlists old hold).1
    · rw [if_neg hij, signersAt_insert_other S k (fun he => hij he.symm)]
      exact h.partialSigs j old hold
  · intro j input hj
    obtain ⟨old, hold, rfl⟩ := hget j input hj
    by_cases hij : i = j
    · subst hij
      rw [if_pos rfl, signersAt_insert_same]
      exact (hlists old hold).2
    · rw [if_neg hij, signersAt_insert_other S k (fun he => hij he.symm)]
      exact h.tapScriptSigs j old hold

/-- A signature of a new key goes into the list of partial signatures. -/
theorem signed_keyed (h : Signed q base S psbt) {i : Nat} {k : P.PrivateKey} {input : PsbtIn}
    (hin : psbt.inputs[i]? = some input) (hform : q.form ≠ .p2tr)
    (hnew : memberKey q.form k ∉ input.partialSigs.map Prod.fst) :
    Signed q base (insert (i, k) S)
      (applyOutcome psbt i (.partialSig (memberKey q.form k) (sigOf q base i k))) := by
  apply signed_insert h
  · intro input
    rfl
  · intro input' hin'
    obtain rfl := Option.some.inj (hin.symm.trans hin')
    constructor
    · apply (h.partialSigs i input hin).insert_new (partialEntry_eq_some.mpr ⟨hform, rfl⟩) hnew
      exact insert_perm _ _ _
    · apply (h.tapScriptSigs i input hin).insert_none
      rw [Option.eq_none_iff_forall_ne_some]
      intro x hx
      exact hform (tapEntry_eq_some.mp hx).1

/-- And one of a new key and leaf into the list of tapscript signatures. -/
theorem signed_tap (h : Signed q base S psbt) {i : Nat} {k : P.PrivateKey} {input : PsbtIn}
    (hin : psbt.inputs[i]? = some input) (hform : q.form = .p2tr)
    (hnew : memberKey q.form k ++ tapscriptLeafHash P q.script ∉ input.tapScriptSigs.map tapKey) :
    Signed q base (insert (i, k) S) (applyOutcome psbt i
      (.tapScriptSig ⟨memberKey q.form k, tapscriptLeafHash P q.script, sigOf q base i k⟩)) := by
  apply signed_insert h
  · intro input
    rfl
  · intro input' hin'
    obtain rfl := Option.some.inj (hin.symm.trans hin')
    constructor
    · apply (h.partialSigs i input hin).insert_none
      rw [Option.eq_none_iff_forall_ne_some]
      intro x hx
      exact (partialEntry_eq_some.mp hx).1 hform
    · apply (h.tapScriptSigs i input hin).insert_new (tapEntry_eq_some.mpr ⟨hform, rfl⟩) hnew
      exact insert_perm _ _ _

/-- A member's step succeeds and adds the member to those who have signed. -/
theorem signed_sign (hbase : FreshPsbt q base) (h : Signed q base S psbt)
    (hS : ∀ step ∈ S, Allowed q base step) {i : Nat} {k : P.PrivateKey}
    (hstep : Allowed q base (i, k)) :
    ∃ psbt', signPsbtInput P i k psbt = .ok true psbt' ∧
      Signed q base (insert (i, k) S) psbt' := by
  obtain ⟨hi, hk⟩ := hstep
  have hlt : i < psbt.inputs.length := by rwa [h.inputs_length, hbase.count]
  have hin : psbt.inputs[i]? = some psbt.inputs[i] := List.getElem?_eq_getElem hlt
  generalize psbt.inputs[i] = input at hin
  obtain ⟨vin, output, hvin, hq⟩ := hbase.inputs i _ (h.input hin)
  have hsig : memberSignature q psbt i output.amount k = .ok (sigOf q base i k) := by
    rw [← memberSignature_strip, h.frame]
    exact sigOf_eq hbase (h.input hin) hvin hq k
  have hvin' : psbt.unsignedTx.vin[i]? = some vin := by rw [h.unsignedTx, hvin]
  have hout := signOutcome_member hin hvin' hq hk hsig
  by_cases hs : HasSigned q k input
  · rw [if_pos hs] at hout
    refine ⟨psbt, signPsbtInput_ok hout, ?_⟩
    rwa [Set.insert_eq_of_mem ((hasSigned_iff h hS hin hk).mp hs)]
  · rw [if_neg hs] at hout
    by_cases hform : q.form = .p2tr
    · rw [memberOutcome_tap hform] at hout
      refine ⟨_, signPsbtInput_ok hout, signed_tap h hin hform ?_⟩
      intro hmem
      apply hs
      -- The other entries have a key of the same quorum and the same leaf.
      obtain ⟨s, hmem, hkey⟩ := List.mem_map.mp hmem
      obtain ⟨k', hk', he⟩ := ((h.tapScriptSigs i input hin).mem s).mp hmem
      obtain ⟨-, rfl⟩ := tapEntry_eq_some.mp he
      exact (hasSigned_tap hform).mpr ⟨_, hmem, List.append_cancel_right hkey, rfl⟩
    · rw [memberOutcome_keyed hform] at hout
      refine ⟨_, signPsbtInput_ok hout, signed_keyed h hin hform ?_⟩
      rwa [← hasSigned_keyed hform]

end Sign

section Combine

variable {q : MsQuorum P} {base a b : Psbt} {S T : Set (Nat × P.PrivateKey)}

theorem mergeField_self {α : Type} [DecidableEq α] (x : Option α) : mergeField x x = .ok x := by
  cases x with
  | none => rfl
  | some v => exact if_pos rfl

/-- A list of at most one item, merged with itself. -/
theorem mergeTypedList_self {α : Type} [DecidableEq α] {keyOf : α → Bytes}
    {le : α → α → Bool} {l : List α} (h : l.length ≤ 1) :
    mergeTypedList keyOf le l l = .ok l := by
  match l, h with
  | [], _ => rfl
  | [x], _ => simp [mergeTypedList, KeyedList.mergeBy, KeyedList.mergeOne]

/-- Two inputs that differ in nothing but signatures. -/
theorem eq_of_strip {x y : PsbtIn} (h : strip x = strip y) :
    y = { x with partialSigs := y.partialSigs, tapScriptSigs := y.tapScriptSigs } := by
  cases x
  cases y
  simp only [strip, PsbtIn.mk.injEq] at h
  simp_all

/-- The merge of two signed copies of an input. -/
theorem mergeInput_signed {x y : PsbtIn} {i : Nat} (hstrip : strip x = strip y)
    (hleaves : x.tapLeafScripts.length ≤ 1) (hunknown : x.unknown = [])
    (hS : ∀ k ∈ signersAt S i, k ∈ q.members) (hT : ∀ k ∈ signersAt T i, k ∈ q.members)
    (hpx : Collects Prod.fst (partialEntry q base i) (signersAt S i) x.partialSigs)
    (hpy : Collects Prod.fst (partialEntry q base i) (signersAt T i) y.partialSigs)
    (htx : Collects tapKey (tapEntry q base i) (signersAt S i) x.tapScriptSigs)
    (hty : Collects tapKey (tapEntry q base i) (signersAt T i) y.tapScriptSigs) :
    ∃ r, mergeInput x y = .ok r ∧ strip r = strip x ∧
      Collects Prod.fst (partialEntry q base i) (signersAt (S ∪ T) i) r.partialSigs ∧
      Collects tapKey (tapEntry q base i) (signersAt (S ∪ T) i) r.tapScriptSigs := by
  have hsame : ∀ k ∈ signersAt S i, ∀ k' ∈ signersAt T i, ∀ x y,
      partialEntry q base i k = some x → partialEntry q base i k' = some y → x.1 = y.1 → x = y := by
    intro k hk k' hk' x y hx hy hkey
    obtain rfl := partialEntry_one (hS k hk) (hT k' hk') hx hy hkey
    exact Option.some.inj (hx.symm.trans hy)
  have hsame' : ∀ k ∈ signersAt S i, ∀ k' ∈ signersAt T i, ∀ x y,
      tapEntry q base i k = some x → tapEntry q base i k' = some y → tapKey x = tapKey y → x = y := by
    intro k hk k' hk' x y hx hy hkey
    obtain rfl := tapEntry_one (hS k hk) (hT k' hk') hx hy hkey
    exact Option.some.inj (hx.symm.trans hy)
  have hmerge : ∃ ps, KeyedList.mergeBy Prod.fst (fun x y => x.2 ≠ y.2)
      PsbtError.conflictingField x.partialSigs y.partialSigs = .ok ps ∧
      Collects Prod.fst (partialEntry q base i) (signersAt (S ∪ T) i) ps :=
    hpx.merge hpy (by simp) hsame
  have hmerge' : ∃ ts, KeyedList.mergeBy (fun s : TapScriptSig => s.xOnly ++ s.leafHash)
      (fun x y => x ≠ y) PsbtError.conflictingField x.tapScriptSigs y.tapScriptSigs = .ok ts ∧
      Collects tapKey (tapEntry q base i) (signersAt (S ∪ T) i) ts :=
    htx.merge hty (by simp) hsame'
  obtain ⟨ps, hps, hcps⟩ := hmerge
  obtain ⟨ts, hts, hcts⟩ := hmerge'
  let ps' := ps.insertionSort fun x y => x.1 ≤ y.1
  let ts' := ts.insertionSort fun x y => TapScriptSig.le x y
  refine ⟨{ x with partialSigs := ps', tapScriptSigs := ts' }, ?_, rfl, ?_, ?_⟩
  · rw [eq_of_strip hstrip, Combine.mergeInput_eq_ok]
    refine ⟨?_, ?_, mergeTypedList_self hleaves, mergeField_self _, mergeField_self _,
      mergeField_self _, mergeField_self _, mergeField_self _, mergeField_self _,
      mergeField_self _, mergeField_self _, mergeField_self _, ?_⟩
    · simp only [mergePartialSigs, hps, ok_bind, pure_eq_ok, ps']
    · simp only [mergeTypedList, hts, ok_bind, pure_eq_ok, ts']
    · simp only [hunknown]
      rfl
  · exact hcps.of_perm (List.perm_insertionSort _ _)
  · exact hcts.of_perm (List.perm_insertionSort _ _)

/-- Copies of one PSBT combine, and the result is signed by the signers of both. -/
theorem signed_combine (hbase : FreshPsbt q base) (ha : Signed q base S a)
    (hb : Signed q base T b) (hS : ∀ step ∈ S, Allowed q base step)
    (hT : ∀ step ∈ T, Allowed q base step) :
    ∃ r, combinePsbt a b = .ok r ∧ Signed q base (S ∪ T) r := by
  have htx : a.unsignedTx = b.unsignedTx := ha.unsignedTx.trans hb.unsignedTx.symm
  have hlen : a.inputs.length = b.inputs.length := ha.inputs_length.trans hb.inputs_length.symm
  have hmerge : ∀ (i : Nat) x y, a.inputs[i]? = some x → b.inputs[i]? = some y →
      ∃ r, mergeInput x y = .ok r ∧ strip r = strip x ∧
        Collects Prod.fst (partialEntry q base i) (signersAt (S ∪ T) i) r.partialSigs ∧
        Collects tapKey (tapEntry q base i) (signersAt (S ∪ T) i) r.tapScriptSigs := by
    intro i x y hx hy
    have hstrip : strip x = strip y := Option.some.inj ((ha.input hx).symm.trans (hb.input hy))
    obtain ⟨vin, output, -, hq⟩ := hbase.inputs i _ (ha.input hx)
    have hSi : ∀ k ∈ signersAt S i, k ∈ q.members := fun k hk => (hS _ hk).2
    have hTi : ∀ k ∈ signersAt T i, k ∈ q.members := fun k hk => (hT _ hk).2
    exact mergeInput_signed hstrip hq.leaves hq.unknown hSi hTi (ha.partialSigs i x hx)
      (hb.partialSigs i y hy) (ha.tapScriptSigs i x hx) (hb.tapScriptSigs i y hy)
  obtain ⟨rs, hrs⟩ := zip_mapM_ok_of_forall fun i x y hx hy => (hmerge i x y hx hy).imp fun _ => And.left
  have hframe : ∀ p : Psbt, stripPsbt p = base → p.outputs = base.outputs ∧
      p.unknownGlobal = [] ∧ p.version = base.version := by
    rintro p rfl
    exact ⟨rfl, hbase.unknownGlobal, rfl⟩
  obtain ⟨haout, haglob, haver⟩ := hframe a ha.frame
  obtain ⟨hbout, hbglob, -⟩ := hframe b hb.frame
  have houtput : ∀ out ∈ a.outputs, mergeOutput out out = .ok out := by
    intro out hout
    rw [haout, hbase.outputs] at hout
    obtain ⟨-, -, rfl⟩ := List.mem_map.mp hout
    rfl
  have houtputs := mapM_zip_self houtput
  have hsame : a.outputs = b.outputs := haout.trans hbout.symm
  have hglobals : mergeUnknown a.unknownGlobal b.unknownGlobal = .ok a.unknownGlobal := by
    rw [haglob, hbglob]
    rfl
  have hget : ∀ (i : Nat) z, rs[i]? = some z → ∃ x, a.inputs[i]? = some x ∧ strip z = strip x ∧
      Collects Prod.fst (partialEntry q base i) (signersAt (S ∪ T) i) z.partialSigs ∧
      Collects tapKey (tapEntry q base i) (signersAt (S ∪ T) i) z.tapScriptSigs := by
    intro i z hz
    obtain ⟨⟨x, y⟩, hxy, hm⟩ := mapM_getElem? hrs i z hz
    obtain ⟨hx, hy⟩ := List.getElem?_zip_eq_some.mp hxy
    obtain ⟨r, hr, hspec⟩ := hmerge i x y hx hy
    cases hr.symm.trans hm
    exact ⟨x, hx, hspec⟩
  have hrlen : rs.length = a.inputs.length := by
    rw [mapM_length hrs, List.length_zip, hlen, min_self]
  refine ⟨⟨a.version, a.unsignedTx, rs, a.outputs, a.unknownGlobal⟩,
    (Combine.combinePsbt_eq_ok htx).mpr ⟨hglobals, hrs, hsame ▸ houtputs, rfl, rfl⟩, ?_, ?_, ?_⟩
  · have hstrips : rs.map strip = a.inputs.map strip := by
      apply List.ext_getElem (by rw [List.length_map, List.length_map, hrlen])
      intro i hi hi'
      rw [List.length_map] at hi
      obtain ⟨x, hx, hs, -⟩ := hget i rs[i] (List.getElem?_eq_getElem hi)
      have hxi : i < a.inputs.length := hrlen ▸ hi
      rw [List.getElem?_eq_getElem hxi] at hx
      rw [List.getElem_map, List.getElem_map, hs, Option.some.inj hx]
    rw [← ha.frame]
    simp only [stripPsbt, hstrips]
  · intro i z hz
    obtain ⟨-, -, -, hp, -⟩ := hget i z hz
    exact hp
  · intro i z hz
    obtain ⟨-, -, -, -, ht⟩ := hget i z hz
    exact ht

end Combine

section Bytes

variable {q : MsQuorum P} {base a b : Psbt} {S : Set (Nat × P.PrivateKey)}

/-- Quorum keys of the script path are x-only. -/
theorem memberKey_length (q : MsQuorum P) {k : P.PrivateKey} (hk : k ∈ q.members) :
    (memberKey q.form k).length = q.form.keyLength :=
  q.isQuorum.keyLength _ (List.mem_map_of_mem hk)

/-- The fields that signing leaves alone. -/
theorem fieldRecords_strip {x y : PsbtIn} (h : strip x = strip y) {f : Field}
    (hp : f ≠ .partialSigs) (ht : f ≠ .tapScriptSigs) : fieldRecords y f = fieldRecords x f := by
  rw [eq_of_strip h]
  cases f <;> first | rfl | contradiction

/-- An input of a signed PSBT has one record for each key. -/
theorem Signed.wellFormedInput (hbase : FreshPsbt q base) (h : Signed q base S a)
    (hS : ∀ step ∈ S, Allowed q base step) {i : Nat} {x : PsbtIn}
    (hx : a.inputs[i]? = some x) : WellFormedInput x := by
  obtain ⟨vin, output, -, hq⟩ := hbase.inputs i _ (h.input hx)
  have hleaves : x.tapLeafScripts.length ≤ 1 := hq.leaves
  have hunknown : x.unknown = [] := hq.unknown
  constructor
  · intro f
    cases f with
    | partialSigs =>
      have hn := (h.partialSigs i x hx).nodup.map (List.cons_injective (a := tPartialSig))
      simpa [fieldRecords, partialSigRecord, Function.comp_def] using hn
    | tapScriptSigs =>
      have hn := (h.tapScriptSigs i x hx).nodup.map (List.cons_injective (a := tInTapScriptSig))
      simpa [fieldRecords, tapScriptSigRecord, tapKey, Function.comp_def] using hn
    | tapLeafScripts =>
      rw [fieldRecords]
      cases hl : x.tapLeafScripts with
      | nil => exact List.nodup_nil
      | cons leaf rest =>
        rw [hl, List.length_cons] at hleaves
        rw [List.eq_nil_of_length_eq_zero (by omega : rest.length = 0)]
        exact List.nodup_singleton _
    | unknown => simp [fieldRecords, hunknown]
    | _ => exact optionalRecord_nodup _ _ _
  · intro f z hz
    cases f with
    | partialSigs =>
      obtain ⟨p, -, rfl⟩ := List.mem_map.mp hz
      rfl
    | tapScriptSigs =>
      obtain ⟨p, -, rfl⟩ := List.mem_map.mp hz
      rfl
    | tapLeafScripts =>
      obtain ⟨p, -, rfl⟩ := List.mem_map.mp hz
      rfl
    | unknown => simp [fieldRecords, hunknown] at hz
    | _ =>
      obtain ⟨v, -, rfl⟩ := mem_optionalRecord.mp hz
      rfl
  · intro s hs
    obtain ⟨k, hk, he⟩ := ((h.tapScriptSigs i x hx).mem s).mp hs
    obtain ⟨hform, rfl⟩ := tapEntry_eq_some.mp he
    have hlen := memberKey_length q (hS _ hk).2
    rwa [hform] at hlen ⊢

theorem Signed.wellFormed (hbase : FreshPsbt q base) (h : Signed q base S a)
    (hS : ∀ step ∈ S, Allowed q base step) : WellFormed a := by
  have hout : a.outputs = base.outputs ∧ a.unknownGlobal = base.unknownGlobal := by
    rw [← h.frame]
    exact ⟨rfl, rfl⟩
  constructor
  · rw [h.inputs_length, h.unsignedTx, hbase.count]
  · rw [hout.1, h.unsignedTx, hbase.outputs, List.length_map]
  · intro x hx
    obtain ⟨i, hi⟩ := List.mem_iff_getElem?.mp hx
    exact h.wellFormedInput hbase hS hi
  · intro out hmem
    rw [hout.1, hbase.outputs] at hmem
    obtain ⟨-, -, rfl⟩ := List.mem_map.mp hmem
    exact List.nodup_nil
  · simp [mapRecords, hout.2, hbase.unknownGlobal, unknownRecords]

/-- Who has signed determines the bytes. -/
theorem serializePsbt_signed (hbase : FreshPsbt q base) (hS : ∀ step ∈ S, Allowed q base step)
    (ha : Signed q base S a) (hb : Signed q base S b) : serializePsbt a = serializePsbt b := by
  have htx : a.unsignedTx = b.unsignedTx := ha.unsignedTx.trans hb.unsignedTx.symm
  have hframe : a.outputs = b.outputs ∧ a.unknownGlobal = b.unknownGlobal := by
    have he := congrArg (fun p => (p.outputs, p.unknownGlobal)) (ha.frame.trans hb.frame.symm)
    exact ⟨congrArg Prod.fst he, congrArg Prod.snd he⟩
  apply serializePsbt_congr (ha.wellFormed hbase hS) (hb.wellFormed hbase hS) htx
  intro m z
  cases m with
  | globals => rw [mapRecords, mapRecords, htx, hframe.2]
  | output i => rw [mapRecords, mapRecords, hframe.1]
  | input i =>
    have hlen : a.inputs.length = b.inputs.length := ha.inputs_length.trans hb.inputs_length.symm
    by_cases hi : i < a.inputs.length
    · have hx := List.getElem?_eq_getElem hi
      have hy := List.getElem?_eq_getElem (hlen ▸ hi)
      have hstrip := Option.some.inj ((ha.input hx).symm.trans (hb.input hy))
      simp only [mapRecords, hx, hy, Option.map_some, Option.getD_some, mem_inputRecords]
      apply exists_congr
      intro f
      cases f with
      | partialSigs =>
        have hp := (ha.partialSigs i _ hx).perm (hb.partialSigs i _ hy)
        exact (hp.map partialSigRecord).mem_iff
      | tapScriptSigs =>
        have hp := (ha.tapScriptSigs i _ hx).perm (hb.tapScriptSigs i _ hy)
        exact (hp.map tapScriptSigRecord).mem_iff
      | _ => rw [fieldRecords_strip hstrip (by decide) (by decide)]
    · have hx := List.getElem?_eq_none (Nat.le_of_not_lt hi)
      have hy := List.getElem?_eq_none (l := b.inputs) (hlen ▸ Nat.le_of_not_lt hi)
      rw [mapRecords, mapRecords, hx, hy]

end Bytes

end Yubtc.SignedState
