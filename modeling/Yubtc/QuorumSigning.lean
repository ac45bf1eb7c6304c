import Yubtc.QuorumPsbt
import Yubtc.Signer

/-!
# Members sign

What a member's signing step does to a PSBT whose inputs pay to the quorum: the signature
depends on nothing that signing changes, so the step adds the member's record or finds it.
-/
namespace Yubtc.QuorumSigning

open Wire Errors ExceptRules Crypto Script Quorum Transaction PsbtData PsbtCodec PsbtRoles
  Signer QuorumPsbt

variable {P : Primitives}

/-- An input without its signatures. -/
def strip (input : PsbtIn) : PsbtIn := { input with partialSigs := [], tapScriptSigs := [] }

def stripPsbt (psbt : Psbt) : Psbt := { psbt with inputs := psbt.inputs.map strip }

/-- UTXO lookup reads no signatures. -/
theorem inputUtxoData_strip (psbt : Psbt) (index : Nat) :
    inputUtxoData (stripPsbt psbt) index = inputUtxoData psbt index := by
  simp only [inputUtxoData, stripPsbt, List.getElem?_map]
  cases psbt.inputs[index]? <;> rfl

theorem spendContext_strip (psbt : Psbt) : spendContext (stripPsbt psbt) = spendContext psbt := by
  simp only [spendContext, inputUtxoData_strip]
  rfl

theorem stripPsbt_modifyInput {psbt : Psbt} {index : Nat} {f : PsbtIn → PsbtIn}
    (hf : ∀ input, strip (f input) = strip input) :
    stripPsbt (Psbt.modifyInput psbt index f) = stripPsbt psbt := by
  have hinputs : (psbt.inputs.modify index f).map strip = psbt.inputs.map strip := by
    apply List.ext_getElem?
    intro j
    rw [List.getElem?_map, List.getElem?_map, List.getElem?_modify]
    cases psbt.inputs[j]? with
    | none => rfl
    | some input =>
      by_cases hj : index = j
      · simp [hj, hf]
      · simp [hj]
  simp only [stripPsbt, Psbt.modifyInput, hinputs]

/-- Signing adds signatures only. -/
theorem applyOutcome_strip (psbt : Psbt) (index : Nat) (o : SignOutcome) :
    stripPsbt (applyOutcome psbt index o) = stripPsbt psbt := by
  cases o with
  | skip => rfl
  | present => rfl
  | partialSig pubkey sig =>
    have hone : ∀ input, strip (insertPartialSig input pubkey sig) = strip input := fun _ => rfl
    exact stripPsbt_modifyInput hone
  | tapScriptSig entry =>
    have hone : ∀ input, strip (insertTapScriptSig input entry) = strip input := fun _ => rfl
    exact stripPsbt_modifyInput hone

/-- A fresh PSBT has no signatures to strip. -/
theorem strip_fresh {q : MsQuorum P} {psbt : Psbt} (h : FreshPsbt q psbt) :
    stripPsbt psbt = psbt := by
  have hinputs : psbt.inputs.map strip = psbt.inputs := by
    apply List.ext_getElem?
    intro i
    rw [List.getElem?_map]
    cases hi : psbt.inputs[i]? with
    | none => rfl
    | some input =>
      obtain ⟨vin, output, -, hq⟩ := h.inputs i input hi
      have hstrip : strip input = input := by
        rw [strip, ← hq.partialSigs, ← hq.tapScriptSigs]
      rw [Option.map_some, hstrip]
  rw [stripPsbt, hinputs]

/-- The output, as every role reads it. -/
theorem inputUtxoData_quorum {psbt : Psbt} {index : Nat} {input : PsbtIn} {vin : PsbtTxIn}
    {output : PsbtTxOut} (hin : psbt.inputs[index]? = some input)
    (hvin : psbt.unsignedTx.vin[index]? = some vin) (h : SpendsOutput P vin input output) :
    inputUtxoData psbt index = some (output.script, output.amount) := by
  simp only [inputUtxoData, hin, hvin]
  cases h with
  | inl h =>
    obtain ⟨hw, hn⟩ := h
    simp only [hw]
  | inr h =>
    obtain ⟨hw, prev, hn, -, hout⟩ := h
    simp only [hw, hn, hout, Option.map_some]

/-- A present previous transaction passes the comparison. -/
theorem checkNonWitnessUtxo_quorum {psbt : Psbt} {index : Nat} {input : PsbtIn}
    {vin : PsbtTxIn} {output : PsbtTxOut} (hvin : psbt.unsignedTx.vin[index]? = some vin)
    (h : SpendsOutput P vin input output) : checkNonWitnessUtxo P psbt index input = .ok () := by
  cases h with
  | inl h =>
    obtain ⟨-, hn⟩ := h
    rw [checkNonWitnessUtxo, hn]
  | inr h =>
    obtain ⟨-, prev, hn, hid, -⟩ := h
    simp only [checkNonWitnessUtxo, hn, hvin, orElseThrow_some, ok_bind]
    exact reject_false _ (not_not.mpr hid)

/-- The signature a member makes for an input, by the form of the quorum. -/
def memberSignature (q : MsQuorum P) (psbt : Psbt) (index : Nat) (amount : UInt64)
    (privkey : P.PrivateKey) : Except Exn Bytes :=
  match q.form with
  | .p2sh => p2shSignature P psbt index privkey q.script
  | .p2wsh => p2wshSignature P psbt index amount privkey q.script
  | .p2tr => do
    let spend ← orElseThrow (incomplete index) (spendContext psbt)
    let sighash ← taprootScriptpathSighash P psbt.unsignedTx.sigTx index spend
      (tapscriptLeafHash P q.script)
    return taprootSignSighashUntweaked P privkey sighash

/-- The signature reads the transaction and the UTXOs only. -/
theorem memberSignature_strip (q : MsQuorum P) (psbt : Psbt) (index : Nat) (amount : UInt64)
    (privkey : P.PrivateKey) :
    memberSignature q (stripPsbt psbt) index amount privkey =
      memberSignature q psbt index amount privkey := by
  simp only [memberSignature, spendContext_strip]
  rfl

theorem spendContext_amounts {psbt : Psbt} {spend : List SpendInput}
    (h : spendContext psbt = some spend) :
    spend.length = psbt.unsignedTx.vin.length ∧
      ∀ s ∈ spend, ∃ amount : UInt64, s.amount = amount.toNat := by
  have hall := option_mapM_eq_some.mp h
  refine ⟨by rw [← hall.length_eq, List.length_range], ?_⟩
  intro s hs
  obtain ⟨j, hj, rfl⟩ := List.getElem_of_mem hs
  have hget := hall.get (by rw [hall.length_eq]; exact hj) hj
  obtain ⟨⟨scriptPubkey, amount⟩, -, he⟩ := Option.map_eq_some_iff.mp hget
  exact ⟨amount, congrArg SpendInput.amount he.symm⟩

/-- With a complete context a Taproot preimage exists. -/
theorem taprootSigMsg_ok {psbt : Psbt} {spend : List SpendInput}
    (h : spendContext psbt = some spend) (tx : SigTx) (index : Nat) (spendType : UInt8) :
    ∃ msg, taprootSigMsg P tx index spend spendType = .ok msg := by
  obtain ⟨-, hamounts⟩ := spendContext_amounts h
  have hpack : ∀ s ∈ spend, ∃ bytes, packQInt s.amount = .ok bytes := by
    intro s hs
    obtain ⟨amount, he⟩ := hamounts s hs
    exact ⟨packQ amount, by rw [he, packQInt_uint64]⟩
  obtain ⟨amounts, ha⟩ := mapM_ok_of_forall hpack
  simp only [taprootSigMsg, taprootShaFields, ha, ok_bind, pure_eq_ok]
  exact ⟨_, rfl⟩

theorem sigTx_length (tx : PsbtTransaction) : tx.sigTx.vin.length = tx.vin.length :=
  List.length_map _

/-- Every input of a PSBT for the quorum has an output to spend. -/
theorem spendContext_quorum {q : MsQuorum P} {psbt : Psbt} (h : FreshPsbt q psbt) :
    ∃ spend, spendContext psbt = some spend := by
  apply option_mapM_of_forall
  intro i hi
  have hlt : i < psbt.inputs.length := by
    rw [h.count]
    exact List.mem_range.mp hi
  obtain ⟨vin, output, hvin, hq⟩ := h.inputs i _ (List.getElem?_eq_getElem hlt)
  rw [inputUtxoData_quorum (List.getElem?_eq_getElem hlt) hvin hq.spends]
  exact ⟨_, rfl⟩

/-- A member can sign every input. -/
theorem memberSignature_ok {q : MsQuorum P} {psbt : Psbt} (h : FreshPsbt q psbt) {index : Nat}
    (hindex : index < psbt.unsignedTx.vin.length) (amount : UInt64) (privkey : P.PrivateKey) :
    ∃ sig, memberSignature q psbt index amount privkey = .ok sig := by
  have hin : ¬ index ≥ psbt.unsignedTx.sigTx.vin.length := by
    rw [sigTx_length]
    omega
  unfold memberSignature
  split
  · have hblank : ∃ bytes, blankedSerialization psbt.unsignedTx index q.script = .ok bytes := by
      rw [blankedSerialization, List.getElem?_map, List.getElem?_eq_getElem hindex]
      exact ⟨_, rfl⟩
    obtain ⟨bytes, hbytes⟩ := hblank
    rw [p2shSignature, hbytes]
    exact ⟨_, rfl⟩
  · have hvin : psbt.unsignedTx.sigTx.vin[index]? = some psbt.unsignedTx.sigTx.vin[index] :=
      List.getElem?_eq_getElem (by omega)
    simp only [p2wshSignature, bip143Sighash, bip143SighashInRange, reject_false _ hin, ok_bind,
      hvin, orElseThrow_some, packQInt_uint64, pure_eq_ok]
    exact ⟨_, rfl⟩
  · obtain ⟨spend, hspend⟩ := spendContext_quorum h
    obtain ⟨hlen, -⟩ := spendContext_amounts hspend
    obtain ⟨msg, hmsg⟩ := taprootSigMsg_ok (P := P) hspend psbt.unsignedTx.sigTx index 0x02
    have hcount : ¬ spend.length ≠ psbt.unsignedTx.sigTx.vin.length := by
      rw [sigTx_length, hlen]
      exact not_not.mpr rfl
    simp only [hspend, orElseThrow_some, ok_bind, taprootScriptpathSighash,
      reject_false _ hcount, reject_false _ hin, hmsg, pure_eq_ok]
    exact ⟨_, rfl⟩

/-- The CHECKMULTISIG forms append the sighash byte to a DER signature. -/
theorem memberSignature_ecdsa {q : MsQuorum P} {psbt : Psbt} {index : Nat} {amount : UInt64}
    {privkey : P.PrivateKey} {sig : Bytes} (hform : q.form ≠ .p2tr)
    (h : memberSignature q psbt index amount privkey = .ok sig) :
    ∃ digest, sig = P.sign privkey digest ++ [sighashAll] := by
  unfold memberSignature at h
  split at h
  · obtain ⟨_, -, h⟩ := bind_eq_ok.mp h
    cases h
    exact ⟨_, rfl⟩
  · obtain ⟨_, -, h⟩ := bind_eq_ok.mp h
    cases h
    exact ⟨_, rfl⟩
  · contradiction

/-- The script path takes a Schnorr signature as it is. -/
theorem memberSignature_schnorr {q : MsQuorum P} {psbt : Psbt} {index : Nat} {amount : UInt64}
    {privkey : P.PrivateKey} {sig : Bytes} (hform : q.form = .p2tr)
    (h : memberSignature q psbt index amount privkey = .ok sig) :
    ∃ digest, sig = P.signSchnorr privkey digest := by
  simp only [memberSignature, hform] at h
  obtain ⟨_, -, h⟩ := bind_eq_ok.mp h
  obtain ⟨_, -, h⟩ := bind_eq_ok.mp h
  cases h
  exact ⟨_, rfl⟩

/-- The record a member adds. -/
def memberOutcome (q : MsQuorum P) (privkey : P.PrivateKey) (sig : Bytes) : SignOutcome :=
  match q.form with
  | .p2sh | .p2wsh => .partialSig (memberKey q.form privkey) sig
  | .p2tr => .tapScriptSig ⟨memberKey q.form privkey, tapscriptLeafHash P q.script, sig⟩

/-- The member's record is there. -/
def HasSigned (q : MsQuorum P) (privkey : P.PrivateKey) (input : PsbtIn) : Prop :=
  match q.form with
  | .p2sh | .p2wsh => memberKey q.form privkey ∈ input.partialSigs.map Prod.fst
  | .p2tr => ∃ s ∈ input.tapScriptSigs,
      s.xOnly = memberKey q.form privkey ∧ s.leafHash = tapscriptLeafHash P q.script

section Records

variable {q : MsQuorum P} {privkey : P.PrivateKey}

theorem memberOutcome_keyed (h : q.form ≠ .p2tr) (sig : Bytes) :
    memberOutcome q privkey sig = .partialSig (memberKey q.form privkey) sig := by
  unfold memberOutcome
  split
  · rfl
  · rfl
  · contradiction

theorem memberOutcome_tap (h : q.form = .p2tr) (sig : Bytes) :
    memberOutcome q privkey sig =
      .tapScriptSig ⟨memberKey q.form privkey, tapscriptLeafHash P q.script, sig⟩ := by
  unfold memberOutcome
  split
  · simp_all
  · simp_all
  · rfl

theorem hasSigned_keyed (h : q.form ≠ .p2tr) {input : PsbtIn} :
    HasSigned q privkey input ↔ memberKey q.form privkey ∈ input.partialSigs.map Prod.fst := by
  unfold HasSigned
  split
  · rfl
  · rfl
  · contradiction

theorem hasSigned_tap (h : q.form = .p2tr) {input : PsbtIn} :
    HasSigned q privkey input ↔ ∃ s ∈ input.tapScriptSigs,
      s.xOnly = memberKey q.form privkey ∧ s.leafHash = tapscriptLeafHash P q.script := by
  unfold HasSigned
  split
  · simp_all
  · simp_all
  · rfl

end Records

theorem checkSighashType_none {input : PsbtIn} (pinned : UInt32)
    (h : input.sighashType = none) : checkSighashType input pinned = .ok () := by
  rw [checkSighashType, h]

theorem signMultisig_member {script : Option Bytes} {commitment : Bytes → Bytes}
    {committed redeem sig : Bytes} {signature : Bytes → Except Exn Bytes} {m : Nat}
    {keys : List Bytes} {psbt : Psbt} {index : Nat} {input : PsbtIn} {privkey : P.PrivateKey}
    (hscript : script = some redeem) (hquorum : quorumScript redeem = .ok (m, keys))
    (hcommit : commitment redeem = committed) (hmember : privkey2pubkey P privkey ∈ keys)
    (hsighash : input.sighashType = none)
    (hcheck : checkNonWitnessUtxo P psbt index input = .ok ())
    (hsig : signature redeem = .ok sig) :
    signMultisig P script commitment committed signature psbt index input privkey =
      .ok (if privkey2pubkey P privkey ∈ input.partialSigs.map Prod.fst then .present
        else .partialSig (privkey2pubkey P privkey) sig) := by
  subst hscript
  simp only [signMultisig, orElseThrow_some, hquorum, ok_bind, hcommit,
    reject_false _ (not_not.mpr rfl), not_not.mpr hmember, if_false,
    checkSighashType_none _ hsighash, hcheck, hsig, pure_eq_ok]
  split <;> rfl

theorem signP2trScriptpath_member {leaf : TapLeafScript} {revealed : RevealedLeaf} {psbt : Psbt}
    {index : Nat} {input : PsbtIn} {scriptPubkey sig : Bytes} {privkey : P.PrivateKey}
    (hleaf : revealedLeaf P input leaf scriptPubkey = .ok revealed)
    (hmember : slice (privkey2pubkey P privkey) 1 33 ∈ revealed.keys)
    (hsighash : input.sighashType = none)
    (hcheck : checkNonWitnessUtxo P psbt index input = .ok ())
    (hsig : (do
      let spend ← orElseThrow (incomplete index) (spendContext psbt)
      let sighash ← taprootScriptpathSighash P psbt.unsignedTx.sigTx index spend revealed.leafHash
      return taprootSignSighashUntweaked P privkey sighash) = .ok sig) :
    signP2trScriptpath P psbt index input leaf scriptPubkey privkey =
      .ok (if ∃ s ∈ input.tapScriptSigs, s.xOnly = slice (privkey2pubkey P privkey) 1 33 ∧
          s.leafHash = revealed.leafHash then .present
        else .tapScriptSig ⟨slice (privkey2pubkey P privkey) 1 33, revealed.leafHash, sig⟩) := by
  obtain ⟨spend, hspend, hsig⟩ := bind_eq_ok.mp hsig
  obtain ⟨sighash, hdigest, hsig⟩ := bind_eq_ok.mp hsig
  cases hsig
  simp only [signP2trScriptpath, hleaf, ok_bind, not_not.mpr hmember, if_false,
    checkSighashType_none _ hsighash, hcheck, orElseThrow_eq_ok.mp hspend, hdigest, pure_eq_ok]
  split <;> rfl

open Classical in
/-- Signing by a member finds the member's record or adds it. -/
theorem signOutcome_member {q : MsQuorum P} {psbt : Psbt} {index : Nat} {input : PsbtIn}
    {vin : PsbtTxIn} {output : PsbtTxOut} {privkey : P.PrivateKey} {sig : Bytes}
    (hin : psbt.inputs[index]? = some input) (hvin : psbt.unsignedTx.vin[index]? = some vin)
    (hq : QuorumInput q vin (strip input) output) (hk : privkey ∈ q.members)
    (hsig : memberSignature q psbt index output.amount privkey = .ok sig) :
    signOutcome P psbt index privkey =
      .ok (if HasSigned q privkey input then .present else memberOutcome q privkey sig) := by
  have hspends : SpendsOutput P vin input output := hq.spends
  have hutxo := inputUtxoData_quorum hin hvin hspends
  have hcheck : checkNonWitnessUtxo P psbt index input = .ok () :=
    checkNonWitnessUtxo_quorum hvin hspends
  have hsighash : input.sighashType = none := hq.sighashType
  have hmember := q.mem_keys hk
  have hcommits := hq.commits
  simp only [signOutcome, hin, hutxo]
  cases hform : q.form with
  | p2sh =>
    rw [Commits, hform] at hcommits
    obtain ⟨hfits, hscript, hquorum, hcommit⟩ := hcommits
    obtain ⟨-, hsh, hwsh, -⟩ := forms_of_p2sh hfits
    rw [hform] at hmember
    simp only [memberSignature, hform] at hsig
    rw [if_neg (Bool.eq_false_iff.mp hwsh), if_pos hsh, signP2shMultisig]
    refine (signMultisig_member hscript hquorum hcommit hmember hsighash hcheck hsig).trans ?_
    by_cases hs : privkey2pubkey P privkey ∈ input.partialSigs.map Prod.fst
    · simp only [HasSigned, hform, memberKey, hs, if_true]
    · simp only [HasSigned, memberOutcome, hform, memberKey, hs, if_false]
  | p2wsh =>
    rw [Commits, hform] at hcommits
    obtain ⟨hfits, hscript, hquorum, hcommit⟩ := hcommits
    obtain ⟨-, -, hwsh, -⟩ := forms_of_p2wsh hfits
    rw [hform] at hmember
    simp only [memberSignature, hform] at hsig
    rw [if_pos hwsh, signP2wshMultisig]
    refine (signMultisig_member hscript hquorum hcommit hmember hsighash hcheck hsig).trans ?_
    by_cases hs : privkey2pubkey P privkey ∈ input.partialSigs.map Prod.fst
    · simp only [HasSigned, hform, memberKey, hs, if_true]
    · simp only [HasSigned, memberOutcome, hform, memberKey, hs, if_false]
  | p2tr =>
    rw [Commits, hform] at hcommits
    obtain ⟨hfits, -, leaf, hleaves, hleaf⟩ := hcommits
    obtain ⟨-, hsh, hwsh, htr⟩ := forms_of_p2tr hfits
    have hleaves : input.tapLeafScripts = [leaf] := hleaves
    have hleaf : revealedLeaf P input leaf output.script = .ok (q.revealed leaf.controlBlock) :=
      hleaf
    rw [hform] at hmember
    simp only [memberSignature, hform] at hsig
    rw [if_neg (Bool.eq_false_iff.mp hwsh), if_neg (Bool.eq_false_iff.mp hsh), htr, hleaves]
    refine (signP2trScriptpath_member hleaf hmember hsighash hcheck hsig).trans ?_
    by_cases hs : ∃ s ∈ input.tapScriptSigs, s.xOnly = slice (privkey2pubkey P privkey) 1 33 ∧
        s.leafHash = tapscriptLeafHash P q.script
    · have hsigned : HasSigned q privkey input := by
        rw [HasSigned, hform]
        exact hs
      rw [if_pos hsigned]
      exact congrArg Except.ok (if_pos hs)
    · have hnot : ¬ HasSigned q privkey input := by
        rw [HasSigned, hform]
        exact hs
      rw [if_neg hnot, memberOutcome, hform]
      exact congrArg Except.ok (if_neg hs)

end Yubtc.QuorumSigning
