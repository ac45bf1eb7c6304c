import Yubtc.PsbtRoles
import Yubtc.Quorum

/-!
# PSBTs for the inputs of a quorum

The three quorum forms, the quorum of a list of private keys, and what the Creator makes of
inputs that pay to it. `QuorumInput` collects what the later roles read of such an input; no
signature changes any of it.
-/
namespace Yubtc.QuorumPsbt

open Wire Errors ExceptRules Crypto Script Quorum Transaction PsbtData PsbtCodec PsbtRoles

variable {P : Primitives}

theorem formOfScript_eq (script : Bytes) :
    formOfScript script =
      if p2pkhShape.Fits script then some (.legacy (p2pkhShape.payload script))
      else if p2wpkhShape.Fits script then some (.p2wpkh (p2wpkhShape.payload script))
      else if p2trShape.Fits script then some (.p2tr (p2trShape.payload script))
      else none := by
  simp only [formOfScript, script2pkh, extractP2wpkhHash, extractP2trOutputKey, extract]
  by_cases h1 : p2pkhShape.Fits script
  · simp [h1]
  · by_cases h2 : p2wpkhShape.Fits script
    · simp [h1, h2]
    · by_cases h3 : p2trShape.Fits script <;> simp [h1, h2, h3]

/-- Shapes of different lengths share no script. -/
theorem not_fits_of_length {s t : Shape} {script : Bytes} (h : s.Fits script)
    (hne : s.length ≠ t.length) : ¬ t.Fits script := by
  intro ht
  exact hne (h.1.symm.trans ht.1)

/-- Nor do shapes whose heads differ. -/
theorem not_fits_of_head {s t : Shape} {script : Bytes} (h : s.Fits script)
    (hlen : s.head.length = t.head.length) (hne : s.head ≠ t.head) : ¬ t.Fits script := by
  intro ht
  apply hne
  rw [← h.2.1, ← ht.2.1, hlen]

theorem forms_of_p2sh {script : Bytes} (h : p2shShape.Fits script) :
    formOfScript script = none ∧ isP2shScript script = true ∧ isP2wshScript script = false ∧
      isP2trScript script = false := by
  have h1 : ¬ p2pkhShape.Fits script := not_fits_of_length h (by decide)
  have h2 : ¬ p2wpkhShape.Fits script := not_fits_of_length h (by decide)
  have h3 : ¬ p2trShape.Fits script := not_fits_of_length h (by decide)
  have h4 : ¬ p2wshShape.Fits script := not_fits_of_length h (by decide)
  refine ⟨?_, decide_eq_true h, decide_eq_false h4, decide_eq_false h3⟩
  rw [formOfScript_eq, if_neg h1, if_neg h2, if_neg h3]

theorem forms_of_p2wsh {script : Bytes} (h : p2wshShape.Fits script) :
    formOfScript script = none ∧ isP2shScript script = false ∧ isP2wshScript script = true ∧
      isP2trScript script = false := by
  have h1 : ¬ p2pkhShape.Fits script := not_fits_of_length h (by decide)
  have h2 : ¬ p2wpkhShape.Fits script := not_fits_of_length h (by decide)
  have h3 : ¬ p2trShape.Fits script := not_fits_of_head h rfl (by decide)
  have h4 : ¬ p2shShape.Fits script := not_fits_of_length h (by decide)
  refine ⟨?_, decide_eq_false h4, decide_eq_true h, decide_eq_false h3⟩
  rw [formOfScript_eq, if_neg h1, if_neg h2, if_neg h3]

theorem forms_of_p2tr {script : Bytes} (h : p2trShape.Fits script) :
    formOfScript script = some (.p2tr (p2trShape.payload script)) ∧
      isP2shScript script = false ∧ isP2wshScript script = false ∧
      isP2trScript script = true := by
  have h1 : ¬ p2pkhShape.Fits script := not_fits_of_length h (by decide)
  have h2 : ¬ p2wpkhShape.Fits script := not_fits_of_length h (by decide)
  have h3 : ¬ p2shShape.Fits script := not_fits_of_length h (by decide)
  have h4 : ¬ p2wshShape.Fits script := not_fits_of_head h rfl (by decide)
  refine ⟨?_, decide_eq_false h3, decide_eq_false h4, decide_eq_true h⟩
  rw [formOfScript_eq, if_neg h1, if_neg h2, if_pos h]

/-- A single-key output has none of the quorum's shapes, except that of Taproot. -/
theorem forms_of_some {scriptPubkey : Bytes} {form : Form}
    (h : formOfScript scriptPubkey = some form) :
    isP2shScript scriptPubkey = false ∧ isP2wshScript scriptPubkey = false ∧
      (isP2trScript scriptPubkey = true → ∃ output, form = .p2tr output) := by
  refine ⟨?_, ?_, ?_⟩
  · refine decide_eq_false fun hfits => ?_
    cases (forms_of_p2sh hfits).1.symm.trans h
  · refine decide_eq_false fun hfits => ?_
    cases (forms_of_p2wsh hfits).1.symm.trans h
  · intro hp2tr
    have hform := (forms_of_p2tr (of_decide_eq_true hp2tr)).1
    exact ⟨_, Option.some.inj (h.symm.trans hform)⟩

/-- The forms a quorum can take. -/
inductive MsForm where
  | p2sh
  | p2wsh
  | p2tr
  deriving DecidableEq, Repr

def MsForm.keyLength : MsForm → Nat
  | .p2sh | .p2wsh => 33
  | .p2tr => 32

/-- The builder of the form's script. -/
def MsForm.makeScript (form : MsForm) (m : Int) (keys : List Bytes) : Except Exn Bytes :=
  match form with
  | .p2sh | .p2wsh => makeMultisigRedeemScript m keys
  | .p2tr => makeMultisigTapscript m keys

/-- What the builder makes of keys in script order. -/
def MsForm.scriptBytes (form : MsForm) (m : Nat) (keys : List Bytes) : Bytes :=
  match form with
  | .p2sh | .p2wsh => redeemBytes m keys
  | .p2tr => tapscriptBytes m keys

theorem MsForm.makeScript_eq_ok {form : MsForm} {m : Nat} {keys : List Bytes} {script : Bytes} :
    form.makeScript m keys = .ok script ↔
      IsQuorum form.keyLength m keys ∧ script = form.scriptBytes m (sortedKeys keys) := by
  cases form with
  | p2sh => exact makeMultisigRedeemScript_eq_ok
  | p2wsh => exact makeMultisigRedeemScript_eq_ok
  | p2tr => exact makeMultisigTapscript_eq_ok

/-- The lock script shape of the form. -/
def MsForm.shape : MsForm → Shape
  | .p2sh => p2shShape
  | .p2wsh => p2wshShape
  | .p2tr => p2trShape

/-- The key a private key has in a script of the form. -/
def memberKey (form : MsForm) (privkey : P.PrivateKey) : Bytes :=
  match form with
  | .p2sh | .p2wsh => privkey2pubkey P privkey
  | .p2tr => slice (privkey2pubkey P privkey) 1 33

/-- A threshold over private keys for which the form's builder has a script. -/
structure MsQuorum (P : Primitives) where
  form : MsForm
  m : Nat
  members : List P.PrivateKey
  script : Bytes
  built : form.makeScript m (members.map (memberKey form)) = .ok script

namespace MsQuorum

/-- The keys in script order. -/
def keys (q : MsQuorum P) : List Bytes := sortedKeys (q.members.map (memberKey q.form))

theorem isQuorum (q : MsQuorum P) :
    IsQuorum q.form.keyLength q.m (q.members.map (memberKey q.form)) :=
  (MsForm.makeScript_eq_ok.mp q.built).1

theorem isQuorum_keys (q : MsQuorum P) : IsQuorum q.form.keyLength q.m q.keys :=
  q.isQuorum.sorted

/-- The script is the canonical one. -/
theorem script_eq (q : MsQuorum P) : q.script = q.form.scriptBytes q.m q.keys :=
  (MsForm.makeScript_eq_ok.mp q.built).2

/-- Members are told apart by their keys. -/
theorem memberKey_inj (q : MsQuorum P) {k k' : P.PrivateKey} (hk : k ∈ q.members)
    (hk' : k' ∈ q.members) (h : memberKey q.form k = memberKey q.form k') : k = k' :=
  List.inj_on_of_nodup_map q.isQuorum.nodup hk hk' h

theorem mem_keys (q : MsQuorum P) {k : P.PrivateKey} (hk : k ∈ q.members) :
    memberKey q.form k ∈ q.keys :=
  mem_sortedKeys.mpr (List.mem_map_of_mem hk)

/-- The leaf of a script-path quorum, under a control block. -/
def revealed (q : MsQuorum P) (controlBlock : Bytes) : RevealedLeaf :=
  ⟨controlBlock, q.script, q.m, q.keys, tapscriptLeafHash P q.script⟩

end MsQuorum

/-- A request to spend an output that pays to the quorum: the lock script has the form's
shape, the script is supplied, and a previous transaction has that output. -/
def PaysQuorum (q : MsQuorum P) (vin : PsbtTxIn) (create : CreateInput) : Prop :=
  match q.form with
  | .p2sh => p2shShape.Fits create.scriptPubkey ∧ create.redeemScript = some q.script ∧
      ∀ prev ∈ create.prevTx, prev.vout[vin.n.toNat]? = some ⟨create.amount, create.scriptPubkey⟩
  | .p2wsh => p2wshShape.Fits create.scriptPubkey ∧ create.witnessScript = some q.script
  | .p2tr => p2trShape.Fits create.scriptPubkey ∧
      create.tapLeafScript = some (q.script ++ [tapscriptLeafVersion])

/-- The field that reveals the script, and the lock script's commitment to it. -/
def Commits (q : MsQuorum P) (input : PsbtIn) (scriptPubkey : Bytes) : Prop :=
  match q.form with
  | .p2sh => p2shShape.Fits scriptPubkey ∧ input.redeemScript = some q.script ∧
      quorumScript q.script = .ok (q.m, q.keys) ∧
      hash160 P q.script = slice scriptPubkey 2 22
  | .p2wsh => p2wshShape.Fits scriptPubkey ∧ input.witnessScript = some q.script ∧
      quorumScript q.script = .ok (q.m, q.keys) ∧
      P.sha256 q.script = slice scriptPubkey 2 34
  | .p2tr => p2trShape.Fits scriptPubkey ∧ input.tapMerkleRoot = none ∧
      ∃ leaf, input.tapLeafScripts = [leaf] ∧
        revealedLeaf P input leaf scriptPubkey = .ok (q.revealed leaf.controlBlock)

/-- The UTXO record of an input: the output itself, or a previous transaction that has it and
passed the comparison. -/
def SpendsOutput (P : Primitives) (vin : PsbtTxIn) (input : PsbtIn) (output : PsbtTxOut) : Prop :=
  (input.witnessUtxo = some output ∧ input.nonWitnessUtxo = none) ∨
    (input.witnessUtxo = none ∧ ∃ prev, input.nonWitnessUtxo = some prev ∧
      prev.id P = vin.txhash ∧ prev.vout[vin.n.toNat]? = some output)

/-- A fresh input of a quorum. -/
structure QuorumInput (q : MsQuorum P) (vin : PsbtTxIn) (input : PsbtIn)
    (output : PsbtTxOut) : Prop where
  spends : SpendsOutput P vin input output
  commits : Commits q input output.script
  partialSigs : input.partialSigs = []
  tapScriptSigs : input.tapScriptSigs = []
  sighashType : input.sighashType = none
  finalScriptsig : input.finalScriptsig = none
  finalScriptwitness : input.finalScriptwitness = none
  leaves : input.tapLeafScripts.length ≤ 1
  unknown : input.unknown = []

/-- A redeem script the roles accept is read back as the quorum it was built for. -/
theorem quorumScript_eq {q : MsQuorum P} {quorum : Nat × List Bytes}
    (hlen : q.form.keyLength = 33) (hbytes : q.script = redeemBytes q.m q.keys)
    (h : quorumScript q.script = .ok quorum) : quorum = (q.m, q.keys) := by
  obtain ⟨m, keys⟩ := quorum
  obtain ⟨hq, -, hscript⟩ := extractMultisigQuorum_eq_ok.mp (mapError_eq_ok.mp h)
  have hown := hlen ▸ q.isQuorum_keys
  obtain ⟨rfl, rfl⟩ := redeemBytes_injective hq hown (hscript.symm.trans hbytes)
  rfl

/-- The fixed parts of a control block. -/
theorem tapscriptControlBlock_spec {internal leafHash controlBlock : Bytes}
    (h : tapscriptControlBlock P internal leafHash = .ok controlBlock) :
    controlBlock.length = 33 ∧ controlBlock.headD 0 &&& 0xfe = tapscriptLeafVersion ∧
      slice controlBlock 1 33 = internal := by
  obtain ⟨⟨point, tweak⟩, htweak, h⟩ := bind_eq_ok.mp h
  obtain ⟨q, -, h⟩ := bind_eq_ok.mp h
  cases h
  have hlen : internal.length = 32 := by
    have hcheck := (reject_bind_eq_ok.mp htweak).1
    exact not_not.mp hcheck
  refine ⟨by simp [hlen], ?_, ?_⟩
  · -- The version byte keeps its seven upper bits, whatever the parity.
    have hmask : ∀ b : UInt8, (tapscriptLeafVersion ||| b &&& 1) &&& 0xfe =
        tapscriptLeafVersion := by
      intro b
      apply UInt8.eq_of_toBitVec_eq
      have hbits : ∀ v : BitVec 8, (0xc0#8 ||| v &&& 1#8) &&& 0xfe#8 = 0xc0#8 := by
        decide +kernel
      exact hbits b.toBitVec
    exact hmask _
  · rw [slice, List.drop_one, List.tail_cons]
    exact List.take_of_length_le (by omega)

theorem leafScript_append {q : MsQuorum P} (hform : q.form = .p2tr) :
    leafScript (q.script ++ [tapscriptLeafVersion]) = .ok (q.script, q.m, q.keys) := by
  have hq := q.isQuorum_keys
  have hscript := q.script_eq
  rw [hform] at hq hscript
  have hextract : extractMultisigTapscript q.script = .ok (q.m, q.keys) := by
    rw [hscript]
    exact extractMultisigTapscript_tapscriptBytes hq
  simp only [leafScript, List.getLast?_concat, List.dropLast_concat, hextract]
  rfl

theorem revealedLeaf_ok {q : MsQuorum P} {input : PsbtIn} {controlBlock scriptPubkey : Bytes}
    (hform : q.form = .p2tr) (hroot : input.tapMerkleRoot = none)
    (hcontrol : tapscriptControlBlock P msTapscriptInternalKey (tapscriptLeafHash P q.script) =
      .ok controlBlock)
    (houtput : tapscriptOutputKey P msTapscriptInternalKey (tapscriptLeafHash P q.script) =
      .ok (slice scriptPubkey 2 34)) :
    revealedLeaf P input ⟨controlBlock, q.script ++ [tapscriptLeafVersion]⟩ scriptPubkey =
      .ok (q.revealed controlBlock) := by
  obtain ⟨hlen, hversion, hinternal⟩ := tapscriptControlBlock_spec hcontrol
  have hshape : ¬ (controlBlock.length ≠ 33 ∨ controlBlock.headD 0 &&& 0xfe ≠ tapscriptLeafVersion ∨
      slice controlBlock 1 33 ≠ msTapscriptInternalKey) := by
    simp only [not_or, not_not, ne_eq]
    exact ⟨hlen, hversion, hinternal⟩
  have hnoroot : ¬ ∃ root ∈ input.tapMerkleRoot, root ≠ tapscriptLeafHash P q.script := by
    simp [hroot]
  simp only [revealedLeaf, reject_false _ hshape, ok_bind, leafScript_append hform, houtput,
    reject_false _ (not_not.mpr rfl), reject_false _ hnoroot]
  rfl

/-- The Creator turns a request for a quorum output into a fresh quorum input. -/
theorem createInput_quorum {q : MsQuorum P} {i : Nat} {vin : PsbtTxIn} {create : CreateInput}
    {input : PsbtIn} (hpays : PaysQuorum q vin create)
    (h : createInput P i vin create = .ok input) :
    QuorumInput q vin input ⟨create.amount, create.scriptPubkey⟩ := by
  have hbytes := q.script_eq
  cases hform : q.form with
  | p2sh =>
    simp only [PaysQuorum, hform] at hpays
    obtain ⟨hfits, hredeem, hprev⟩ := hpays
    obtain ⟨hnone, hsh, -, -⟩ := forms_of_p2sh hfits
    simp only [createInput, hnone, hsh, hredeem] at h
    obtain ⟨quorum, hquorum, h⟩ := bind_eq_ok.mp h
    obtain ⟨hcommit, h⟩ := reject_bind_eq_ok.mp h
    obtain ⟨prev, hchecked, h⟩ := bind_eq_ok.mp h
    obtain ⟨prev', hsome, hchecked⟩ := bind_eq_ok.mp hchecked
    obtain ⟨hid, hchecked⟩ := reject_bind_eq_ok.mp hchecked
    cases hchecked
    cases h
    rw [hform] at hbytes
    obtain rfl := quorumScript_eq (by rw [hform]; rfl) hbytes hquorum
    refine ⟨.inr ⟨rfl, prev, rfl, not_not.mp hid, ?_⟩, ?_, rfl, rfl, rfl, rfl, rfl, Nat.zero_le 1, rfl⟩
    · exact hprev prev (orElseThrow_eq_ok.mp hsome)
    · rw [Commits, hform]
      exact ⟨hfits, rfl, hquorum, not_not.mp hcommit⟩
  | p2wsh =>
    simp only [PaysQuorum, hform] at hpays
    obtain ⟨hfits, hwitness⟩ := hpays
    obtain ⟨hnone, hsh, hwsh, -⟩ := forms_of_p2wsh hfits
    simp only [createInput, hnone, hsh, hwsh, hwitness] at h
    obtain ⟨quorum, hquorum, h⟩ := bind_eq_ok.mp h
    obtain ⟨hcommit, h⟩ := reject_bind_eq_ok.mp h
    cases h
    rw [hform] at hbytes
    obtain rfl := quorumScript_eq (by rw [hform]; rfl) hbytes hquorum
    refine ⟨.inl ⟨rfl, rfl⟩, ?_, rfl, rfl, rfl, rfl, rfl, Nat.zero_le 1, rfl⟩
    rw [Commits, hform]
    exact ⟨hfits, rfl, hquorum, not_not.mp hcommit⟩
  | p2tr =>
    simp only [PaysQuorum, hform] at hpays
    obtain ⟨hfits, hleaf⟩ := hpays
    obtain ⟨hkey, hsh, hwsh, htr⟩ := forms_of_p2tr hfits
    simp only [createInput, hkey, hsh, hwsh, hleaf, htr, if_true, createP2tr,
      leafScript_append hform, ok_bind] at h
    obtain ⟨outputKey, houtput, h⟩ := bind_eq_ok.mp h
    obtain ⟨hcommit, h⟩ := reject_bind_eq_ok.mp h
    obtain ⟨controlBlock, hcontrol, h⟩ := bind_eq_ok.mp h
    cases h
    obtain rfl := not_not.mp hcommit
    refine ⟨.inl ⟨rfl, rfl⟩, ?_, rfl, rfl, rfl, rfl, rfl, le_refl 1, rfl⟩
    rw [Commits, hform]
    exact ⟨hfits, rfl, _, rfl, revealedLeaf_ok hform rfl hcontrol houtput⟩

/-- The input maps of a created PSBT, one for each request. -/
theorem createPsbt_spec {tx : PsbtTransaction} {inputs : List CreateInput} {psbt : Psbt}
    (h : createPsbt P tx inputs = .ok psbt) :
    psbt.unsignedTx = tx ∧ psbt.inputs.length = tx.vin.length ∧
      psbt.outputs = tx.vout.map (fun _ => ⟨[]⟩) ∧ psbt.unknownGlobal = [] ∧
      ∀ i input, psbt.inputs[i]? = some input → ∃ vin create, tx.vin[i]? = some vin ∧
        inputs[i]? = some create ∧ createInput P i vin create = .ok input := by
  obtain ⟨-, h⟩ := reject_bind_eq_ok.mp h
  obtain ⟨hcount, h⟩ := reject_bind_eq_ok.mp h
  obtain ⟨-, h⟩ := reject_bind_eq_ok.mp h
  obtain ⟨psbtInputs, hinputs, h⟩ := bind_eq_ok.mp h
  cases h
  have hlen := mapM_length hinputs
  refine ⟨rfl, ?_, rfl, rfl, ?_⟩
  · simp [hlen, not_not.mp hcount]
  · intro i input hin
    obtain ⟨⟨⟨vin, create⟩, j⟩, hget, hcreate⟩ := mapM_getElem? hinputs i input hin
    rw [List.getElem?_zipIdx] at hget
    obtain ⟨pair, hpair, he⟩ := Option.map_eq_some_iff.mp hget
    simp only [Nat.zero_add, Prod.mk.injEq] at he
    obtain ⟨rfl, rfl⟩ := he
    obtain ⟨hvin, hreq⟩ := List.getElem?_zip_eq_some.mp hpair
    exact ⟨vin, create, hvin, hreq, hcreate⟩

/-- A PSBT all of whose inputs are fresh inputs of one quorum. -/
structure FreshPsbt (q : MsQuorum P) (psbt : Psbt) : Prop where
  count : psbt.inputs.length = psbt.unsignedTx.vin.length
  outputs : psbt.outputs = psbt.unsignedTx.vout.map fun _ => ⟨[]⟩
  unknownGlobal : psbt.unknownGlobal = []
  inputs : ∀ (i : Nat) input, psbt.inputs[i]? = some input → ∃ vin output,
    psbt.unsignedTx.vin[i]? = some vin ∧ QuorumInput q vin input output

theorem createPsbt_quorum {q : MsQuorum P} {tx : PsbtTransaction} {inputs : List CreateInput}
    {psbt : Psbt} (h : createPsbt P tx inputs = .ok psbt)
    (hpays : ∀ (i : Nat) vin create, tx.vin[i]? = some vin → inputs[i]? = some create →
      PaysQuorum q vin create) : FreshPsbt q psbt := by
  obtain ⟨rfl, hcount, houtputs, hglobal, hin⟩ := createPsbt_spec h
  refine ⟨hcount, houtputs, hglobal, ?_⟩
  intro i input hi
  obtain ⟨vin, create, hvin, hcreate, hone⟩ := hin i input hi
  exact ⟨vin, _, hvin, createInput_quorum (hpays i vin create hvin hcreate) hone⟩

end Yubtc.QuorumPsbt
