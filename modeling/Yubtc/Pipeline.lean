import Yubtc.DirectSigning
import Yubtc.Extraction
import Yubtc.SignWalk
import Yubtc.TxCodec

/-!
# The pipeline and the direct path

A transaction whose inputs are spent by single keys can be signed at once, or go through Creator,
Signer, Finalizer and Extractor. Both ways hash the same bytes and put the signatures in the same
places.
-/
namespace Yubtc.Pipeline

open LittleEndian Wire Errors ExceptRules Crypto Script Transaction PsbtData PsbtCodec PsbtRoles
  Signer Finalizer QuorumPsbt QuorumSigning SignWalk Finalization Extraction DirectSigning TxCodec
  PsbtReading
open Confluence (signStep)

variable {P : Primitives}

variable (P) in
/-- An input, the output it spends as the Creator is told of it, and the key the output is for. A
previous transaction has that output at the place of the outpoint. -/
structure KeyInput where
  txhash : Bytes
  txhash_length : txhash.length = 32
  n : UInt32
  sequence : UInt32
  create : CreateInput
  key : P.PrivateKey
  form : Form
  own : ownForm P create.scriptPubkey (privkey2pubkey P key) = .ok (some form)
  keyPath : ∀ output, form = .p2tr output → create.tapLeafScript = none
  spends : ∀ hash prev, form = .legacy hash → create.prevTx = some prev →
    prev.vout[n.toNat]? = some ⟨create.amount, create.scriptPubkey⟩

namespace KeyInput

variable (x : KeyInput P)

def pubkey : Bytes := privkey2pubkey P x.key

/-- The input without a signature. -/
def txIn : PsbtTxIn := ⟨x.txhash, x.n, [], x.sequence, []⟩

/-- The input as the direct path has it before signing, with the script it spends. -/
def cIn : CIn := ⟨x.txhash, x.txhash_length, x.n, x.create.scriptPubkey, x.sequence, []⟩

def spend : SpendInput := ⟨x.create.amount.toNat, x.create.scriptPubkey⟩

def signer : P.PrivateKey × Bytes := (x.key, x.pubkey)

end KeyInput

def unsignedTx (inputs : List (KeyInput P)) (vout : List PsbtTxOut) (locktime : UInt32) :
    PsbtTransaction :=
  ⟨2, inputs.map KeyInput.txIn, vout, locktime⟩

def directTx (inputs : List (KeyInput P)) (vout : List PsbtTxOut) (locktime : UInt32) :
    CTransaction :=
  ⟨inputs.map KeyInput.cIn, vout.map fun out => ⟨out.amount, out.script⟩, locktime⟩

/-- The key of an input signs it. -/
def signOwn (inputs : List (KeyInput P)) (psbt : Psbt) (i : Fin inputs.length) : Except Exn Psbt :=
  signStep P (i, inputs[i].key) psbt

/-- What the key of an input has to do with its output. -/
def FormKey (P : Primitives) (pubkey : Bytes) : Form → Prop
  | .legacy hash | .p2wpkh hash => hash160 P pubkey = hash
  | .p2tr output => taprootOutputKey P (slice pubkey 1 33) = .ok output

theorem ownForm_eq_ok {scriptPubkey pubkey : Bytes} {form : Form}
    (h : ownForm P scriptPubkey pubkey = .ok (some form)) :
    formOfScript scriptPubkey = some form ∧ FormKey P pubkey form := by
  unfold ownForm at h
  cases hform : formOfScript scriptPubkey with
  | none =>
    rw [hform] at h
    cases h
  | some other =>
    rw [hform] at h
    cases other with
    | legacy hash =>
      by_cases hne : hash ≠ hash160 P pubkey
      · simp only [if_pos hne] at h
        cases h
      · simp only [if_neg hne] at h
        cases h
        exact ⟨rfl, (not_not.mp hne).symm⟩
    | p2wpkh hash =>
      by_cases hne : hash ≠ hash160 P pubkey
      · simp only [if_pos hne] at h
        cases h
      · simp only [if_neg hne] at h
        cases h
        exact ⟨rfl, (not_not.mp hne).symm⟩
    | p2tr output =>
      obtain ⟨tweaked, htweaked, h⟩ := bind_eq_ok.mp h
      by_cases hne : tweaked ≠ output
      · rw [if_pos hne] at h
        cases h
      · rw [if_neg hne] at h
        cases h
        obtain rfl := not_not.mp hne
        exact ⟨rfl, htweaked⟩

/-- The scheme the direct path chooses. -/
def schemeOf : Form → SigScheme
  | .legacy _ => .legacy
  | .p2wpkh _ => .p2wpkh
  | .p2tr _ => .p2tr

theorem scheme_of_form {scriptPubkey : Bytes} {form : Form}
    (h : formOfScript scriptPubkey = some form) :
    sigSchemeFromScriptPubkey scriptPubkey = schemeOf form := by
  rw [formOfScript_eq] at h
  unfold sigSchemeFromScriptPubkey
  by_cases hp2pkh : p2pkhShape.Fits scriptPubkey
  · rw [if_pos hp2pkh] at h
    cases h
    rw [if_neg (not_fits_of_length hp2pkh (by decide)),
      if_neg (not_fits_of_length hp2pkh (by decide))]
    rfl
  · rw [if_neg hp2pkh] at h
    by_cases hp2wpkh : p2wpkhShape.Fits scriptPubkey
    · rw [if_pos hp2wpkh] at h
      cases h
      rw [if_pos hp2wpkh]
      rfl
    · rw [if_neg hp2wpkh] at h
      by_cases hp2tr : p2trShape.Fits scriptPubkey
      · rw [if_pos hp2tr] at h
        cases h
        rw [if_neg hp2wpkh, if_pos hp2tr]
        rfl
      · rw [if_neg hp2tr] at h
        cases h

section Signature

variable (inputs : List (KeyInput P)) (vout : List PsbtTxOut) (locktime : UInt32)

/-- The signature both ways put in. -/
def ownSignature (x : KeyInput P) (i : Nat) : Except Exn Bytes :=
  let tx := directTx inputs vout locktime
  match x.form with
  | .legacy _ =>
    let blanked := tx.vin.map fun vin => { vin with script := [] }
    let preimage : CTransaction := { tx with vin := blanked.set i x.cIn }
    .ok (signData P x.key (preimage.serialize ++ packLE 4 0x01) ++ [sighashAll])
  | .p2wpkh _ => do
    let sighash ← bip143SighashInRange P tx.sigTx i (p2wpkhScriptCode x.create.scriptPubkey)
      x.create.amount.toNat
    return signHash P x.key sighash ++ [sighashAll]
  | .p2tr _ => do
    let sighash ← taprootKeypathSighashInRange P tx.sigTx i (inputs.map KeyInput.spend)
    taprootSignSighash P x.key sighash

/-- A signature of the kind a form takes. -/
def SignatureOf (key : P.PrivateKey) (sig : Bytes) : Form → Prop
  | .legacy _ | .p2wpkh _ => ∃ digest, sig = P.sign key digest ++ [sighashAll]
  | .p2tr _ => ∃ tweaked digest, sig = P.signSchnorr tweaked digest

variable {inputs vout locktime}

theorem ownSignature_kind {x : KeyInput P} {i : Nat} {sig : Bytes}
    (h : ownSignature inputs vout locktime x i = .ok sig) : SignatureOf x.key sig x.form := by
  unfold ownSignature at h
  cases hform : x.form with
  | legacy hash =>
    rw [hform] at h
    cases h
    exact ⟨_, rfl⟩
  | p2wpkh hash =>
    rw [hform] at h
    obtain ⟨sighash, -, h⟩ := bind_eq_ok.mp h
    cases h
    exact ⟨sighash, rfl⟩
  | p2tr output =>
    rw [hform] at h
    obtain ⟨sighash, -, h⟩ := bind_eq_ok.mp h
    rw [taprootSignSighash] at h
    split at h
    · cases h
    · next tweaked _ =>
      cases h
      exact ⟨tweaked, sighash, rfl⟩

/-- Two inline pushes. -/
def pushes (sig pubkey : Bytes) : Bytes :=
  (UInt8.ofNat sig.length :: sig) ++ (UInt8.ofNat pubkey.length :: pubkey)

theorem cScript_pushes {sig pubkey : Bytes} (hsig : sig.length < 0x4c)
    (hpubkey : pubkey.length < 0x4c) :
    cScript [.data sig, .data pubkey] = .ok (pushes sig pubkey) := by
  simp only [cScript, List.mapM_cons, List.mapM_nil, ScriptItem.encode,
    reject_false _ (Nat.not_le.mpr hsig), reject_false _ (Nat.not_le.mpr hpubkey), ok_bind,
    pure_eq_ok, List.flatten_cons, List.flatten_nil, List.append_nil]
  rfl

theorem pubkey_length (hP : P.Lawful) (x : KeyInput P) : x.pubkey.length = 33 :=
  hP.format_length _

theorem legacy_pushes (hP : P.Lawful) (x : KeyInput P) (digest : Bytes) :
    cScript [.data (P.sign x.key digest ++ [sighashAll]), .data x.pubkey] =
      .ok (pushes (P.sign x.key digest ++ [sighashAll]) x.pubkey) := by
  have hsign := hP.sign_length x.key digest
  have hpubkey := pubkey_length hP x
  apply cScript_pushes
  · rw [List.length_append, List.length_singleton]
    omega
  · omega

end Signature

/-- The input map of the Creator. -/
def baseInput (x : KeyInput P) : PsbtIn :=
  match x.form with
  | .legacy _ => { emptyInput with nonWitnessUtxo := x.create.prevTx }
  | .p2wpkh _ | .p2tr _ => witnessInput x.create

/-- The same with signatures. -/
def signedMap (x : KeyInput P) (sigs : List (Bytes × Bytes)) : PsbtIn :=
  { baseInput x with partialSigs := sigs }

def KeyInput.output (x : KeyInput P) : PsbtTxOut := ⟨x.create.amount, x.create.scriptPubkey⟩

section Run

variable (inputs : List (KeyInput P)) (vout : List PsbtTxOut) (locktime : UInt32)

structure Created (base : Psbt) : Prop where
  tx : base.unsignedTx = unsignedTx inputs vout locktime
  inputs_length : base.inputs.length = inputs.length
  inputs : ∀ (i : Nat) x, inputs[i]? = some x →
    base.inputs[i]? = some (baseInput x) ∧ SpendsOutput P x.txIn (baseInput x) x.output

variable {inputs vout locktime} {base psbt : Psbt}

theorem Created.vin (hbase : Created inputs vout locktime base) {i : Nat} {x : KeyInput P}
    (hx : inputs[i]? = some x) : base.unsignedTx.vin[i]? = some x.txIn := by
  rw [hbase.tx, unsignedTx, List.getElem?_map, hx]
  rfl

theorem Created.utxo (hbase : Created inputs vout locktime base) {i : Nat} {x : KeyInput P}
    (hx : inputs[i]? = some x) :
    inputUtxoData base i = some (x.create.scriptPubkey, x.create.amount) :=
  inputUtxoData_quorum (hbase.inputs i x hx).1 (hbase.vin hx) (hbase.inputs i x hx).2

/-- The digest context is the one the direct path is given. -/
theorem Created.spendContext (hbase : Created inputs vout locktime base) :
    spendContext base = some (inputs.map KeyInput.spend) := by
  rw [PsbtRoles.spendContext, option_mapM_eq_some, List.forall₂_iff_get]
  constructor
  · rw [List.length_range, hbase.tx, unsignedTx, List.length_map, List.length_map]
  · intro i hi hi'
    rw [List.length_map] at hi'
    have hx : inputs[i]? = some inputs[i] := List.getElem?_eq_getElem hi'
    simp only [List.get_eq_getElem, List.getElem_range, List.getElem_map, hbase.utxo hx,
      Option.map_some]
    rfl

variable (inputs vout locktime base) in
/-- Some inputs carry the signature of their key, the others none. -/
structure SignedBy (S : Set Nat) (psbt : Psbt) : Prop where
  strip : stripPsbt psbt = stripPsbt base
  inputs : ∀ (i : Nat) x, inputs[i]? = some x →
    (i ∉ S ∧ psbt.inputs[i]? = some (baseInput x)) ∨
      (i ∈ S ∧ ∃ sig, ownSignature inputs vout locktime x i = .ok sig ∧
        psbt.inputs[i]? = some (signedMap x [(x.pubkey, sig)]))

theorem baseInput_bare (x : KeyInput P) : strip (baseInput x) = baseInput x ∧
    (baseInput x).partialSigs = [] ∧ (baseInput x).sighashType = none ∧
    (baseInput x).tapLeafScripts = [] ∧ ¬ IsFinal (baseInput x) := by
  have hopen : ∀ input : PsbtIn, input.finalScriptsig = none → input.finalScriptwitness = none →
      ¬ IsFinal input := by
    intro input hsig hwitness
    exact not_isFinal.mpr ⟨hsig, hwitness⟩
  unfold baseInput
  cases x.form with
  | legacy hash => exact ⟨rfl, rfl, rfl, rfl, hopen _ rfl rfl⟩
  | p2wpkh hash => exact ⟨rfl, rfl, rfl, rfl, hopen _ rfl rfl⟩
  | p2tr output => exact ⟨rfl, rfl, rfl, rfl, hopen _ rfl rfl⟩

/-- The tweaked secret of a Taproot key is a secret. -/
def Signable (x : KeyInput P) : Prop :=
  ∀ output, x.form = .p2tr output →
    (P.privateKey (toBytesBig 32 (taprootTweakedScalar P x.key))).isSome = true

/-- The input map with the signature in its final place. -/
def finalInput (x : KeyInput P) (sig : Bytes) : PsbtIn :=
  match x.form with
  | .legacy _ => { baseInput x with finalScriptsig := some (pushes sig x.pubkey) }
  | .p2wpkh _ =>
    { baseInput x with finalScriptwitness := some (encodeWitnessStack [sig, x.pubkey]) }
  | .p2tr _ => { baseInput x with finalScriptwitness := some (encodeWitnessStack [sig]) }

/-- The signature of the key is found by the hash. -/
theorem finalKeySig_own (hP : P.Lawful) (i : Nat) {x : KeyInput P} {hash digest : Bytes}
    (hkey : hash160 P x.pubkey = hash) :
    finalKeySig P i (signedMap x [(x.pubkey, P.sign x.key digest ++ [sighashAll])]) hash =
      .ok (x.pubkey, P.sign x.key digest ++ [sighashAll]) := by
  rw [finalKeySig_eq_ok]
  constructor
  · rw [partialSigByHash, signedMap]
    apply List.find?_cons_of_pos
    simp [pubkey_length hP x, hkey]
  · exact List.getLast?_concat

/-- The Finalizer puts the signature in its place. -/
theorem finalizeKey_own (hP : P.Lawful) (i : Nat) {x : KeyInput P} {sig : Bytes}
    (hsig : SignatureOf x.key sig x.form) :
    finalizeKey P i (signedMap x [(x.pubkey, sig)]) x.create.scriptPubkey =
      .ok (finalInput x sig) := by
  obtain ⟨hform, hkey⟩ := ownForm_eq_ok x.own
  obtain ⟨-, -, hsighash, -, -⟩ := baseInput_bare x
  have hopen : ∀ pinned, ¬ blockedSighash (signedMap x [(x.pubkey, sig)]) pinned := by
    rintro pinned ⟨t, ht, -⟩
    cases hsighash.symm.trans ht
  unfold finalizeKey finalInput
  simp only [hform, orElseThrow_some, ok_bind, reject_false _ (hopen _)]
  cases hx : x.form with
  | legacy hash =>
    rw [hx] at hsig hkey
    obtain ⟨digest, rfl⟩ := hsig
    simp only [finalKeySig_own hP i hkey, ok_bind, legacy_pushes hP, pure_eq_ok]
    simp only [signedMap, baseInput, hx]
    rfl
  | p2wpkh hash =>
    rw [hx] at hsig hkey
    obtain ⟨digest, rfl⟩ := hsig
    simp only [finalKeySig_own hP i hkey, ok_bind, pure_eq_ok]
    simp only [signedMap, baseInput, hx]
    rfl
  | p2tr output =>
    rw [hx] at hsig hkey
    obtain ⟨tweaked, digest, rfl⟩ := hsig
    have hfound : p2trSigByOutputKey P
        (signedMap x [(x.pubkey, P.signSchnorr tweaked digest)]) output =
          some (P.signSchnorr tweaked digest) := by
      rw [p2trSigByOutputKey, signedMap]
      refine congrArg (Option.map Prod.snd) (List.find?_cons_of_pos ?_)
      have hkey' : taprootOutputKey P (slice x.pubkey 1 33) = .ok output := hkey
      simp [pubkey_length hP x, hP.signSchnorr_length, hkey']
    simp only [hfound, orElseThrow_some, ok_bind, pure_eq_ok]
    simp only [signedMap, baseInput, hx]
    rfl

/-- A signed input's outcome is its signature in place. -/
theorem finalOutcome_signed (hP : P.Lawful) (hbase : Created inputs vout locktime base)
    {S : Set Nat} (h : SignedBy inputs vout locktime base S psbt) {i : Nat} {x : KeyInput P}
    (hx : inputs[i]? = some x) (hi : i ∈ S) :
    ∃ sig, ownSignature inputs vout locktime x i = .ok sig ∧
      finalOutcome P psbt i = .ok (finalInput x sig) := by
  cases h.inputs i x hx with
  | inl hno => exact absurd hi hno.1
  | inr hyes =>
    obtain ⟨-, sig, hsig, hin⟩ := hyes
    obtain ⟨hp2sh, hp2wsh, -⟩ := forms_of_some (ownForm_eq_ok x.own).1
    obtain ⟨-, -, -, hleaves, hopen⟩ := baseInput_bare x
    have hutxo := (inputUtxoData_congr h.strip i).trans (hbase.utxo hx)
    have hopen' : ¬ IsFinal (signedMap x [(x.pubkey, sig)]) := hopen
    have hleaves' : (signedMap x [(x.pubkey, sig)]).tapLeafScripts = [] := hleaves
    refine ⟨sig, hsig, ?_⟩
    rw [finalOutcome_of_utxo hin hopen' hutxo, finalBranch]
    simp only [hp2sh, hp2wsh, Bool.false_eq_true, if_false, hleaves']
    rw [← finalizeKey_own hP i (ownSignature_kind hsig)]
    cases isP2trScript x.create.scriptPubkey <;> rfl

end Run

def sampleKey : standIn.PrivateKey := (5 : Nat)

def samplePubkey : Bytes := privkey2pubkey standIn sampleKey

def sampleHash : Bytes := hash160 standIn samplePubkey

def sampleOutput : Bytes := (taprootOutputKey standIn (slice samplePubkey 1 33)).toOption.getD []

def samplePrev : PsbtTransaction :=
  ⟨2, [⟨List.replicate 32 0x33, 0, [], 0xffffffff, []⟩], [⟨9000, p2pkhShape.build sampleHash⟩], 0⟩

def sampleCreate (form : Form) : CreateInput :=
  match form with
  | .legacy hash => { amount := 9000, scriptPubkey := p2pkhShape.build hash, prevTx := samplePrev }
  | .p2wpkh hash => { amount := 5000, scriptPubkey := p2wpkhShape.build hash, prevTx := none }
  | .p2tr output => { amount := 7000, scriptPubkey := p2trShape.build output, prevTx := none }

def sampleForms : List Form := [.legacy sampleHash, .p2wpkh sampleHash, .p2tr sampleOutput]

theorem sampleForms_own (form : Form) (h : form ∈ sampleForms) :
    ownForm standIn (sampleCreate form).scriptPubkey samplePubkey = .ok (some form) := by
  revert form
  decide +kernel

theorem sampleCreate_keyPath (form : Form) : (sampleCreate form).tapLeafScript = none := by
  cases form <;> rfl

theorem sampleCreate_spends (form : Form) (hash : Bytes) (prev : PsbtTransaction)
    (h : form ∈ sampleForms) (hform : form = .legacy hash)
    (hprev : (sampleCreate form).prevTx = some prev) :
    prev.vout[(0 : UInt32).toNat]? =
      some ⟨(sampleCreate form).amount, (sampleCreate form).scriptPubkey⟩ := by
  subst hform
  cases hprev
  have hhash : hash = sampleHash := by
    simpa [sampleForms] using h
  rw [hhash]
  rfl

theorem samplePrev_id_length : (samplePrev.id standIn).length = 32 := by
  decide +kernel

def sampleInput (form : Form) (h : form ∈ sampleForms) : KeyInput standIn where
  txhash := samplePrev.id standIn
  txhash_length := samplePrev_id_length
  n := 0
  sequence := 0xfffffffe
  create := sampleCreate form
  key := sampleKey
  form := form
  own := sampleForms_own form h
  keyPath := fun _ _ => sampleCreate_keyPath form
  spends := fun hash prev => sampleCreate_spends form hash prev h

/-- One input of each form. -/
def sampleInputs : List (KeyInput standIn) :=
  sampleForms.pmap sampleInput fun _ h => h

end Yubtc.Pipeline
