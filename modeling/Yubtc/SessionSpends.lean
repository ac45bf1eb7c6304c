import Yubtc.Summary
import Yubtc.KeySpends
import Yubtc.QuorumSpend

/-!
# Spending after a session

Signers, finalizers and combiners work on copies of a PSBT, in any order and with any failures on
the way. Every signature they leave on an input is one that a key made for this input, so what is
finalized from the signatures satisfies the lock script, and so does what is extracted.
-/
namespace Yubtc.SessionSpends

open Wire Errors ExceptRules Crypto Script Quorum QuorumExecution Transaction PsbtData PsbtCodec
  PsbtRoles QuorumPsbt Signer SignWalk SigningFrame Finalizer Finalization Extraction Permanence
  Pipeline Combine Summary TaprootKeys KeySpends QuorumSpend
open Copies (Run)
open ScriptVm (Instr)

variable {P : Primitives} {V : Verifier}

variable (P) (V) in
/-- Input `i` spends an output of a key, or reveals the script under a hash and satisfies it. -/
inductive Spends (tx : PsbtTransaction) (coins : List SpendInput) (i : Nat) (vin : PsbtTxIn)
    (coin : SpendInput) : Prop
  | key (h : Unlocks P V tx coins i vin coin)
  | p2sh (script : Bytes) (items : List Bytes) (hlock : p2shShape.Fits coin.scriptPubkey)
    (hhash : hash160 P script = p2shShape.payload coin.scriptPubkey) (hwitness : vin.witness = [])
    (hitems : ScriptVm.decode vin.script = some ((items ++ [script]).map Instr.push))
    (hrun : ScriptVm.Succeeds (scriptContext (validEcdsa V (legacyDigest P tx i script))) script
      items.reverse)
  | p2wsh (script digest : Bytes) (items : List Bytes) (hlock : p2wshShape.Fits coin.scriptPubkey)
    (hhash : P.sha256 script = p2wshShape.payload coin.scriptPubkey) (hscript : vin.script = [])
    (hwitness : vin.witness = items ++ [script])
    (hdigest : bip143Sighash P tx.sigTx i (compactSize script.length ++ script) coin.amount =
      .ok digest)
    (hrun : ScriptVm.Succeeds (scriptContext (validEcdsa V digest)) script items.reverse)

/-- A transaction and the same with scripts and witnesses put in. -/
structure Completes (tx stx : PsbtTransaction) : Prop where
  version : stx.version = tx.version
  vin : List.Forall₂ (fun vin svin : PsbtTxIn =>
    svin.txhash = vin.txhash ∧ svin.n = vin.n ∧ svin.sequence = vin.sequence) tx.vin stx.vin
  vout : stx.vout = tx.vout
  locktime : stx.locktime = tx.locktime

section Completes

variable {tx stx : PsbtTransaction} (h : Completes tx stx)

include h

theorem Completes.sigTx_eq : stx.sigTx = tx.sigTx := by
  have hvin : stx.vin.map (fun i => (⟨i.txhash, i.n, i.sequence⟩ : SigIn)) =
      tx.vin.map fun i => ⟨i.txhash, i.n, i.sequence⟩ := by
    apply List.ext_getElem (by simp [h.vin.length_eq])
    intro j hj hj'
    simp only [List.length_map] at hj hj'
    obtain ⟨htxhash, hn, hsequence⟩ := h.vin.get hj' hj
    simp only [List.get_eq_getElem] at htxhash hn hsequence
    simp only [List.getElem_map, htxhash, hn, hsequence]
  simp only [PsbtTransaction.sigTx, hvin, h.version, h.vout, h.locktime]

theorem Completes.legacyDigest_eq (i : Nat) (lock : Bytes) :
    legacyDigest P stx i lock = legacyDigest P tx i lock := by
  have hvin : (stx.vin.mapIdx fun j vin =>
        { vin with script := if j = i then lock else [] }).map PsbtTxIn.serialize =
      (tx.vin.mapIdx fun j vin =>
        { vin with script := if j = i then lock else [] }).map PsbtTxIn.serialize := by
    apply List.ext_getElem (by simp [h.vin.length_eq])
    intro j hj hj'
    simp only [List.length_map, List.length_mapIdx] at hj hj'
    obtain ⟨htxhash, hn, hsequence⟩ := h.vin.get hj' hj
    simp only [List.get_eq_getElem] at htxhash hn hsequence
    simp only [List.getElem_map, List.getElem_mapIdx, PsbtTxIn.serialize, htxhash, hn, hsequence]
  have hlen := congrArg List.length hvin
  simp only [List.length_map] at hlen
  have hflat := congrArg List.flatten hvin
  rw [← List.flatMap_def, ← List.flatMap_def] at hflat
  simp only [legacyDigest, PsbtTransaction.serializeStripped, hflat, hlen, h.version, h.vout,
    h.locktime]

/-- The digests do not see scripts and witnesses of the transaction. -/
theorem Completes.spends {coins : List SpendInput} {i : Nat} {vin : PsbtTxIn} {coin : SpendInput}
    (hs : Spends P V tx coins i vin coin) : Spends P V stx coins i vin coin := by
  cases hs with
  | key hkey =>
    apply Spends.key
    cases hkey with
    | p2pkh hash items hlen hlock hwitness hitems hrun =>
      rw [← h.legacyDigest_eq] at hrun
      exact .p2pkh hash items hlen hlock hwitness hitems hrun
    | p2wpkh hash digest hlen hlock hscript hdigest hcount hrun =>
      rw [← h.sigTx_eq] at hdigest
      exact .p2wpkh hash digest hlen hlock hscript hdigest hcount hrun
    | p2tr output digest sig hlen hlock hscript hdigest hwitness hsize hvalid =>
      rw [← h.sigTx_eq] at hdigest
      exact .p2tr output digest sig hlen hlock hscript hdigest hwitness hsize hvalid
  | p2sh script items hlock hhash hwitness hitems hrun =>
    rw [← h.legacyDigest_eq] at hrun
    exact .p2sh script items hlock hhash hwitness hitems hrun
  | p2wsh script digest items hlock hhash hscript hwitness hdigest hrun =>
    rw [← h.sigTx_eq] at hdigest
    exact .p2wsh script digest items hlock hhash hscript hwitness hdigest hrun

end Completes

/-- Input `i` of a PSBT, with the output it spends. -/
structure At (base : Psbt) (i : Nat) (first : PsbtIn) (scriptPubkey : Bytes) (amount : UInt64) :
    Prop where
  input : base.inputs[i]? = some first
  utxo : inputUtxoData base i = some (scriptPubkey, amount)

/-- A signature that a key has made for the input, in the branch of its form. -/
inductive Genuine (base : Psbt) (i : Nat) (first : PsbtIn) (scriptPubkey : Bytes)
    (amount : UInt64) : Bytes × Bytes → Prop
  | key {key : P.PrivateKey} {form : Form} {sig : Bytes}
    (hform : ownForm P scriptPubkey (privkey2pubkey P key) = .ok (some form))
    (hsig : keySignature P base i scriptPubkey amount form key = .ok (some sig)) :
    Genuine base i first scriptPubkey amount (privkey2pubkey P key, sig)
  | p2sh {key : P.PrivateKey} {redeem sig : Bytes} (hlock : isP2shScript scriptPubkey = true)
    (hredeem : first.redeemScript = some redeem)
    (hsig : p2shSignature P base i key redeem = .ok sig) :
    Genuine base i first scriptPubkey amount (privkey2pubkey P key, sig)
  | p2wsh {key : P.PrivateKey} {redeem sig : Bytes} (hlock : isP2wshScript scriptPubkey = true)
    (hredeem : first.witnessScript = some redeem)
    (hsig : p2wshSignature P base i amount key redeem = .ok sig) :
    Genuine base i first scriptPubkey amount (privkey2pubkey P key, sig)

section Signatures

variable {base : Psbt} {i : Nat} {first input : PsbtIn} {scriptPubkey : Bytes} {amount : UInt64}
  {key : P.PrivateKey} {pubkey sig : Bytes}

/-- What the ladder of a script form adds. -/
theorem signMultisig_adds {script : Option Bytes} {commitment : Bytes → Bytes} {committed : Bytes}
    {signature : Bytes → Except Exn Bytes}
    (h : signMultisig P script commitment committed signature base i input key =
      .ok (.partialSig pubkey sig)) :
    pubkey = privkey2pubkey P key ∧
      ∃ redeem, script = some redeem ∧ signature redeem = .ok sig := by
  obtain ⟨redeem, hredeem, h⟩ := bind_eq_ok.mp h
  obtain ⟨quorum, -, h⟩ := bind_eq_ok.mp h
  obtain ⟨-, h⟩ := reject_bind_eq_ok.mp h
  split at h
  · cases h
  · obtain ⟨-, -, h⟩ := bind_eq_ok.mp h
    obtain ⟨-, -, h⟩ := bind_eq_ok.mp h
    split at h
    · cases h
    · obtain ⟨made, hmade, h⟩ := bind_eq_ok.mp h
      cases h
      exact ⟨rfl, redeem, orElseThrow_eq_ok.mp hredeem, hmade⟩

/-- What the ladder of the single-key forms adds. -/
theorem signKey_adds (h : signKey P base i input scriptPubkey amount key =
      .ok (.partialSig pubkey sig)) :
    pubkey = privkey2pubkey P key ∧ ∃ form, ownForm P scriptPubkey pubkey = .ok (some form) ∧
      keySignature P base i scriptPubkey amount form key = .ok (some sig) := by
  obtain ⟨own, hown, h⟩ := bind_eq_ok.mp h
  cases own with
  | none => cases h
  | some form =>
    obtain ⟨-, -, h⟩ := bind_eq_ok.mp h
    obtain ⟨-, -, h⟩ := bind_eq_ok.mp h
    split at h
    · cases h
    · obtain ⟨made, hmade, h⟩ := bind_eq_ok.mp h
      cases made with
      | none => cases h
      | some made =>
        cases h
        exact ⟨rfl, form, hown, hmade⟩

/-- The script path files its signatures elsewhere. -/
theorem signP2trScriptpath_adds {leaf : TapLeafScript} :
    signP2trScriptpath P base i input leaf scriptPubkey key ≠ .ok (.partialSig pubkey sig) := by
  intro h
  obtain ⟨revealed, -, h⟩ := bind_eq_ok.mp h
  split at h
  · cases h
  · obtain ⟨-, -, h⟩ := bind_eq_ok.mp h
    obtain ⟨-, -, h⟩ := bind_eq_ok.mp h
    split at h
    · cases h
    · cases hspend : spendContext base with
      | none =>
        rw [hspend] at h
        cases h
      | some spend =>
        rw [hspend] at h
        obtain ⟨digest, -, h⟩ := bind_eq_ok.mp h
        cases h

/-- A signature that a signer adds is genuine, when the scripts it finds are those at the start. -/
theorem signBranch_genuine
    (hredeem : ∀ script, input.redeemScript = some script → first.redeemScript = some script)
    (hwitness : ∀ script, input.witnessScript = some script → first.witnessScript = some script)
    (h : signBranch P base i input scriptPubkey amount key = .ok (.partialSig pubkey sig)) :
    Genuine (P := P) base i first scriptPubkey amount (pubkey, sig) := by
  unfold signBranch at h
  split at h
  · next hlock =>
    obtain ⟨rfl, redeem, hscript, hsig⟩ := signMultisig_adds h
    exact .p2wsh hlock (hwitness redeem hscript) hsig
  · split at h
    · next hlock =>
      obtain ⟨rfl, redeem, hscript, hsig⟩ := signMultisig_adds h
      exact .p2sh hlock (hredeem redeem hscript) hsig
    · split at h
      · exact absurd h signP2trScriptpath_adds
      · obtain ⟨rfl, form, hform, hsig⟩ := signKey_adds h
        exact .key hform hsig

end Signatures

variable (P) (V) in
/-- With these in place, the input spends its output. -/
def SpendsWith (base : Psbt) (i : Nat) (scriptPubkey : Bytes) (amount : UInt64) (script : Bytes)
    (witness : List Bytes) : Prop :=
  ∀ coins vin, spendContext base = some coins → base.unsignedTx.vin[i]? = some vin →
    Spends P V base.unsignedTx coins i { vin with script := script, witness := witness }
      ⟨amount.toNat, scriptPubkey⟩

def formShape : Form → Shape
  | .legacy _ => p2pkhShape
  | .p2wpkh _ => p2wpkhShape
  | .p2tr _ => p2trShape

def formPayload : Form → Bytes
  | .legacy hash => hash
  | .p2wpkh hash => hash
  | .p2tr output => output

/-- A single-key script is built from what its form holds. -/
theorem form_built {scriptPubkey : Bytes} {form : Form}
    (h : formOfScript scriptPubkey = some form) :
    scriptPubkey = (formShape form).build (formPayload form) ∧
      (formPayload form).length = (formShape form).size := by
  have hfits : (formShape form).Fits scriptPubkey ∧
      (formShape form).payload scriptPubkey = formPayload form := by
    rw [formOfScript_eq] at h
    split at h
    · next hp2pkh =>
      cases h
      exact ⟨hp2pkh, rfl⟩
    · split at h
      · next hp2wpkh =>
        cases h
        exact ⟨hp2wpkh, rfl⟩
      · split at h
        · next hp2tr =>
          cases h
          exact ⟨hp2tr, rfl⟩
        · cases h
  rw [← hfits.2]
  exact ⟨(build_payload hfits.1).symm, Shape.payload_length hfits.1⟩

/-- The legacy preimage, as the Signer blanks the transaction. -/
theorem blanked_digest {tx : PsbtTransaction} {i : Nat} {lock blanked : Bytes}
    (h : blankedSerialization tx i lock = .ok blanked) :
    dsha256 P (blanked ++ packL psbtSighashAll) = legacyDigest P tx i lock := by
  obtain ⟨own, hown, h⟩ := bind_eq_ok.mp h
  cases h
  have hvin : ((tx.vin.map fun vin => { vin with script := [], witness := [] }).set i
        { own with script := lock }).map PsbtTxIn.serialize =
      (tx.vin.mapIdx fun j vin =>
        { vin with script := if j = i then lock else [] }).map PsbtTxIn.serialize := by
    replace hown := orElseThrow_eq_ok.mp hown
    rw [List.getElem?_map, Option.map_eq_some_iff] at hown
    obtain ⟨vin, hvin, rfl⟩ := hown
    apply List.ext_getElem (by simp)
    intro j hj hj'
    simp only [List.length_map, List.length_mapIdx] at hj'
    simp only [List.getElem_map, List.getElem_mapIdx, List.getElem_set]
    by_cases hij : i = j
    · subst hij
      rw [List.getElem?_eq_getElem hj'] at hvin
      cases hvin
      simp only [PsbtTxIn.serialize, if_true]
    · simp only [PsbtTxIn.serialize, hij, Ne.symm hij, if_false]
  have hlen := congrArg List.length hvin
  simp only [List.length_map, List.length_set, List.length_mapIdx] at hlen
  have hflat := congrArg List.flatten hvin
  rw [← List.flatMap_def, ← List.flatMap_def] at hflat
  refine congrArg (dsha256 P) (congrArg (· ++ sighashAllLE) ?_)
  simp only [PsbtTransaction.serializeStripped, hflat, List.length_set, List.length_map,
    List.length_mapIdx]

section Keys

variable {E : Type} [AddCommGroup E] {C : XOnly.Curve E Bytes} {point : P.PublicKey → E}
  {base : Psbt} {i : Nat} {scriptPubkey : Bytes} {amount : UInt64} {key : P.PrivateKey}
  {hash output sig : Bytes}

/-- The hash type makes a signature one byte longer. -/
theorem ecdsa_length (hP : P.Lawful) (key : P.PrivateKey) (digest : Bytes) :
    (P.sign key digest ++ [sighashAll]).length ≤ 73 := by
  have hle := hP.sign_length key digest
  rw [List.length_append, List.length_singleton]
  omega

theorem legacy_spends (hP : P.Lawful) (hV : Accepts P V)
    (hform : formOfScript scriptPubkey = some (.legacy hash))
    (hhash : hash160 P (privkey2pubkey P key) = hash)
    (hsig : keySignature P base i scriptPubkey amount (.legacy hash) key = .ok (some sig))
    {script : Bytes} (hscript : cScript [.data sig, .data (privkey2pubkey P key)] = .ok script) :
    SpendsWith P V base i scriptPubkey amount script [] := by
  intro coins vin _ _
  obtain ⟨hlock, hlen⟩ := form_built hform
  obtain ⟨blanked, hblanked, hsig⟩ := bind_eq_ok.mp hsig
  obtain rfl := Option.some.inj (Except.ok.inj hsig)
  have hpubkey : (privkey2pubkey P key).length = 33 := hP.format_length _
  rw [signData, blanked_digest hblanked] at hscript
  have hsize := ecdsa_length hP key (legacyDigest P base.unsignedTx i scriptPubkey)
  rw [cScript_pushes (by omega) (by omega)] at hscript
  cases hscript
  exact .key (.p2pkh hash _ hlen hlock rfl (KeySpends.decode_pushes (by omega) (by omega))
    (hlock ▸ keyHash_succeeds hV hlen hhash _))

theorem p2wpkh_spends (hV : Accepts P V)
    (hform : formOfScript scriptPubkey = some (.p2wpkh hash))
    (hhash : hash160 P (privkey2pubkey P key) = hash)
    (hsig : keySignature P base i scriptPubkey amount (.p2wpkh hash) key = .ok (some sig)) :
    SpendsWith P V base i scriptPubkey amount [] [sig, privkey2pubkey P key] := by
  intro coins vin _ _
  obtain ⟨hlock, hlen⟩ := form_built hform
  obtain ⟨digest, hdigest, hsig⟩ := bind_eq_ok.mp hsig
  obtain rfl := Option.some.inj (Except.ok.inj hsig)
  replace hlock : scriptPubkey = p2wpkhShape.build hash := hlock
  replace hlen : hash.length = 20 := hlen
  rw [hlock, p2wpkhScriptCode_build hlen] at hdigest
  exact .key (.p2wpkh hash digest hlen hlock rfl hdigest rfl (keyHash_succeeds hV hlen hhash _))

theorem p2tr_spends (hP : P.Lawful) (hC : Implements P C point) (hV : Accepts P V)
    (hkey : FromScalar P key) (hform : formOfScript scriptPubkey = some (.p2tr output))
    (hout : taprootOutputKey P (slice (privkey2pubkey P key) 1 33) = .ok output)
    (hsig : keySignature P base i scriptPubkey amount (.p2tr output) key = .ok (some sig)) :
    SpendsWith P V base i scriptPubkey amount [] [sig] := by
  intro coins vin hcoins _
  obtain ⟨hlock, hlen⟩ := form_built hform
  simp only [keySignature, hcoins] at hsig
  obtain ⟨digest, hdigest, hsig⟩ := bind_eq_ok.mp hsig
  obtain ⟨made, hmade, hsig⟩ := bind_eq_ok.mp hsig
  obtain rfl := Option.some.inj (Except.ok.inj hsig)
  obtain ⟨signer, hsigner⟩ := taprootSignSighash_signer hmade
  have hsize : made.length = 64 := hsigner ▸ hP.signSchnorr_length signer digest
  exact .key (.p2tr output digest made hlen hlock rfl hdigest rfl hsize
    (keyPath_valid hC hV hkey hout hmade))

end Keys

/-- Values that a partial function finds along a list are found at members in the same order. -/
theorem filterMap_chosen {α β : Type} (f : α → Option β) (l : List α) (m : Nat) :
    ∃ chosen, chosen.Sublist l ∧
      List.Forall₂ (fun b a => f a = some b) ((l.filterMap f).take m) chosen := by
  have hall : ∃ chosen, chosen.Sublist l ∧
      List.Forall₂ (fun b a => f a = some b) (l.filterMap f) chosen := by
    induction l with
    | nil => exact ⟨[], .slnil, .nil⟩
    | cons a l ih =>
      obtain ⟨chosen, hsub, hall⟩ := ih
      cases ha : f a with
      | none =>
        rw [List.filterMap_cons_none ha]
        exact ⟨chosen, hsub.cons a, hall⟩
      | some b =>
        rw [List.filterMap_cons_some ha]
        exact ⟨a :: chosen, hsub.cons_cons a, .cons ha hall⟩
  obtain ⟨chosen, hsub, hall⟩ := hall
  exact ⟨chosen.take m, (List.take_sublist m chosen).trans hsub, List.forall₂_take m hall⟩

section Quorums

variable {base : Psbt} {i : Nat} {scriptPubkey : Bytes} {amount : UInt64} {input : PsbtIn}

/-- Signatures of members, valid under their keys, satisfy the script. -/
theorem members_succeed {valid : Bytes → Bytes → Bool} {redeem : Bytes} {m : Nat}
    {keys : List Bytes} (hquorum : extractMultisigQuorum redeem = .ok (m, keys))
    (hcount : m ≤ (memberSigs input keys).length)
    (hvalid : ∀ p ∈ input.partialSigs, valid p.2 p.1 = true) :
    ScriptVm.Succeeds (scriptContext valid) redeem
      ([] :: (memberSigs input keys).take m).reverse := by
  obtain ⟨hq, -, rfl⟩ := extractMultisigQuorum_eq_ok.mp hquorum
  have hlen : ((memberSigs input keys).take m).length = m := by
    rw [List.length_take]
    omega
  obtain ⟨chosen, hsub, hfound⟩ := filterMap_chosen
    (fun key => (input.partialSigs.find? fun p => p.1 = key).map Prod.snd) keys m
  have hsigs : List.Forall₂ (fun sig key => valid sig key = true)
      ((memberSigs input keys).take m) chosen := by
    apply hfound.imp
    intro sig key h
    obtain ⟨p, hp, rfl⟩ := Option.map_eq_some_iff.mp h
    have hkey := List.find?_some hp
    rw [decide_eq_true_eq] at hkey
    rw [← hkey]
    exact hvalid p (List.mem_of_find?_eq_some hp)
  have hq' : IsQuorum 33 ((memberSigs input keys).take m).length keys := hlen.symm ▸ hq
  have hrun := run_redeemBytes hq' hsigs hsub
  rw [hlen] at hrun
  refine ⟨_, ?_, ScriptVm.isTrue_ofBool true⟩
  rw [List.reverse_cons]
  exact hrun

/-- A script signature made of pushes decodes to them. -/
theorem decode_scriptSig {redeem script : Bytes} {sigs : List Bytes}
    (h : makeMultisigScriptSig redeem sigs = .ok script) :
    ScriptVm.decode script = some (([] :: sigs ++ [redeem]).map Instr.push) := by
  obtain ⟨parts, hparts, h⟩ := bind_eq_ok.mp h
  obtain ⟨last, hlast, h⟩ := bind_eq_ok.mp h
  cases h
  obtain ⟨hredeem, rfl⟩ := pushData_eq_ok.mp hlast
  have hall : List.Forall₂ (fun sig part => sig.length ≤ 0xffff ∧ pushed sig = part) sigs parts :=
    (mapM_eq_ok.mp hparts).imp fun _ _ hpart => pushData_eq_ok.mp hpart
  obtain ⟨hsigs, hpushed⟩ := (List.forall₂_and_left _ _).mp hall
  replace hpushed : sigs.map pushed = parts := by
    rw [← List.forall₂_eq_eq_eq, List.forall₂_map_left_iff]
    exact hpushed
  have hsmall : ∀ item ∈ [] :: sigs ++ [redeem], item.length ≤ 0xffff := by
    intro item hitem
    cases mem_items hitem with
    | inl he => simp [he]
    | inr hitem =>
      cases hitem with
      | inl hmem => exact hsigs item hmem
      | inr he => exact he ▸ hredeem
  rw [← QuorumSpend.decode_pushes hsmall, ← hpushed]
  congr 1
  simp [pushed, op0]

/-- A member's signature is valid by the digest of the transaction. -/
theorem p2sh_valid (hV : Accepts P V) {key : P.PrivateKey} {redeem sig : Bytes}
    (h : p2shSignature P base i key redeem = .ok sig) :
    validEcdsa V (legacyDigest P base.unsignedTx i redeem) sig (privkey2pubkey P key) = true := by
  obtain ⟨blanked, hblanked, h⟩ := bind_eq_ok.mp h
  cases h
  rw [signData, blanked_digest hblanked]
  simp [validEcdsa, hV.ecdsa]

theorem p2wsh_valid (hV : Accepts P V) {key : P.PrivateKey} {redeem sig : Bytes}
    (h : p2wshSignature P base i amount key redeem = .ok sig) :
    ∃ digest, bip143Sighash P base.unsignedTx.sigTx i (compactSize redeem.length ++ redeem)
        amount.toNat = .ok digest ∧ sig = P.sign key digest ++ [sighashAll] ∧
      validEcdsa V digest sig (privkey2pubkey P key) = true := by
  obtain ⟨digest, hdigest, h⟩ := bind_eq_ok.mp h
  cases h
  refine ⟨digest, hdigest, rfl, ?_⟩
  simp [validEcdsa, signHash, hV.ecdsa]

end Quorums

variable (P) (V) in
/-- An input map of a session, with the one the session began with: it holds the scripts of the
start or none, the signatures on it are genuine, and its final fields spend the output. A revealed
leaf is left out: what its script does with a complete witness is another matter. -/
structure SoundInput (base : Psbt) (i : Nat) (first : PsbtIn) (scriptPubkey : Bytes)
    (amount : UInt64) (input : PsbtIn) : Prop where
  redeemScript : ∀ script, input.redeemScript = some script → first.redeemScript = some script
  witnessScript : ∀ script, input.witnessScript = some script → first.witnessScript = some script
  leaves : first.tapLeafScripts = [] → input.tapLeafScripts = []
  sigs : ∀ p ∈ input.partialSigs, Genuine (P := P) base i first scriptPubkey amount p
  scriptsig : ∀ script, input.finalScriptsig = some script →
    SpendsWith P V base i scriptPubkey amount script []
  scriptwitness : first.tapLeafScripts = [] → ∀ witness, input.finalScriptwitness = some witness →
    ∃ stack, decodeWitnessStack witness = .ok stack ∧
      SpendsWith P V base i scriptPubkey amount [] stack

section Inputs

variable {E : Type} [AddCommGroup E] {C : XOnly.Curve E Bytes} {point : P.PublicKey → E}
  {base : Psbt} {i : Nat} {first input r : PsbtIn} {scriptPubkey : Bytes} {amount : UInt64}

/-- The signatures on an input of a single key. -/
theorem genuine_key {form : Form} {p : Bytes × Bytes}
    (hform : formOfScript scriptPubkey = some form)
    (h : Genuine (P := P) base i first scriptPubkey amount p) :
    ∃ key, p.1 = privkey2pubkey P key ∧ FormKey P p.1 form ∧
      keySignature P base i scriptPubkey amount form key = .ok (some p.2) := by
  obtain ⟨hp2sh, hp2wsh, -⟩ := forms_of_some hform
  cases h with
  | key hown hsig =>
    obtain ⟨hform', hformKey⟩ := ownForm_eq_ok hown
    cases hform.symm.trans hform'
    exact ⟨_, rfl, hformKey, hsig⟩
  | p2sh hlock => cases hp2sh.symm.trans hlock
  | p2wsh hlock => cases hp2wsh.symm.trans hlock

/-- The signatures on an input under a P2SH script. -/
theorem genuine_p2sh {redeem : Bytes} {p : Bytes × Bytes} (hlock : isP2shScript scriptPubkey = true)
    (hredeem : first.redeemScript = some redeem)
    (h : Genuine (P := P) base i first scriptPubkey amount p) :
    ∃ key, p.1 = privkey2pubkey P key ∧ p2shSignature P base i key redeem = .ok p.2 := by
  obtain ⟨hform, -, hp2wsh, -⟩ := forms_of_p2sh (of_decide_eq_true hlock)
  cases h with
  | key hown hsig => cases hform.symm.trans (ownForm_eq_ok hown).1
  | p2sh _ hfirst hsig =>
    cases hfirst.symm.trans hredeem
    exact ⟨_, rfl, hsig⟩
  | p2wsh hother => cases hp2wsh.symm.trans hother

theorem genuine_p2wsh {redeem : Bytes} {p : Bytes × Bytes}
    (hlock : isP2wshScript scriptPubkey = true) (hredeem : first.witnessScript = some redeem)
    (h : Genuine (P := P) base i first scriptPubkey amount p) :
    ∃ key, p.1 = privkey2pubkey P key ∧ p2wshSignature P base i amount key redeem = .ok p.2 := by
  obtain ⟨hform, hp2sh, -, -⟩ := forms_of_p2wsh (of_decide_eq_true hlock)
  cases h with
  | key hown hsig => cases hform.symm.trans (ownForm_eq_ok hown).1
  | p2sh hother => cases hp2sh.symm.trans hother
  | p2wsh _ hfirst hsig =>
    cases hfirst.symm.trans hredeem
    exact ⟨_, rfl, hsig⟩

/-- A witness stack of the wallet is read back. -/
theorem stack_read {items : List Bytes} (hcount : items.length ≤ 32)
    (hitems : ∀ item ∈ items, item.length ≤ 0xffff) :
    decodeWitnessStack (encodeWitnessStack items) = .ok items := by
  apply PsbtReading.decodeWitnessStack_encodeWitnessStack
  · omega
  · intro item hitem
    have hle := hitems item hitem
    omega

/-- Cleared of signatures and scripts, an input is as sound as its final fields. -/
theorem sound_of_cleared (hcleared : Cleared r)
    (hleaves : first.tapLeafScripts = [] → r.tapLeafScripts = [])
    (hscriptsig : ∀ script, r.finalScriptsig = some script →
      SpendsWith P V base i scriptPubkey amount script [])
    (hwitness : first.tapLeafScripts = [] → ∀ witness, r.finalScriptwitness = some witness →
      ∃ stack, decodeWitnessStack witness = .ok stack ∧
        SpendsWith P V base i scriptPubkey amount [] stack) :
    SoundInput P V base i first scriptPubkey amount r where
  redeemScript script hscript := by
    rw [hcleared.redeemScript] at hscript
    cases hscript
  witnessScript script hscript := by
    rw [hcleared.witnessScript] at hscript
    cases hscript
  leaves := hleaves
  sigs p hp := by
    rw [hcleared.partialSigs] at hp
    cases hp
  scriptsig := hscriptsig
  scriptwitness := hwitness

section Finalizers

variable (hP : P.Lawful) (hV : Accepts P V)
  (hsound : SoundInput P V base i first scriptPubkey amount input) (hopen : ¬ IsFinal input)

include hP hV hsound hopen

/-- The finalizer of a single key finds a genuine signature and puts it where it spends. -/
theorem finalizeKey_sound (hC : Implements P C point)
    (hkeys : ∀ key : P.PrivateKey, FromScalar P key)
    (h : finalizeKey P i input scriptPubkey = .ok r) :
    SoundInput P V base i first scriptPubkey amount r := by
  obtain ⟨hsig, hwitness⟩ := not_isFinal.mp hopen
  obtain ⟨form, hform, h⟩ := bind_eq_ok.mp h
  replace hform := orElseThrow_eq_ok.mp hform
  obtain ⟨-, h⟩ := reject_bind_eq_ok.mp h
  cases form with
  | legacy hash =>
    obtain ⟨⟨pubkey, sig⟩, hfound, h⟩ := bind_eq_ok.mp h
    obtain ⟨script, hscript, h⟩ := bind_eq_ok.mp h
    cases h
    have hmem := List.mem_of_find?_eq_some (finalKeySig_eq_ok.mp hfound).1
    obtain ⟨key, rfl, hhash, hmade⟩ := genuine_key hform (hsound.sigs _ hmem)
    refine sound_of_cleared ⟨rfl, rfl, rfl, rfl⟩ hsound.leaves ?_ ?_
    · intro script' hscript'
      cases hscript'
      exact legacy_spends hP hV hform hhash hmade hscript
    · intro _ witness hw
      cases hwitness.symm.trans hw
  | p2wpkh hash =>
    obtain ⟨⟨pubkey, sig⟩, hfound, h⟩ := bind_eq_ok.mp h
    cases h
    have hmem := List.mem_of_find?_eq_some (finalKeySig_eq_ok.mp hfound).1
    obtain ⟨key, rfl, hhash, hmade⟩ := genuine_key hform (hsound.sigs _ hmem)
    refine sound_of_cleared ⟨rfl, rfl, rfl, rfl⟩ hsound.leaves ?_ ?_
    · intro script hscript
      cases hsig.symm.trans hscript
    · intro _ witness hw
      cases hw
      refine ⟨_, stack_read (by simp) ?_, p2wpkh_spends hV hform hhash hmade⟩
      obtain ⟨digest, -, hmade⟩ := bind_eq_ok.mp hmade
      cases hmade
      have hsize := ecdsa_length hP key digest
      have hpubkey : (privkey2pubkey P key).length = 33 := hP.format_length _
      intro item hitem
      simp only [List.mem_cons, List.not_mem_nil, or_false] at hitem
      cases hitem with
      | inl he => exact he ▸ hsize.trans (by decide)
      | inr he => exact he ▸ hpubkey.trans_le (by decide)
  | p2tr output =>
    obtain ⟨sig, hfound, h⟩ := bind_eq_ok.mp h
    cases h
    obtain ⟨p, hfind, rfl⟩ := Option.map_eq_some_iff.mp (orElseThrow_eq_ok.mp hfound)
    have hmem := List.mem_of_find?_eq_some hfind
    have hsize := List.find?_some hfind
    simp only [Bool.and_eq_true, decide_eq_true_eq] at hsize
    obtain ⟨key, hpubkey, hout, hmade⟩ := genuine_key hform (hsound.sigs _ hmem)
    rw [hpubkey] at hout
    refine sound_of_cleared ⟨rfl, rfl, rfl, rfl⟩ hsound.leaves ?_ ?_
    · intro script hscript
      cases hsig.symm.trans hscript
    · intro _ witness hw
      cases hw
      refine ⟨_, stack_read (by simp) ?_, p2tr_spends hP hC hV (hkeys key) hform hout hmade⟩
      intro item hitem
      rw [List.mem_singleton.mp hitem, hsize.1.1]
      decide

omit hP in
theorem finalizeP2shMultisig_sound (hlock : isP2shScript scriptPubkey = true)
    (h : finalizeP2shMultisig P i input scriptPubkey = .ok r) :
    SoundInput P V base i first scriptPubkey amount r := by
  obtain ⟨-, hwitness⟩ := not_isFinal.mp hopen
  obtain ⟨⟨redeem, sigs⟩, hfound, h⟩ := bind_eq_ok.mp h
  obtain ⟨script, hscript, h⟩ := bind_eq_ok.mp h
  cases h
  obtain ⟨m, keys, hredeem, hquorum, hhash, -, -, hcount, rfl⟩ := finalizeMultisig_eq_ok.mp hfound
  have hfirst := hsound.redeemScript redeem hredeem
  refine sound_of_cleared ⟨rfl, rfl, rfl, rfl⟩ hsound.leaves ?_ ?_
  · intro script' hscript' coins vin _ _
    cases hscript'
    refine .p2sh redeem _ (of_decide_eq_true hlock) hhash rfl (decode_scriptSig hscript) ?_
    apply members_succeed hquorum hcount
    intro p hp
    obtain ⟨key, hpubkey, hmade⟩ := genuine_p2sh hlock hfirst (hsound.sigs p hp)
    rw [hpubkey]
    exact p2sh_valid hV hmade
  · intro _ witness hw
    cases hwitness.symm.trans hw

theorem finalizeP2wshMultisig_sound (hlock : isP2wshScript scriptPubkey = true)
    (h : finalizeP2wshMultisig P i input scriptPubkey = .ok r) :
    SoundInput P V base i first scriptPubkey amount r := by
  obtain ⟨hsig, -⟩ := not_isFinal.mp hopen
  obtain ⟨⟨redeem, sigs⟩, hfound, h⟩ := bind_eq_ok.mp h
  cases h
  obtain ⟨m, keys, hredeem, hquorum, hhash, -, -, hcount, rfl⟩ := finalizeMultisig_eq_ok.mp hfound
  have hfirst := hsound.witnessScript redeem hredeem
  obtain ⟨hq, -, -⟩ := extractMultisigQuorum_eq_ok.mp hquorum
  have hgenuine : ∀ p ∈ input.partialSigs, ∃ key, p.1 = privkey2pubkey P key ∧
      p2wshSignature P base i amount key redeem = .ok p.2 :=
    fun p hp => genuine_p2wsh hlock hfirst (hsound.sigs p hp)
  have hmembers : ∀ sig ∈ (memberSigs input keys).take m, sig.length ≤ 73 := by
    intro sig hmem
    obtain ⟨key, -, hfind⟩ := List.mem_filterMap.mp (List.mem_of_mem_take hmem)
    obtain ⟨p, hp, rfl⟩ := Option.map_eq_some_iff.mp hfind
    obtain ⟨k, -, hmade⟩ := hgenuine p (List.mem_of_find?_eq_some hp)
    obtain ⟨digest, -, hsigned, -⟩ := p2wsh_valid hV hmade
    rw [hsigned]
    exact ecdsa_length hP _ digest
  have hbound : keys.length ≤ 15 := hq.bound
  have hm : m ≤ 15 := hq.threshold.trans hbound
  refine sound_of_cleared ⟨rfl, rfl, rfl, rfl⟩ hsound.leaves ?_ ?_
  · intro script hscript
    cases hsig.symm.trans hscript
  · intro _ witness hw
    cases hw
    refine ⟨_, stack_read ?_ ?_, ?_⟩
    · simp only [makeMultisigWitness, List.cons_append, List.length_cons, List.length_append,
        List.length_take, List.length_nil]
      omega
    · intro item hitem
      cases mem_items hitem with
      | inl he => simp [he]
      | inr hitem =>
        cases hitem with
        | inl hmem => exact (hmembers item hmem).trans (by decide)
        | inr he => exact he ▸ redeem_length hquorum
    · intro coins vin _ _
      -- Some member has signed, which gives the digest that all of them have signed.
      have hpos : 0 < (memberSigs input keys).length := Nat.lt_of_lt_of_le hq.pos hcount
      obtain ⟨sig, hmem⟩ := List.exists_mem_of_length_pos hpos
      obtain ⟨_, -, hfind⟩ := List.mem_filterMap.mp hmem
      obtain ⟨p, hp, -⟩ := Option.map_eq_some_iff.mp hfind
      obtain ⟨_, -, hmade⟩ := hgenuine p (List.mem_of_find?_eq_some hp)
      obtain ⟨digest, hdigest, -⟩ := p2wsh_valid hV hmade
      refine .p2wsh redeem digest _ (of_decide_eq_true hlock) hhash rfl rfl hdigest ?_
      apply members_succeed hquorum hcount
      intro p hp
      obtain ⟨key, hpubkey, hmade⟩ := hgenuine p hp
      obtain ⟨digest', hdigest', -, hvalid⟩ := p2wsh_valid hV hmade
      cases hdigest.symm.trans hdigest'
      rw [hpubkey]
      exact hvalid

/-- Whatever the form, what is newly finalized is sound. -/
theorem finalBranch_sound (hC : Implements P C point)
    (hkeys : ∀ key : P.PrivateKey, FromScalar P key)
    (h : finalBranch P i input scriptPubkey = .ok r) :
    SoundInput P V base i first scriptPubkey amount r := by
  unfold finalBranch at h
  split at h
  · next hlock => exact finalizeP2shMultisig_sound hV hsound hopen hlock h
  · split at h
    · next hlock => exact finalizeP2wshMultisig_sound hP hV hsound hopen hlock h
    · split at h
      · next leaf rest _ hleaf =>
        obtain ⟨revealed, slots, total, -, -, -, -, rfl⟩ :=
          LeafSpend.finalizeP2trScriptpath_eq_ok.mp h
        have hrevealed : ¬ first.tapLeafScripts = [] := by
          intro hnil
          cases hleaf.symm.trans (hsound.leaves hnil)
        refine sound_of_cleared ⟨rfl, rfl, rfl, rfl⟩ (fun _ => rfl) ?_ ?_
        · intro script hscript
          cases (not_isFinal.mp hopen).1.symm.trans hscript
        · exact fun hnil => absurd hnil hrevealed
      · exact finalizeKey_sound hP hV hsound hopen hC hkeys h

end Finalizers

/-- A signature of a signer is added to genuine ones. -/
theorem addOutcome_sound {key : P.PrivateKey} {o : SignOutcome}
    (hsound : SoundInput P V base i first scriptPubkey amount input)
    (h : signBranch P base i input scriptPubkey amount key = .ok o) :
    SoundInput P V base i first scriptPubkey amount (addOutcome input o) := by
  cases o with
  | skip => exact hsound
  | present => exact hsound
  | tapScriptSig entry => exact { hsound with }
  | partialSig pubkey sig =>
    refine { hsound with sigs := ?_ }
    intro p hp
    have hperm := SignedState.insert_perm input.partialSigs (fun p => decide (p.1 ≤ pubkey))
      (pubkey, sig)
    cases List.mem_cons.mp (hperm.mem_iff.mp hp) with
    | inl he =>
      rw [he]
      exact signBranch_genuine hsound.redeemScript hsound.witnessScript h
    | inr hmem => exact hsound.sigs p hmem

theorem mergeField_some {α : Type} [DecidableEq α] {a b r : Option α} {x : α}
    (h : mergeField a b = .ok r) (hr : r = some x) : a = some x ∨ b = some x := by
  cases a with
  | none =>
    cases h
    exact .inr hr
  | some a =>
    cases b with
    | none =>
      cases h
      exact .inl hr
    | some b =>
      rw [mergeField] at h
      split at h
      · cases h
        exact .inl hr
      · cases h

/-- A merge of sound inputs is sound: each of its records comes from one of them. -/
theorem merge_sound {a b : PsbtIn} (ha : SoundInput P V base i first scriptPubkey amount a)
    (hb : SoundInput P V base i first scriptPubkey amount b) (h : FieldMerges a b r) :
    SoundInput P V base i first scriptPubkey amount r where
  redeemScript script hscript := by
    cases mergeField_some h.redeemScript hscript with
    | inl hin => exact ha.redeemScript script hin
    | inr hin => exact hb.redeemScript script hin
  witnessScript script hscript := by
    cases mergeField_some h.witnessScript hscript with
    | inl hin => exact ha.witnessScript script hin
    | inr hin => exact hb.witnessScript script hin
  leaves hnil := by
    obtain ⟨out, hout, hsorted⟩ := bind_eq_ok.mp h.tapLeafScripts
    rw [ha.leaves hnil, hb.leaves hnil] at hout
    cases hout
    exact (Except.ok.inj hsorted).symm
  sigs p hp := by
    obtain ⟨out, hout, hsorted⟩ := bind_eq_ok.mp h.partialSigs
    rw [← Except.ok.inj hsorted] at hp
    have hmem := (List.perm_insertionSort _ out).mem_iff.mp hp
    cases KeyedList.mem_of_mergeBy hout hmem with
    | inl hin => exact ha.sigs p hin
    | inr hin => exact hb.sigs p hin
  scriptsig script hscript := by
    cases mergeField_some h.finalScriptsig hscript with
    | inl hin => exact ha.scriptsig script hin
    | inr hin => exact hb.scriptsig script hin
  scriptwitness hnil witness hwitness := by
    cases mergeField_some h.finalScriptwitness hwitness with
    | inl hin => exact ha.scriptwitness hnil witness hin
    | inr hin => exact hb.scriptwitness hnil witness hin

end Inputs

variable (P) (V) in
/-- A PSBT of a session, with the one the session began with. -/
structure SoundPsbt (base psbt : Psbt) : Prop where
  kept : KeptPsbt base psbt
  inputs : ∀ (i : Nat) first scriptPubkey amount, At base i first scriptPubkey amount →
    ∀ input, psbt.inputs[i]? = some input →
      SoundInput P V base i first scriptPubkey amount input

/-- A PSBT before any signature: no final fields, and a transaction without scripts. -/
structure Fresh (base : Psbt) : Prop where
  aligned : Aligned base
  unsigned : ∀ input ∈ base.inputs, input.partialSigs = [] ∧ ¬ IsFinal input

section Session

variable {E : Type} [AddCommGroup E] {C : XOnly.Curve E Bytes} {point : P.PublicKey → E}
  {base psbt : Psbt}

theorem fresh_sound (h : Fresh base) : SoundPsbt P V base base where
  kept := by
    refine ⟨rfl, rfl, List.forall₂_same.mpr ?_⟩
    intro input hin
    refine ⟨⟨rfl, rfl⟩, ?_, fun _ => rfl⟩
    rw [DistinctSigs, (h.unsigned input hin).1]
    exact List.nodup_nil
  inputs i first scriptPubkey amount hat input hin := by
    cases hat.input.symm.trans hin
    obtain ⟨hsigs, hopen⟩ := h.unsigned first (List.mem_of_getElem? hin)
    obtain ⟨hscriptsig, hwitness⟩ := not_isFinal.mp hopen
    refine ⟨fun _ => id, fun _ => id, id, ?_, ?_, ?_⟩
    · intro p hp
      rw [hsigs] at hp
      cases hp
    · intro script hscript
      cases hscriptsig.symm.trans hscript
    · intro _ witness hw
      cases hwitness.symm.trans hw

theorem SoundPsbt.utxos (h : SoundPsbt P V base psbt) (i : Nat) :
    inputUtxoData psbt i = inputUtxoData base i :=
  inputUtxoData_of_same h.kept.unsignedTx (h.kept.inputs.imp fun _ _ hkept => hkept.utxos) i

/-- One input is replaced by a sound one. -/
theorem modifyInput_sound {i : Nat} {input r : PsbtIn} (h : SoundPsbt P V base psbt)
    (hkept : KeptPsbt base (Psbt.modifyInput psbt i fun _ => r))
    (hin : psbt.inputs[i]? = some input)
    (hr : ∀ first scriptPubkey amount, At base i first scriptPubkey amount →
      SoundInput P V base i first scriptPubkey amount input →
        SoundInput P V base i first scriptPubkey amount r) :
    SoundPsbt P V base (Psbt.modifyInput psbt i fun _ => r) := by
  refine ⟨hkept, ?_⟩
  intro j first scriptPubkey amount hat other hother
  have hget : (Psbt.modifyInput psbt i fun _ => r).inputs[j]? =
      (fun input => if i = j then r else input) <$> psbt.inputs[j]? :=
    List.getElem?_modify _ _ _ _
  rw [hget, Option.map_eq_map, Option.map_eq_some_iff] at hother
  obtain ⟨old, hold, rfl⟩ := hother
  by_cases hij : i = j
  · subst hij
    cases hin.symm.trans hold
    rw [if_pos rfl]
    exact hr first scriptPubkey amount hat (h.inputs i _ _ _ hat _ hin)
  · rw [if_neg hij]
    exact h.inputs j _ _ _ hat _ hold

/-- A signer finds what the session began with, but for signatures and final fields. -/
theorem sign_sound (h : SoundPsbt P V base psbt) (i : Nat) (key : P.PrivateKey) :
    SoundPsbt P V base (leftBehind (signPsbtInput P i key psbt)) := by
  have hkept := (sign_advance h.kept i key).1
  cases ho : signOutcome P psbt i key with
  | error e =>
    rw [signPsbtInput_error ho]
    exact h
  | ok o =>
    rw [signPsbtInput_ok ho] at hkept ⊢
    replace hkept : KeptPsbt base (applyOutcome psbt i o) := hkept
    show SoundPsbt P V base (applyOutcome psbt i o)
    cases hin : psbt.inputs[i]? with
    | none =>
      rw [signOutcome_of_none (inputUtxoData_eq_none hin)] at ho
      cases ho
      exact h
    | some input =>
      rw [applyOutcome_eq, modifyInput_const hin] at hkept ⊢
      apply modifyInput_sound h hkept hin
      intro first scriptPubkey amount hat hsound
      rw [signOutcome_of_utxo hin ((h.utxos i).trans hat.utxo),
        RoleRuns.signBranch_view h.kept.unsignedTx h.utxos] at ho
      exact addOutcome_sound hsound ho

variable (hP : P.Lawful) (hC : Implements P C point) (hV : Accepts P V)
  (hkeys : ∀ key : P.PrivateKey, FromScalar P key)

include hP hC hV hkeys

theorem finalizeInput_sound (h : SoundPsbt P V base psbt) (i : Nat) :
    SoundPsbt P V base (leftBehind (finalizePsbtInput P i psbt)) := by
  have hkept := (finalizeInput_advance (P := P) h.kept i).1
  cases ho : finalOutcome P psbt i with
  | error e =>
    rw [finalizePsbtInput_error ho]
    exact h
  | ok r =>
    rw [finalizePsbtInput_ok ho] at hkept ⊢
    obtain ⟨input, hin, hcase⟩ := finalOutcome_ok ho
    apply modifyInput_sound h hkept hin
    intro first scriptPubkey amount hat hsound
    by_cases hfinal : IsFinal input
    · rw [finalOutcome_of_final hin hfinal] at ho
      cases ho
      exact hsound
    · rw [finalOutcome_of_utxo hin hfinal ((h.utxos i).trans hat.utxo)] at ho
      exact finalBranch_sound hP hV hsound hfinal hC hkeys ho

theorem apply_sound (h : SoundPsbt P V base psbt) (action : Action P) :
    SoundPsbt P V base (action.apply psbt) := by
  cases action with
  | sign index key => exact sign_sound h index key
  | finalizeInput index => exact finalizeInput_sound hP hC hV hkeys h index
  | finalize =>
    apply leftBehind_finalizeInputs _ _ h
    intro index s hs
    exact finalizeInput_sound hP hC hV hkeys hs index

omit hP hC hV hkeys in
theorem combine_sound {a b r : Psbt} (ha : SoundPsbt P V base a) (hb : SoundPsbt P V base b)
    (h : combinePsbt a b = .ok r) : SoundPsbt P V base r := by
  have htx : a.unsignedTx = b.unsignedTx := ha.kept.unsignedTx.trans hb.kept.unsignedTx.symm
  refine ⟨(combine_advance (P := P) ha.kept hb.kept h).1, ?_⟩
  intro i first scriptPubkey amount hat input hin
  obtain ⟨-, hinputs, -⟩ := (combinePsbt_eq_ok htx).mp h
  obtain ⟨pair, hpair, hmerge⟩ := mapM_getElem? hinputs i input hin
  obtain ⟨hpa, hpb⟩ := List.getElem?_zip_eq_some.mp hpair
  exact merge_sound (ha.inputs i _ _ _ hat _ hpa) (hb.inputs i _ _ _ hat _ hpb)
    (mergeInput_eq_ok.mp hmerge)

/-- Every PSBT of a session is sound. -/
theorem history_sound (hbase : Fresh base) {run : Run (Action P)}
    (h : history base run = .ok psbt) : SoundPsbt P V base psbt := by
  refine Run.eval_keeps (fresh_sound hbase) ?_ ?_ h
  · intro s action s' hs hstep
    cases hstep
    exact apply_sound hP hC hV hkeys hs action
  · intro s t r hs ht hjoin
    exact combine_sound hs ht (mapError_eq_ok.mp hjoin)

end Session

theorem createInput_unsigned {i : Nat} {vin : PsbtTxIn} {create : CreateInput} {input : PsbtIn}
    (h : createInput P i vin create = .ok input) : input.partialSigs = [] := by
  unfold createInput at h
  split at h
  · obtain ⟨prev, -, h⟩ := bind_eq_ok.mp h
    cases h
    rfl
  · split at h
    · obtain ⟨_, -, h⟩ := bind_eq_ok.mp h
      obtain ⟨-, h⟩ := reject_bind_eq_ok.mp h
      obtain ⟨prev, -, h⟩ := bind_eq_ok.mp h
      cases h
      rfl
    · split at h
      · obtain ⟨_, -, h⟩ := bind_eq_ok.mp h
        obtain ⟨-, h⟩ := reject_bind_eq_ok.mp h
        cases h
        rfl
      · split at h
        · split at h
          · obtain ⟨_, -, h⟩ := bind_eq_ok.mp h
            obtain ⟨_, -, h⟩ := bind_eq_ok.mp h
            obtain ⟨-, h⟩ := reject_bind_eq_ok.mp h
            obtain ⟨_, -, h⟩ := bind_eq_ok.mp h
            cases h
            rfl
          · cases h
            rfl
        · cases h
          rfl

/-- What the Creator returns is unsigned. -/
theorem created_fresh {tx : PsbtTransaction} {creates : List CreateInput} {base : Psbt}
    (h : createPsbt P tx creates = .ok base) : Fresh base := by
  obtain ⟨htx, hlen, -, -, hinputs⟩ := createPsbt_spec h
  obtain ⟨-, h⟩ := reject_bind_eq_ok.mp h
  obtain ⟨-, h⟩ := reject_bind_eq_ok.mp h
  obtain ⟨hbare, -⟩ := reject_bind_eq_ok.mp h
  push Not at hbare
  refine ⟨⟨htx.symm ▸ hlen, htx.symm ▸ hbare⟩, ?_⟩
  intro input hin
  obtain ⟨i, hi⟩ := List.mem_iff_getElem?.mp hin
  obtain ⟨vin, create, -, -, hcreate⟩ := hinputs i input hi
  exact ⟨createInput_unsigned hcreate, createInput_open hcreate⟩

variable (P) (V) in
/-- A signed transaction spends the outputs that the PSBT knows, one for each input. A revealed
leaf is left out. -/
structure SpendsCoins (base : Psbt) (stx : PsbtTransaction) (coins : List SpendInput) : Prop where
  context : spendContext base = some coins
  count : coins.length = stx.vin.length
  spends : ∀ (i : Nat) first vin coin, base.inputs[i]? = some first → stx.vin[i]? = some vin →
    coins[i]? = some coin → first.tapLeafScripts = [] → Spends P V stx coins i vin coin

section Extraction

variable {base psbt : Psbt} {stx : PsbtTransaction} {i : Nat}

/-- The outputs of a digest context are those of the inputs. -/
theorem spendContext_getElem {coins : List SpendInput} {coin : SpendInput}
    (h : spendContext base = some coins) (hcoin : coins[i]? = some coin) :
    ∃ scriptPubkey amount, inputUtxoData base i = some (scriptPubkey, amount) ∧
      coin = ⟨amount.toNat, scriptPubkey⟩ := by
  have hall := option_mapM_eq_some.mp h
  obtain ⟨hi, rfl⟩ := List.getElem?_eq_some_iff.mp hcoin
  have hget := hall.get (hall.length_eq ▸ hi) hi
  simp only [List.get_eq_getElem, List.getElem_range] at hget
  obtain ⟨utxo, hutxo, he⟩ := Option.map_eq_some_iff.mp hget
  exact ⟨utxo.1, utxo.2, hutxo, he.symm⟩

/-- An input is extracted as it was, with its final field put in. -/
theorem extractInput_completes {input : PsbtIn} {vin : PsbtTxIn}
    (h : extractInput psbt i input = .ok vin) :
    ∃ old, psbt.unsignedTx.vin[i]? = some old ∧
      vin.txhash = old.txhash ∧ vin.n = old.n ∧ vin.sequence = old.sequence := by
  obtain ⟨_, _, -, ⟨-, script, -, old, hold, rfl⟩ | ⟨-, stack, -, old, hold, rfl⟩⟩ :=
    extractInput_eq_ok.mp h
  · exact ⟨old, hold, rfl, rfl, rfl⟩
  · exact ⟨old, hold, rfl, rfl, rfl⟩

/-- A sound input is extracted with what spends its output. -/
theorem extractInput_spends {first input : PsbtIn} {vin : PsbtTxIn} {coins : List SpendInput}
    {coin : SpendInput} (h : SoundPsbt P V base psbt) (hal : Aligned base)
    (hcoins : spendContext base = some coins) (hcoin : coins[i]? = some coin)
    (hfirst : base.inputs[i]? = some first) (hleaves : first.tapLeafScripts = [])
    (hin : psbt.inputs[i]? = some input) (hvin : extractInput psbt i input = .ok vin) :
    Spends P V base.unsignedTx coins i vin coin := by
  obtain ⟨scriptPubkey, amount, hutxo, rfl⟩ := spendContext_getElem hcoins hcoin
  have hsound := h.inputs i first scriptPubkey amount ⟨hfirst, hutxo⟩ input hin
  have hbare : ∀ old, psbt.unsignedTx.vin[i]? = some old →
      base.unsignedTx.vin[i]? = some old ∧ old.witness = [] := by
    intro old hold
    rw [h.kept.unsignedTx] at hold
    exact ⟨hold, (hal.unsigned old (List.mem_of_getElem? hold)).2⟩
  obtain ⟨_, _, -, ⟨-, script, hscript, old, hold, rfl⟩ |
    ⟨-, stack, ⟨witness, hwitness, hstack⟩, old, hold, rfl⟩⟩ := extractInput_eq_ok.mp hvin
  · obtain ⟨hbase, hnil⟩ := hbare old hold
    have hspends := hsound.scriptsig script hscript coins old hcoins hbase
    rw [← hnil] at hspends
    exact hspends
  · obtain ⟨hbase, -⟩ := hbare old hold
    obtain ⟨stack', hstack', hspends⟩ := hsound.scriptwitness hleaves witness hwitness
    cases hstack.symm.trans hstack'
    exact hspends coins old hcoins hbase

/-- What is extracted from a sound PSBT is its transaction, and spends the outputs it knows. -/
theorem extract_spends (hbase : Fresh base) (hsound : SoundPsbt P V base psbt)
    (h : extractTransaction psbt = .ok stx) :
    Completes base.unsignedTx stx ∧ ∃ coins, SpendsCoins P V base stx coins := by
  have htx := hsound.kept.unsignedTx
  have hlen : psbt.inputs.length = base.unsignedTx.vin.length := by
    rw [← hsound.kept.inputs.length_eq, hbase.aligned.inputs_length]
  obtain ⟨vins, hvins, rfl⟩ := extractTransaction_eq_ok.mp h
  have hcount : vins.length = psbt.inputs.length := by rw [mapM_length hvins, List.length_zipIdx]
  have hone : ∀ (i : Nat) vin, vins[i]? = some vin → ∃ input, psbt.inputs[i]? = some input ∧
      extractInput psbt i input = .ok vin := by
    intro i vin hvin
    have hi : i < psbt.inputs.length := hcount ▸ (List.getElem?_eq_some_iff.mp hvin).1
    obtain ⟨vin', hvin', hextract⟩ := extracted_getElem? hvins (List.getElem?_eq_getElem hi)
    cases hvin.symm.trans hvin'
    exact ⟨_, List.getElem?_eq_getElem hi, hextract⟩
  have hcompletes : Completes base.unsignedTx { psbt.unsignedTx with vin := vins } := by
    refine ⟨by rw [htx], List.forall₂_iff_get.mpr ⟨by rw [hcount, hlen], ?_⟩, by rw [htx],
      by rw [htx]⟩
    intro i hi hi'
    obtain ⟨input, -, hextract⟩ := hone i _ (List.getElem?_eq_getElem hi')
    obtain ⟨old, hold, hsame⟩ := extractInput_completes hextract
    rw [htx, List.getElem?_eq_getElem hi] at hold
    cases hold
    exact hsame
  have hknown : ∀ i ∈ List.range base.unsignedTx.vin.length, ∃ coin : SpendInput,
      ((inputUtxoData base i).map fun utxo => ⟨utxo.2.toNat, utxo.1⟩) = some coin := by
    intro i hi
    have hlt : i < vins.length := by
      rw [hcount, hlen]
      exact List.mem_range.mp hi
    obtain ⟨input, -, hextract⟩ := hone i _ (List.getElem?_eq_getElem hlt)
    obtain ⟨scriptPubkey, amount, hutxo, -⟩ := extractInput_eq_ok.mp hextract
    rw [hsound.utxos] at hutxo
    exact ⟨_, by rw [hutxo, Option.map_some]⟩
  obtain ⟨coins, hcoins⟩ : ∃ coins, spendContext base = some coins := option_mapM_of_forall hknown
  refine ⟨hcompletes, coins, hcoins, ?_, ?_⟩
  · rw [(QuorumSigning.spendContext_amounts hcoins).1, ← hlen, ← hcount]
  · intro i first vin coin hfirst hvin hcoin hleaves
    obtain ⟨input, hin, hextract⟩ := hone i vin hvin
    exact hcompletes.spends (extractInput_spends hsound hbase.aligned hcoins hcoin hfirst hleaves
      hin hextract)

/-- After any session of signers, finalizers and combiners on copies of an unsigned PSBT, with any
keys and any failures, a transaction that can be extracted pays the same outputs, and each of its
inputs satisfies the lock script of the output it spends. -/
theorem session_spends {E : Type} [AddCommGroup E] {C : XOnly.Curve E Bytes}
    {point : P.PublicKey → E} (hP : P.Lawful) (hC : Implements P C point) (hV : Accepts P V)
    (hkeys : ∀ key : P.PrivateKey, FromScalar P key) (hbase : Fresh base) {run : Run (Action P)}
    (hrun : history base run = .ok psbt) (h : extractTransaction psbt = .ok stx) :
    Completes base.unsignedTx stx ∧ ∃ coins, SpendsCoins P V base stx coins :=
  extract_spends hbase (history_sound hP hC hV hkeys hbase hrun) h

end Extraction

def residueTx : PsbtTransaction :=
  ⟨2, [⟨List.replicate 32 9, 0, [], 0xffffffff, []⟩], [⟨90000, [0x51]⟩], 0⟩

def residuePsbt : Psbt where
  version := 0
  unsignedTx := residueTx
  inputs := [witnessInput ⟨100000, residueScript, none, none, none, none⟩]
  outputs := [⟨[]⟩]
  unknownGlobal := []

theorem residuePsbt_created :
    createPsbt residues residueTx [⟨100000, residueScript, none, none, none, none⟩] =
      .ok residuePsbt := by
  decide +kernel

/-- One copy is signed, another is not, and they are combined. -/
def residueRun : Run (Action residues) :=
  .add (.join .start (.add .start (.sign 0 residueKey))) .finalize

theorem session_spends_sample : ∃ psbt stx, history residuePsbt residueRun = .ok psbt ∧
    extractTransaction psbt = .ok stx ∧ Completes residueTx stx ∧
      ∃ coins, SpendsCoins residues acceptAll residuePsbt stx coins := by
  have hruns : (history residuePsbt residueRun >>= extractTransaction).toBool = true := by
    decide +kernel
  cases hrun : history residuePsbt residueRun with
  | error e =>
    rw [hrun] at hruns
    cases hruns
  | ok psbt =>
    rw [hrun, ok_bind] at hruns
    cases hx : extractTransaction psbt with
    | error e =>
      rw [hx] at hruns
      cases hruns
    | ok stx =>
      exact ⟨psbt, stx, rfl, hx, session_spends residues_lawful residues_implements
        acceptAll_accepts residues_scalar (created_fresh residuePsbt_created) hrun hx⟩

end Yubtc.SessionSpends
