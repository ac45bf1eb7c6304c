import Yubtc.Signer

/-!
# What the UTXO checks establish

Creator and Signer compare a previous transaction with an outpoint, and the Signer picks the
script and amount it signs for. The comparison is against the reversed hash, while the
outpoint is serialized as it is; the choice prefers `WITNESS_UTXO`, also where the digest
commits to no amount.
-/
namespace Yubtc.UtxoChecks

open Wire Errors ExceptRules Crypto Script Transaction PsbtData PsbtCodec PsbtRoles Signer

variable {P : Primitives}

/-- Where the stripped serialization writes the outpoint of input `i`. -/
def outpointOffset (tx : PsbtTransaction) (i : Nat) : Nat :=
  4 + compactSizeLen tx.vin.length + ((tx.vin.take i).flatMap PsbtTxIn.serialize).length

/-- The 32 txid bytes of the outpoint of input `i`. -/
def outpointTxid (tx : PsbtTransaction) (i : Nat) : Bytes :=
  slice tx.serializeStripped (outpointOffset tx i) (outpointOffset tx i + 32)

theorem slice_middle (front mid back : Bytes) :
    slice (front ++ mid ++ back) front.length (front.length + mid.length) = mid := by
  rw [slice, List.append_assoc, List.drop_left, Nat.add_sub_cancel_left, List.take_left]

/-- The serialized txid is the field, in the order the field has. -/
theorem outpointTxid_eq {tx : PsbtTransaction} {i : Nat} {vin : PsbtTxIn}
    (h : tx.vin[i]? = some vin) (hlen : vin.txhash.length = 32) :
    outpointTxid tx i = vin.txhash := by
  obtain ⟨hi, hget⟩ := List.getElem?_eq_some_iff.mp h
  have hsplit : tx.vin.flatMap PsbtTxIn.serialize =
      (tx.vin.take i).flatMap PsbtTxIn.serialize ++
        (vin.serialize ++ (tx.vin.drop (i + 1)).flatMap PsbtTxIn.serialize) := by
    conv_lhs => rw [← List.take_append_drop i tx.vin, List.drop_eq_getElem_cons hi, hget]
    rw [List.flatMap_append, List.flatMap_cons]
  have hbytes : tx.serializeStripped =
      (packl tx.version ++ compactSize tx.vin.length ++
        (tx.vin.take i).flatMap PsbtTxIn.serialize) ++ vin.txhash ++
        (packL vin.n ++ compactSize vin.script.length ++ vin.script ++ packL vin.sequence ++
          (tx.vin.drop (i + 1)).flatMap PsbtTxIn.serialize ++ compactSize tx.vout.length ++
          tx.vout.flatMap PsbtTxOut.serialize ++ packL tx.locktime) := by
    rw [PsbtTransaction.serializeStripped, hsplit]
    simp only [PsbtTxIn.serialize, List.append_assoc]
  have hoffset : outpointOffset tx i = (packl tx.version ++ compactSize tx.vin.length ++
      (tx.vin.take i).flatMap PsbtTxIn.serialize).length := by
    simp [outpointOffset, Nat.add_assoc]
  rw [outpointTxid, hbytes, hoffset, ← hlen]
  exact slice_middle _ _ _

/-- The Creator reaches the comparison for input `i`: it is legacy or a P2SH quorum with a
fitting redeem script, and nothing else about the request is refused. -/
structure CreatorReaches (P : Primitives) (tx : PsbtTransaction) (inputs : List CreateInput)
    (i : Nat) (prev : PsbtTransaction) : Prop where
  outputs : tx.vout ≠ []
  counts : tx.vin.length = inputs.length
  unsigned : ¬ ∃ vin ∈ tx.vin, vin.script ≠ [] ∨ vin.witness ≠ []
  others : ∀ j vin create, j ≠ i → tx.vin[j]? = some vin → inputs[j]? = some create →
    ∃ r, createInput P j vin create = .ok r
  reached : ∃ create, inputs[i]? = some create ∧ create.prevTx = some prev ∧
    ((∃ hash, formOfScript create.scriptPubkey = some (.legacy hash)) ∨
      ∃ redeem quorum, formOfScript create.scriptPubkey = none ∧
        isP2shScript create.scriptPubkey = true ∧ create.redeemScript = some redeem ∧
        quorumScript redeem = .ok quorum ∧ hash160 P redeem = slice create.scriptPubkey 2 22)

theorem checkedPrevTx_eq (i : Nat) (vin : PsbtTxIn) {create : CreateInput}
    {prev : PsbtTransaction} (h : create.prevTx = some prev) :
    checkedPrevTx P i vin create =
      if prev.id P ≠ vin.txhash then .error mismatch else .ok prev := by
  simp only [checkedPrevTx, h, orElseThrow_some, ok_bind]
  by_cases hid : prev.id P = vin.txhash <;> simp [hid]

/-- For one input the Creator accepts exactly the transaction with the outpoint's id. -/
theorem createInput_reached (i : Nat) (vin : PsbtTxIn) {create : CreateInput}
    {prev : PsbtTransaction} (hprev : create.prevTx = some prev)
    (h : (∃ hash, formOfScript create.scriptPubkey = some (.legacy hash)) ∨
      ∃ redeem quorum, formOfScript create.scriptPubkey = none ∧
        isP2shScript create.scriptPubkey = true ∧ create.redeemScript = some redeem ∧
        quorumScript redeem = .ok quorum ∧ hash160 P redeem = slice create.scriptPubkey 2 22) :
    ((∃ r, createInput P i vin create = .ok r) ↔ prev.id P = vin.txhash) ∧
      (prev.id P ≠ vin.txhash → createInput P i vin create = .error mismatch) := by
  have hchecked : checkedPrevTx P i vin create = _ := checkedPrevTx_eq i vin hprev
  cases h with
  | inl h =>
    obtain ⟨hash, hform⟩ := h
    simp only [createInput, hform, hchecked]
    by_cases hid : prev.id P = vin.txhash <;> simp [hid]
  | inr h =>
    obtain ⟨redeem, quorum, hform, hsh, hredeem, hquorum, hcommit⟩ := h
    simp only [createInput, hform, hsh, hredeem, createP2sh, hquorum, ok_bind, hcommit,
      reject_false _ (not_not.mpr rfl), hchecked]
    by_cases hid : prev.id P = vin.txhash <;> simp [hid]

theorem createPsbt_reached {tx : PsbtTransaction} {inputs : List CreateInput} {i : Nat}
    {vin : PsbtTxIn} {prev : PsbtTransaction} (hvin : tx.vin[i]? = some vin)
    (h : CreatorReaches P tx inputs i prev) :
    ((∃ psbt, createPsbt P tx inputs = .ok psbt) ↔ prev.id P = vin.txhash) ∧
      (prev.id P ≠ vin.txhash → createPsbt P tx inputs = .error mismatch) := by
  obtain ⟨create, hcreate, hprev, hform⟩ := h.reached
  have hone := createInput_reached i vin hprev hform
  have hget : ∀ (j : Nat) v c, tx.vin[j]? = some v → inputs[j]? = some c →
      (tx.vin.zip inputs).zipIdx[j]? = some ((v, c), j) := by
    intro j v c hv hc
    rw [List.getElem?_zipIdx, (List.getElem?_zip_eq_some (z := (v, c))).mpr ⟨hv, hc⟩]
    simp
  have hall := mapM_of_others
    (f := fun x => createInput P x.2 x.1.1 x.1.2)
    (hget i vin create hvin hcreate) fun j b hj hb => by
      rw [List.getElem?_zipIdx] at hb
      obtain ⟨⟨v, c⟩, hvc, rfl⟩ := Option.map_eq_some_iff.mp hb
      obtain ⟨hv, hc⟩ := List.getElem?_zip_eq_some.mp hvc
      simpa using h.others j v c hj hv hc
  obtain ⟨hiff, herr⟩ := hall
  rw [createPsbt, reject_false _ h.outputs, ok_bind, reject_false _ (not_not.mpr h.counts),
    ok_bind, reject_false _ h.unsigned, ok_bind]
  constructor
  · rw [← hone.1, ← hiff]
    constructor
    · rintro ⟨psbt, hpsbt⟩
      obtain ⟨rs, hrs, -⟩ := bind_eq_ok.mp hpsbt
      exact ⟨rs, hrs⟩
    · rintro ⟨rs, hrs⟩
      exact ⟨_, by rw [hrs]; rfl⟩
  · intro hid
    rw [herr mismatch (hone.2 hid)]
    rfl

/-- The checks before the comparison have passed, in one of the four branches. -/
inductive SignerReaches (P : Primitives) (psbt : Psbt) (index : Nat) (privkey : P.PrivateKey)
    (input : PsbtIn) (scriptPubkey : Bytes) : Prop where
  | p2wsh (redeem : Bytes) (m : Nat) (keys : List Bytes)
      (form : isP2wshScript scriptPubkey = true) (script : input.witnessScript = some redeem)
      (quorum : quorumScript redeem = .ok (m, keys))
      (commitment : P.sha256 redeem = slice scriptPubkey 2 34)
      (member : privkey2pubkey P privkey ∈ keys)
      (sighash : checkSighashType input psbtSighashAll = .ok ())
  | p2sh (redeem : Bytes) (m : Nat) (keys : List Bytes)
      (notWsh : isP2wshScript scriptPubkey = false) (form : isP2shScript scriptPubkey = true)
      (script : input.redeemScript = some redeem)
      (quorum : quorumScript redeem = .ok (m, keys))
      (commitment : hash160 P redeem = slice scriptPubkey 2 22)
      (member : privkey2pubkey P privkey ∈ keys)
      (sighash : checkSighashType input psbtSighashAll = .ok ())
  | p2trScriptpath (leaf : TapLeafScript) (rest : List TapLeafScript) (revealed : RevealedLeaf)
      (notWsh : isP2wshScript scriptPubkey = false) (notSh : isP2shScript scriptPubkey = false)
      (form : isP2trScript scriptPubkey = true) (leaves : input.tapLeafScripts = leaf :: rest)
      (commitment : revealedLeaf P input leaf scriptPubkey = .ok revealed)
      (member : slice (privkey2pubkey P privkey) 1 33 ∈ revealed.keys)
      (sighash : checkSighashType input psbtSighashDefault = .ok ())
  | key (form : Form) (notWsh : isP2wshScript scriptPubkey = false)
      (notSh : isP2shScript scriptPubkey = false)
      (noLeaf : isP2trScript scriptPubkey = false ∨ input.tapLeafScripts = [])
      (own : ownForm P scriptPubkey (privkey2pubkey P privkey) = .ok (some form))
      (sighash : checkSighashType input (pinnedSighash form) = .ok ())

theorem signOutcome_guarded {psbt : Psbt} {index : Nat} {privkey : P.PrivateKey}
    {input : PsbtIn} {scriptPubkey : Bytes} {amount : UInt64}
    (hin : psbt.inputs[index]? = some input)
    (hutxo : inputUtxoData psbt index = some (scriptPubkey, amount))
    (h : SignerReaches P psbt index privkey input scriptPubkey) :
    Guarded (checkNonWitnessUtxo P psbt index input) (signOutcome P psbt index privkey) := by
  simp only [signOutcome, hin, hutxo]
  cases h with
  | p2wsh redeem m keys form script quorum commitment member sighash =>
    rw [if_pos form]
    exact signMultisig_guarded script quorum commitment member sighash
      (p2wshSignature_avoids redeem)
  | p2sh redeem m keys notWsh form script quorum commitment member sighash =>
    rw [if_neg (Bool.eq_false_iff.mp notWsh), if_pos form]
    exact signMultisig_guarded script quorum commitment member sighash
      (p2shSignature_avoids redeem)
  | p2trScriptpath leaf rest revealed notWsh notSh form leaves commitment member sighash =>
    rw [if_neg (Bool.eq_false_iff.mp notWsh), if_neg (Bool.eq_false_iff.mp notSh), form, leaves]
    exact signP2trScriptpath_guarded commitment member sighash
  | key form notWsh notSh noLeaf own sighash =>
    rw [if_neg (Bool.eq_false_iff.mp notWsh), if_neg (Bool.eq_false_iff.mp notSh)]
    have hkey : Guarded (checkNonWitnessUtxo P psbt index input)
        (signKey P psbt index input scriptPubkey amount privkey) := signKey_guarded own sighash
    cases noLeaf with
    | inl hform =>
      rw [hform]
      exact hkey
    | inr hleaves =>
      rw [hleaves]
      cases isP2trScript scriptPubkey <;> exact hkey

theorem checkNonWitnessUtxo_mismatch {psbt : Psbt} {index : Nat} {input : PsbtIn}
    {vin : PsbtTxIn} {prev : PsbtTransaction} (hvin : psbt.unsignedTx.vin[index]? = some vin)
    (hprev : input.nonWitnessUtxo = some prev) :
    checkNonWitnessUtxo P psbt index input = .error mismatch ↔ prev.id P ≠ vin.txhash := by
  simp only [checkNonWitnessUtxo, hprev, hvin, orElseThrow_some, ok_bind, reject_eq_error,
    and_true]

/-- A check that accepts exactly the hash `h` and is a mismatch otherwise, against the
serialized txid `t`. -/
def ChecksOutpoint (accepted rejected : Prop) (h t : Bytes) : Prop :=
  (accepted ↔ h = t) ∧ (h ≠ t → rejected)

/-- A check against the reversed hash is the check against the hash when the two cannot be
told apart by the txid. -/
theorem checksOutpoint_iff {accepted rejected : Prop} {h t : Bytes}
    (hacc : accepted ↔ h.reverse = t) (hrej : h.reverse ≠ t → rejected) :
    ChecksOutpoint accepted rejected h t ↔ h.reverse = h ∨ (t ≠ h ∧ t ≠ h.reverse) := by
  rw [ChecksOutpoint, hacc]
  constructor
  · rintro ⟨hiff, -⟩
    by_cases he : h = t
    · exact .inl ((hiff.mpr he).trans he.symm)
    · exact .inr ⟨fun ht => he ht.symm, fun ht => he (hiff.mp ht.symm)⟩
  · intro hcond
    cases hcond with
    | inl hpal => exact ⟨by rw [hpal], fun hne => hrej (by rwa [hpal])⟩
    | inr hne =>
      have hrev : h.reverse ≠ t := fun he => hne.2 he.symm
      exact ⟨iff_of_false hrev fun he => hne.1 he.symm, fun _ => hrej hrev⟩

/-- Creator and Signer perform the outpoint check exactly when the hash reads the same in both
directions or the outpoint holds it in neither. -/
theorem utxo_checks_iff {tx prev : PsbtTransaction} {i : Nat} {vin : PsbtTxIn}
    (hvin : tx.vin[i]? = some vin) (hlen : vin.txhash.length = 32) :
    (∀ inputs, CreatorReaches P tx inputs i prev →
      (ChecksOutpoint (∃ psbt, createPsbt P tx inputs = .ok psbt)
          (createPsbt P tx inputs = .error mismatch)
          (dsha256 P prev.serializeStripped) (outpointTxid tx i) ↔
        (dsha256 P prev.serializeStripped).reverse = dsha256 P prev.serializeStripped ∨
          (outpointTxid tx i ≠ dsha256 P prev.serializeStripped ∧
            outpointTxid tx i ≠ (dsha256 P prev.serializeStripped).reverse))) ∧
    ∀ psbt privkey input scriptPubkey amount, psbt.unsignedTx = tx →
      psbt.inputs[i]? = some input → input.nonWitnessUtxo = some prev →
      inputUtxoData psbt i = some (scriptPubkey, amount) →
      SignerReaches P psbt i privkey input scriptPubkey →
      (ChecksOutpoint (∀ s, signPsbtInput P i privkey psbt ≠ .error mismatch s)
          (signPsbtInput P i privkey psbt = .error mismatch psbt)
          (dsha256 P prev.serializeStripped) (outpointTxid tx i) ↔
        (dsha256 P prev.serializeStripped).reverse = dsha256 P prev.serializeStripped ∨
          (outpointTxid tx i ≠ dsha256 P prev.serializeStripped ∧
            outpointTxid tx i ≠ (dsha256 P prev.serializeStripped).reverse)) := by
  rw [outpointTxid_eq hvin hlen]
  constructor
  · intro inputs hreach
    obtain ⟨hacc, hrej⟩ := createPsbt_reached hvin hreach
    exact checksOutpoint_iff hacc hrej
  · intro psbt privkey input scriptPubkey amount htx hin hprev hutxo hreach
    subst htx
    have hcheck := checkNonWitnessUtxo_mismatch (P := P) hvin hprev
    have hout : signOutcome P psbt i privkey = .error mismatch ↔ prev.id P ≠ vin.txhash :=
      (signOutcome_guarded hin hutxo hreach).mismatch_iff.trans hcheck
    apply checksOutpoint_iff
    · simp only [ne_eq, signPsbtInput_eq_error, hout, not_and]
      constructor
      · intro h
        exact not_not.mp fun hne => h psbt hne rfl
      · intro h s hne
        exact absurd h hne
    · intro hne
      exact signPsbtInput_error (hout.mpr hne)

/-- A transaction that pays to the stand-in key 7. -/
def fundingTx : PsbtTransaction :=
  ⟨2, [⟨List.replicate 32 0x11, 0, [], 0xffffffff, []⟩],
    [⟨1000, p2pkhShape.build (hash160 standIn (privkey2pubkey standIn (7 : Nat)))⟩], 0⟩

/-- The double hash of the funding transaction, in wire order. -/
def fundingHash : Bytes := dsha256 standIn fundingTx.serializeStripped

/-- A spend of its first output, with the hash where consensus has it. -/
def spendingTx : PsbtTransaction :=
  ⟨2, [⟨fundingHash, 0, [], 0xfffffffd, []⟩], [⟨900, [0x51]⟩], 0⟩

def fundingInput : CreateInput :=
  { amount := 1000
    scriptPubkey := p2pkhShape.build (hash160 standIn (privkey2pubkey standIn (7 : Nat)))
    prevTx := some fundingTx }

def spendingPsbt : Psbt :=
  ⟨0, spendingTx, [{ emptyInput with nonWitnessUtxo := some fundingTx }], [⟨[]⟩], []⟩

theorem creatorReaches_funding : CreatorReaches standIn spendingTx [fundingInput] 0 fundingTx where
  outputs := by decide
  counts := rfl
  unsigned := by decide +kernel
  others := by
    intro j vin create hj _ hcreate
    cases j with
    | zero => exact absurd rfl hj
    | succ j => simp at hcreate
  reached := by
    refine ⟨fundingInput, rfl, rfl, .inl ⟨hash160 standIn (privkey2pubkey standIn (7 : Nat)), ?_⟩⟩
    decide +kernel

theorem signerReaches_funding :
    SignerReaches standIn spendingPsbt 0 (7 : Nat)
      { emptyInput with nonWitnessUtxo := some fundingTx } fundingInput.scriptPubkey := by
  refine .key (.legacy (hash160 standIn (privkey2pubkey standIn (7 : Nat)))) ?_ ?_ (.inl ?_) ?_ rfl
  · decide +kernel
  · decide +kernel
  · decide +kernel
  · decide +kernel

/-- The spend names the funding transaction by its hash, and both roles refuse it. -/
theorem utxo_checks_refuse_outpoint :
    outpointTxid spendingTx 0 = fundingHash ∧
      CreatorReaches standIn spendingTx [fundingInput] 0 fundingTx ∧
      createPsbt standIn spendingTx [fundingInput] = .error mismatch ∧
      ¬ ChecksOutpoint (∃ psbt, createPsbt standIn spendingTx [fundingInput] = .ok psbt)
        (createPsbt standIn spendingTx [fundingInput] = .error mismatch)
        fundingHash (outpointTxid spendingTx 0) ∧
      signPsbtInput standIn 0 (7 : Nat) spendingPsbt = .error mismatch spendingPsbt := by
  have htxid : outpointTxid spendingTx 0 = fundingHash := by decide +kernel
  have hcreate : createPsbt standIn spendingTx [fundingInput] = .error mismatch := by
    decide +kernel
  have hsign : signOutcome standIn spendingPsbt 0 (7 : Nat) = .error mismatch := by
    decide +kernel
  refine ⟨htxid, creatorReaches_funding, hcreate, ?_, signPsbtInput_error hsign⟩
  rintro ⟨hiff, -⟩
  obtain ⟨psbt, hpsbt⟩ := hiff.mpr htxid.symm
  rw [hcreate] at hpsbt
  cases hpsbt

theorem utxo_checks_iff_funding :
    (ChecksOutpoint (∃ psbt, createPsbt standIn spendingTx [fundingInput] = .ok psbt)
        (createPsbt standIn spendingTx [fundingInput] = .error mismatch)
        (dsha256 standIn fundingTx.serializeStripped) (outpointTxid spendingTx 0) ↔
      (dsha256 standIn fundingTx.serializeStripped).reverse =
          dsha256 standIn fundingTx.serializeStripped ∨
        (outpointTxid spendingTx 0 ≠ dsha256 standIn fundingTx.serializeStripped ∧
          outpointTxid spendingTx 0 ≠ (dsha256 standIn fundingTx.serializeStripped).reverse)) ∧
    (ChecksOutpoint (∀ s, signPsbtInput standIn 0 (7 : Nat) spendingPsbt ≠ .error mismatch s)
        (signPsbtInput standIn 0 (7 : Nat) spendingPsbt = .error mismatch spendingPsbt)
        (dsha256 standIn fundingTx.serializeStripped) (outpointTxid spendingTx 0) ↔
      (dsha256 standIn fundingTx.serializeStripped).reverse =
          dsha256 standIn fundingTx.serializeStripped ∨
        (outpointTxid spendingTx 0 ≠ dsha256 standIn fundingTx.serializeStripped ∧
          outpointTxid spendingTx 0 ≠ (dsha256 standIn fundingTx.serializeStripped).reverse)) := by
  have hvin : spendingTx.vin[0]? = some ⟨fundingHash, 0, [], 0xfffffffd, []⟩ := rfl
  have hlen : fundingHash.length = 32 := by decide +kernel
  have hutxo : inputUtxoData spendingPsbt 0 = some (fundingInput.scriptPubkey, 1000) := by
    decide +kernel
  have h := fun prev => @utxo_checks_iff standIn spendingTx prev 0 _ hvin hlen
  exact ⟨(h fundingTx).1 [fundingInput] creatorReaches_funding,
    (h fundingTx).2 spendingPsbt (7 : Nat) _ _ _ rfl rfl rfl hutxo signerReaches_funding⟩

/-- Scripts whose signature is over the legacy digest. -/
def LegacyScript (scriptPubkey : Bytes) : Prop :=
  p2pkhShape.Fits scriptPubkey ∨ p2shShape.Fits scriptPubkey

instance (scriptPubkey : Bytes) : Decidable (LegacyScript scriptPubkey) :=
  inferInstanceAs (Decidable (_ ∨ _))

/-- Script and amount come from the previous transaction where there is one, and a legacy
digest is signed only for an output of a previous transaction that passed the comparison. -/
structure SightedSignature (P : Primitives) (psbt : Psbt) (index : Nat) (input : PsbtIn)
    (vin : PsbtTxIn) (scriptPubkey : Bytes) (amount : UInt64) : Prop where
  output : ∀ prev ∈ input.nonWitnessUtxo, prev.vout[vin.n.toNat]? = some ⟨amount, scriptPubkey⟩
  legacy : LegacyScript scriptPubkey → ∃ prev ∈ input.nonWitnessUtxo,
    prev.id P = vin.txhash ∧ vin.n.toNat < prev.vout.length

/-- The choice between the two UTXO records. -/
theorem inputUtxoData_eq {psbt : Psbt} {index : Nat} {input : PsbtIn} {vin : PsbtTxIn}
    (hin : psbt.inputs[index]? = some input) (hvin : psbt.unsignedTx.vin[index]? = some vin) :
    inputUtxoData psbt index = (input.witnessUtxo <|>
      input.nonWitnessUtxo.bind fun prev => prev.vout[vin.n.toNat]?).map
        fun out => (out.script, out.amount) := by
  simp only [inputUtxoData, hin, hvin]
  cases input.witnessUtxo with
  | some out => rfl
  | none =>
    cases input.nonWitnessUtxo with
    | none => rfl
    | some prev => rfl

/-- A signature is never blind exactly where `WITNESS_UTXO` is absent, or is the selected
output of a present previous transaction, or stands alone for a witness script. -/
theorem sighted_signature_iff {psbt psbt' : Psbt} {index : Nat} {privkey : P.PrivateKey}
    {added : Bool} {input : PsbtIn} {vin : PsbtTxIn} {scriptPubkey : Bytes} {amount : UInt64}
    (hsign : signPsbtInput P index privkey psbt = .ok added psbt') (hadds : psbt' ≠ psbt)
    (hin : psbt.inputs[index]? = some input) (hvin : psbt.unsignedTx.vin[index]? = some vin)
    (hutxo : inputUtxoData psbt index = some (scriptPubkey, amount)) :
    SightedSignature P psbt index input vin scriptPubkey amount ↔
      input.witnessUtxo = none ∨
      (∃ prev ∈ input.nonWitnessUtxo, prev.vout[vin.n.toNat]? = input.witnessUtxo) ∨
      (input.nonWitnessUtxo = none ∧ ∀ out ∈ input.witnessUtxo, ¬ LegacyScript out.script) := by
  obtain ⟨o, ho, hwrites⟩ := adds_of_changed hsign hadds
  obtain ⟨input', scriptPubkey', amount', hin', hutxo', hcheck⟩ := signOutcome_adds ho hwrites
  obtain rfl : input = input' := Option.some.inj (hin.symm.trans hin')
  have hid : ∀ prev ∈ input.nonWitnessUtxo, prev.id P = vin.txhash := by
    intro prev hprev
    have hne := (checkNonWitnessUtxo_mismatch (P := P) hvin hprev).not.mp
    rw [hcheck] at hne
    exact not_not.mp (hne nofun)
  rw [inputUtxoData_eq hin hvin] at hutxo
  cases hw : input.witnessUtxo with
  | none =>
    -- The previous transaction supplied the output, and it passed the comparison.
    cases hn : input.nonWitnessUtxo with
    | none => simp [hw, hn] at hutxo
    | some prev =>
      have hout : prev.vout[vin.n.toNat]? = some ⟨amount, scriptPubkey⟩ := by
        obtain ⟨out, hout, rfl, rfl⟩ : ∃ out, prev.vout[vin.n.toNat]? = some out ∧
            out.script = scriptPubkey ∧ out.amount = amount := by simpa [hw, hn] using hutxo
        exact hout
      have hsome : ∀ prev' ∈ some prev, prev' = prev := fun prev' h => (Option.some.inj h).symm
      refine iff_of_true ⟨?_, ?_⟩ (.inl rfl)
      · intro prev' hprev
        rw [hn] at hprev
        rw [hsome prev' hprev, hout]
      · intro _
        exact ⟨prev, hn, hid prev hn, (List.getElem?_eq_some_iff.mp hout).1⟩
  | some out =>
    obtain ⟨rfl, rfl⟩ : out.script = scriptPubkey ∧ out.amount = amount := by
      simpa [hw] using hutxo
    cases hn : input.nonWitnessUtxo with
    | none =>
      constructor
      · intro h
        refine .inr (.inr ⟨rfl, ?_⟩)
        intro out' hout' hlegacy
        cases hout'
        obtain ⟨prev, hprev, -⟩ := h.legacy hlegacy
        simp [hn] at hprev
      · intro h
        have hnot : ¬ LegacyScript out.script := by
          simpa using h
        exact ⟨fun prev hprev => by simp [hn] at hprev, fun hlegacy => absurd hlegacy hnot⟩
    | some prev =>
      constructor
      · intro h
        exact .inr (.inl ⟨prev, rfl, h.output prev hn⟩)
      · intro h
        have hout : prev.vout[vin.n.toNat]? = some out := by
          simpa using h
        refine ⟨?_, ?_⟩
        · intro prev' hprev
          rw [hn] at hprev
          cases hprev
          exact hout
        · intro _
          exact ⟨prev, hn, hid prev hn, (List.getElem?_eq_some_iff.mp hout).1⟩

/-- An input of a counterparty who states the output of a legacy script in `WITNESS_UTXO`
alone, with an amount of their choosing. -/
def blindInput : PsbtIn :=
  { emptyInput with witnessUtxo := some ⟨1, fundingInput.scriptPubkey⟩ }

def blindPsbt : Psbt :=
  ⟨0, spendingTx, [blindInput], [⟨[]⟩], []⟩

/-- The signature of the legacy preimage, which mentions no amount. -/
def blindSignature : Bytes :=
  signData standIn (7 : Nat)
    (PsbtTransaction.serializeStripped
        { spendingTx with vin := [⟨fundingHash, 0, fundingInput.scriptPubkey, 0xfffffffd, []⟩] } ++
      packL psbtSighashAll) ++ [sighashAll]

/-- The PSBT after the step. -/
def blindSigned : Psbt :=
  ⟨0, spendingTx, [{ blindInput with
    partialSigs := [(privkey2pubkey standIn (7 : Nat), blindSignature)] }], [⟨[]⟩], []⟩

theorem sign_blindPsbt : signPsbtInput standIn 0 (7 : Nat) blindPsbt = .ok true blindSigned := by
  have ho : signOutcome standIn blindPsbt 0 (7 : Nat) =
      .ok (.partialSig (privkey2pubkey standIn (7 : Nat)) blindSignature) := by decide +kernel
  exact signPsbtInput_ok ho

theorem blindSigned_ne : blindSigned ≠ blindPsbt := by decide +kernel

theorem inputUtxoData_blindPsbt :
    inputUtxoData blindPsbt 0 = some (fundingInput.scriptPubkey, 1) := rfl

/-- The PSBT parses, and its legacy input is signed without any previous transaction. -/
theorem blind_legacy_signature :
    parsePsbt (serializePsbt blindPsbt) = .ok blindPsbt ∧
      signPsbtInput standIn 0 (7 : Nat) blindPsbt = .ok true blindSigned ∧
      blindSigned ≠ blindPsbt ∧
      inputUtxoData blindPsbt 0 = some (fundingInput.scriptPubkey, 1) ∧
      ¬ SightedSignature standIn blindPsbt 0 blindInput
        ⟨fundingHash, 0, [], 0xfffffffd, []⟩ fundingInput.scriptPubkey 1 := by
  refine ⟨by decide +kernel, sign_blindPsbt, blindSigned_ne, inputUtxoData_blindPsbt, ?_⟩
  intro h
  have hlegacy : LegacyScript fundingInput.scriptPubkey := by decide +kernel
  obtain ⟨prev, hprev, -⟩ := h.legacy hlegacy
  cases hprev

theorem sighted_signature_iff_blind :
    SightedSignature standIn blindPsbt 0 blindInput ⟨fundingHash, 0, [], 0xfffffffd, []⟩
        fundingInput.scriptPubkey 1 ↔
      blindInput.witnessUtxo = none ∨
      (∃ prev ∈ blindInput.nonWitnessUtxo,
        prev.vout[(0 : UInt32).toNat]? = blindInput.witnessUtxo) ∨
      (blindInput.nonWitnessUtxo = none ∧
        ∀ out ∈ blindInput.witnessUtxo, ¬ LegacyScript out.script) :=
  sighted_signature_iff sign_blindPsbt blindSigned_ne rfl rfl inputUtxoData_blindPsbt

end Yubtc.UtxoChecks
