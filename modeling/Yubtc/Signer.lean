import Yubtc.PsbtRoles

/-!
# One signing step

What `sign_psbt_input` can do to a PSBT, and the checks a signature has passed. Every branch
compares a present `NON_WITNESS_UTXO` before it signs, and nothing is written before that.
-/
namespace Yubtc.Signer

open Wire Errors ExceptRules Crypto Script Transaction PsbtData PsbtCodec PsbtRoles

variable {P : Primitives}

/-- The outcomes that write. -/
def Adds : SignOutcome → Prop
  | .partialSig _ _ | .tapScriptSig _ => True
  | .skip | .present => False

/-- What an outcome makes of the PSBT. -/
def applyOutcome (psbt : Psbt) (index : Nat) : SignOutcome → Psbt
  | .skip | .present => psbt
  | .partialSig pubkey sig =>
    Psbt.modifyInput psbt index fun input => insertPartialSig input pubkey sig
  | .tapScriptSig entry =>
    Psbt.modifyInput psbt index fun input => insertTapScriptSig input entry

/-- The step is its outcome, applied. -/
theorem signPsbtInput_ok {psbt : Psbt} {index : Nat} {privkey : P.PrivateKey} {o : SignOutcome}
    (h : signOutcome P psbt index privkey = .ok o) :
    signPsbtInput P index privkey psbt = .ok (decide (o ≠ .skip)) (applyOutcome psbt index o) := by
  have hchecked : checked (signOutcome P psbt index privkey) psbt = .ok o psbt := by
    rw [h]
    rfl
  simp only [signPsbtInput, bind, EStateM.bind, get, getThe, MonadStateOf.get, EStateM.get,
    hchecked]
  cases o <;> rfl

/-- A failing step leaves the PSBT as it was. -/
theorem signPsbtInput_error {psbt : Psbt} {index : Nat} {privkey : P.PrivateKey} {e : Exn}
    (h : signOutcome P psbt index privkey = .error e) :
    signPsbtInput P index privkey psbt = .error e psbt := by
  have hchecked : checked (signOutcome P psbt index privkey) psbt = .error e psbt := by
    rw [h]
    rfl
  simp only [signPsbtInput, bind, EStateM.bind, get, getThe, MonadStateOf.get, EStateM.get,
    hchecked]

theorem signPsbtInput_eq_error {psbt s : Psbt} {index : Nat} {privkey : P.PrivateKey} {e : Exn} :
    signPsbtInput P index privkey psbt = .error e s ↔
      signOutcome P psbt index privkey = .error e ∧ s = psbt := by
  cases h : signOutcome P psbt index privkey with
  | ok o => simp [signPsbtInput_ok h]
  | error d =>
    rw [signPsbtInput_error h]
    simp only [EStateM.Result.error.injEq, Except.error.injEq]
    exact and_congr_right fun _ => eq_comm

/-- A step that changes the PSBT has written a signature. -/
theorem adds_of_changed {psbt psbt' : Psbt} {index : Nat} {privkey : P.PrivateKey} {b : Bool}
    (h : signPsbtInput P index privkey psbt = .ok b psbt') (hne : psbt' ≠ psbt) :
    ∃ o, signOutcome P psbt index privkey = .ok o ∧ Adds o := by
  cases ho : signOutcome P psbt index privkey with
  | error e =>
    rw [signPsbtInput_error ho] at h
    cases h
  | ok o =>
    rw [signPsbtInput_ok ho] at h
    refine ⟨o, rfl, ?_⟩
    cases o with
    | skip =>
      cases h
      exact absurd rfl hne
    | present =>
      cases h
      exact absurd rfl hne
    | partialSig pubkey sig => trivial
    | tapScriptSig entry => trivial

/-- A computation that runs a check first and cannot fail with a mismatch after it. -/
def Guarded {α : Type} (check : Except Exn Unit) (x : Except Exn α) : Prop :=
  ∃ rest : Except Exn α, x = (check >>= fun _ => rest) ∧ Avoids mismatch rest

theorem Guarded.mismatch_iff {α : Type} {check : Except Exn Unit} {x : Except Exn α}
    (h : Guarded check x) : x = .error mismatch ↔ check = .error mismatch := by
  obtain ⟨rest, rfl, hrest⟩ := h
  rw [bind_eq_error]
  constructor
  · intro hx
    cases hx with
    | inl hcheck => exact hcheck
    | inr hx =>
      obtain ⟨-, -, hx⟩ := hx
      exact absurd hx hrest
  · exact .inl

theorem index_avoids {α : Type} (o : Option α) :
    Avoids mismatch (orElseThrow Exn.indexError o) := by
  apply Avoids.orElseThrow
  nofun

theorem taprootSigMsg_avoids (tx : SigTx) (index : Nat) (spend : List SpendInput)
    (spendType : UInt8) : Avoids mismatch (taprootSigMsg P tx index spend spendType) := by
  have hpack : ∀ s : SpendInput, Avoids mismatch (packQInt s.amount) := by
    intro s
    exact .bind (.reject nofun) fun _ => .ok _
  have hfields : Avoids mismatch (taprootShaFields P tx spend) :=
    .bind (.mapM hpack spend) fun _ => .ok _
  exact .bind hfields fun _ => .ok _

theorem keySignature_avoids (psbt : Psbt) (index : Nat) (scriptPubkey : Bytes) (amount : UInt64)
    (form : Form) (privkey : P.PrivateKey) :
    Avoids mismatch (keySignature P psbt index scriptPubkey amount form privkey) := by
  cases form with
  | legacy hash =>
    exact .bind (.bind (index_avoids _) fun _ => .ok _) fun _ => .ok _
  | p2wpkh hash =>
    have hsighash : Avoids mismatch (bip143Sighash P psbt.unsignedTx.sigTx index
        (p2wpkhScriptCode scriptPubkey) amount.toNat) := by
      refine .bind (.reject nofun) fun _ => .bind (index_avoids _) fun _ => ?_
      exact .bind (.bind (.reject nofun) fun _ => .ok _) fun _ => .ok _
    exact .bind hsighash fun _ => .ok _
  | p2tr key =>
    rw [keySignature]
    cases spendContext psbt with
    | none => exact .ok none
    | some spend =>
      have hsign : ∀ sighash, Avoids mismatch (taprootSignSighash P privkey sighash) := by
        intro sighash
        rw [taprootSignSighash]
        split
        · exact .error nofun
        · exact .ok _
      refine .bind (.bind (.reject nofun) fun _ => .bind (.reject nofun) fun _ => ?_)
        fun sighash => .bind (hsign sighash) fun _ => .ok _
      exact .bind (taprootSigMsg_avoids _ _ _ _) fun _ => .ok _

section Branches

variable {psbt : Psbt} {index : Nat} {input : PsbtIn} {scriptPubkey : Bytes} {amount : UInt64}
  {privkey : P.PrivateKey}

/-- What a key signature comes to; a digest context with a gap adds nothing. -/
def keyOutcome (pubkey : Bytes) : Option Bytes → Except Exn SignOutcome
  | none => .ok .skip
  | some sig => .ok (.partialSig pubkey sig)

theorem keyOutcome_avoids (pubkey : Bytes) (sig : Option Bytes) :
    Avoids mismatch (keyOutcome pubkey sig) := by
  cases sig with
  | none => exact .ok _
  | some sig => exact .ok _

/-- The same for a signature on the script path. -/
def scriptpathOutcome (P : Primitives) (psbt : Psbt) (index : Nat) (privkey : P.PrivateKey)
    (xOnly leafHash : Bytes) : Option (List SpendInput) → Except Exn SignOutcome
  | none => .ok .skip
  | some spend => do
    let sighash ← taprootScriptpathSighash P psbt.unsignedTx.sigTx index spend leafHash
    return .tapScriptSig ⟨xOnly, leafHash, taprootSignSighashUntweaked P privkey sighash⟩

theorem scriptpathOutcome_avoids (xOnly leafHash : Bytes) (spend : Option (List SpendInput)) :
    Avoids mismatch (scriptpathOutcome P psbt index privkey xOnly leafHash spend) := by
  cases spend with
  | none => exact .ok _
  | some spend =>
    refine .bind (.bind (.reject nofun) fun _ => .bind (.reject nofun) fun _ => ?_)
      fun _ => .ok _
    exact .bind (taprootSigMsg_avoids _ _ _ _) fun _ => .ok _

/-- The single-key branch, from the comparison on. -/
theorem signKey_guarded {form : Form}
    (hown : ownForm P scriptPubkey (privkey2pubkey P privkey) = .ok (some form))
    (hsighash : checkSighashType input (pinnedSighash form) = .ok ()) :
    Guarded (checkNonWitnessUtxo P psbt index input)
      (signKey P psbt index input scriptPubkey amount privkey) := by
  refine ⟨if privkey2pubkey P privkey ∈ input.partialSigs.map Prod.fst then .ok .present
    else keySignature P psbt index scriptPubkey amount form privkey >>=
      keyOutcome (privkey2pubkey P privkey), ?_, ?_⟩
  · simp only [signKey, hown, hsighash, ok_bind]
    rfl
  · split
    · exact .ok _
    · exact .bind (keySignature_avoids _ _ _ _ _ _) fun sig => keyOutcome_avoids _ sig

theorem signMultisig_guarded {script : Option Bytes} {commitment : Bytes → Bytes}
    {committed redeem : Bytes} {signature : Bytes → Except Exn Bytes} {m : Nat}
    {keys : List Bytes} (hscript : script = some redeem)
    (hquorum : quorumScript redeem = .ok (m, keys)) (hcommit : commitment redeem = committed)
    (hmember : privkey2pubkey P privkey ∈ keys)
    (hsighash : checkSighashType input psbtSighashAll = .ok ())
    (hsig : Avoids mismatch (signature redeem)) :
    Guarded (checkNonWitnessUtxo P psbt index input)
      (signMultisig P script commitment committed signature psbt index input privkey) := by
  refine ⟨if privkey2pubkey P privkey ∈ input.partialSigs.map Prod.fst then .ok .present
    else signature redeem >>= fun sig => .ok (.partialSig (privkey2pubkey P privkey) sig), ?_, ?_⟩
  · subst hscript
    simp only [signMultisig, orElseThrow_some, hquorum, ok_bind, hcommit,
      reject_false _ (not_not.mpr rfl), not_not.mpr hmember, if_false, hsighash]
    rfl
  · split
    · exact .ok _
    · exact .bind hsig fun _ => .ok _

theorem p2shSignature_avoids (redeem : Bytes) :
    Avoids mismatch (p2shSignature P psbt index privkey redeem) :=
  .bind (.bind (index_avoids _) fun _ => .ok _) fun _ => .ok _

theorem p2wshSignature_avoids (redeem : Bytes) :
    Avoids mismatch (p2wshSignature P psbt index amount privkey redeem) := by
  refine .bind (.bind (.reject nofun) fun _ => .bind (index_avoids _) fun _ => ?_)
    fun _ => .ok _
  exact .bind (.bind (.reject nofun) fun _ => .ok _) fun _ => .ok _

theorem signP2trScriptpath_guarded {leaf : TapLeafScript} {revealed : RevealedLeaf}
    (hleaf : revealedLeaf P input leaf scriptPubkey = .ok revealed)
    (hmember : slice (privkey2pubkey P privkey) 1 33 ∈ revealed.keys)
    (hsighash : checkSighashType input psbtSighashDefault = .ok ()) :
    Guarded (checkNonWitnessUtxo P psbt index input)
      (signP2trScriptpath P psbt index input leaf scriptPubkey privkey) := by
  refine ⟨if ∃ s ∈ input.tapScriptSigs, s.xOnly = slice (privkey2pubkey P privkey) 1 33 ∧
      s.leafHash = revealed.leafHash then .ok .present
    else scriptpathOutcome P psbt index privkey (slice (privkey2pubkey P privkey) 1 33)
      revealed.leafHash (spendContext psbt), ?_, ?_⟩
  · simp only [signP2trScriptpath, hleaf, ok_bind, not_not.mpr hmember, if_false, hsighash]
    rfl
  · split
    · exact .ok _
    · exact scriptpathOutcome_avoids _ _ _

theorem signKey_adds {o : SignOutcome}
    (h : signKey P psbt index input scriptPubkey amount privkey = .ok o) (ho : Adds o) :
    checkNonWitnessUtxo P psbt index input = .ok () := by
  obtain ⟨own, -, h⟩ := bind_eq_ok.mp h
  cases own with
  | none =>
    cases h
    exact ho.elim
  | some form =>
    obtain ⟨-, -, h⟩ := bind_eq_ok.mp h
    obtain ⟨_, hcheck, -⟩ := bind_eq_ok.mp h
    exact hcheck

theorem signMultisig_adds {script : Option Bytes} {commitment : Bytes → Bytes}
    {committed : Bytes} {signature : Bytes → Except Exn Bytes} {o : SignOutcome}
    (h : signMultisig P script commitment committed signature psbt index input privkey = .ok o)
    (ho : Adds o) : checkNonWitnessUtxo P psbt index input = .ok () := by
  obtain ⟨redeem, -, h⟩ := bind_eq_ok.mp h
  obtain ⟨quorum, -, h⟩ := bind_eq_ok.mp h
  obtain ⟨-, h⟩ := reject_bind_eq_ok.mp h
  cases ite_eq_ok.mp h with
  | inl h =>
    cases h.2
    exact ho.elim
  | inr h =>
    obtain ⟨-, -, h⟩ := bind_eq_ok.mp h.2
    obtain ⟨_, hcheck, -⟩ := bind_eq_ok.mp h
    exact hcheck

theorem signP2trScriptpath_adds {leaf : TapLeafScript} {o : SignOutcome}
    (h : signP2trScriptpath P psbt index input leaf scriptPubkey privkey = .ok o)
    (ho : Adds o) : checkNonWitnessUtxo P psbt index input = .ok () := by
  obtain ⟨revealed, -, h⟩ := bind_eq_ok.mp h
  cases ite_eq_ok.mp h with
  | inl h =>
    cases h.2
    exact ho.elim
  | inr h =>
    obtain ⟨-, -, h⟩ := bind_eq_ok.mp h.2
    obtain ⟨_, hcheck, -⟩ := bind_eq_ok.mp h
    exact hcheck

/-- A signature stands on a known output, and the comparison has passed. -/
theorem signOutcome_adds {o : SignOutcome} (h : signOutcome P psbt index privkey = .ok o)
    (ho : Adds o) :
    ∃ input scriptPubkey amount, psbt.inputs[index]? = some input ∧
      inputUtxoData psbt index = some (scriptPubkey, amount) ∧
      checkNonWitnessUtxo P psbt index input = .ok () := by
  unfold signOutcome at h
  split at h
  · next input scriptPubkey amount hin hutxo =>
    refine ⟨input, scriptPubkey, amount, hin, hutxo, ?_⟩
    split at h
    · exact signMultisig_adds h ho
    · split at h
      · exact signMultisig_adds h ho
      · split at h
        · exact signP2trScriptpath_adds h ho
        · exact signKey_adds h ho
  · cases h
    exact ho.elim

end Branches

end Yubtc.Signer
