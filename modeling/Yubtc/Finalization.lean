import Yubtc.Finalizer
import Yubtc.QuorumPsbt

/-!
# Finalizing a PSBT as a whole

The loop passes over the PSBT errors of an input. An input whose finalizer stops with another
error takes the whole call down; without one, every input is finalized or left as it was.
-/
namespace Yubtc.Finalization

open Wire Errors ExceptRules Crypto Script Transaction PsbtData PsbtCodec PsbtRoles Finalizer
  Quorum QuorumPsbt

variable {P : Primitives}

/-- The failures the loop expects. -/
def IsPsbt (e : Exn) : Prop := ∃ d, e = .psbt d

theorem passedOver_iff {α : Type} {x : Except Exn α} : PassedOver x ↔ ¬ FailsOutside IsPsbt x := by
  constructor
  · rintro h ⟨e, he, hno⟩
    exact hno (h e he)
  · intro h e he
    by_contra hno
    exact h ⟨e, he, hno⟩

theorem isPsbt_incomplete (i : Nat) : IsPsbt (incomplete i) := ⟨_, rfl⟩
theorem isPsbt_unsupported : IsPsbt unsupported := ⟨_, rfl⟩
theorem isPsbt_mismatch : IsPsbt mismatch := ⟨_, rfl⟩

theorem not_isPsbt_valueError (message : String) : ¬ IsPsbt (.valueError message) := by
  rintro ⟨d, hd⟩
  cases hd

theorem not_isPsbt_tapTweak (message : String) : ¬ IsPsbt (.tapTweak message) := by
  rintro ⟨d, hd⟩
  cases hd

variable (P) in
/-- The signature a key-hash script picks is too long for an inline push. -/
def LongKeySig (input : PsbtIn) (scriptPubkey : Bytes) : Prop :=
  ∃ committed, formOfScript scriptPubkey = some (.legacy committed) ∧
    ¬ blockedSighash input psbtSighashAll ∧
    ∃ pubkey sig, partialSigByHash P input committed = some (pubkey, sig) ∧
      sig.getLast? = some sighashAll ∧ 0x4c ≤ sig.length

variable (P) in
/-- One of the signatures a complete script-hash quorum uses is too long for any push. -/
def LongQuorumSig (input : PsbtIn) (scriptPubkey : Bytes) : Prop :=
  isP2shScript scriptPubkey = true ∧ ∃ redeem m keys, input.redeemScript = some redeem ∧
    extractMultisigQuorum redeem = .ok (m, keys) ∧ hash160 P redeem = slice scriptPubkey 2 22 ∧
    ¬ blockedSighash input psbtSighashAll ∧
    (∀ sig ∈ memberSigs input keys, sig.getLast? = some sighashAll) ∧
    m ≤ (memberSigs input keys).length ∧ ∃ sig ∈ (memberSigs input keys).take m, 0xffff < sig.length

/-- The control block the Signer and the Finalizer accept. -/
def OwnControlBlock (controlBlock : Bytes) : Prop :=
  controlBlock.length = 33 ∧ controlBlock.headD 0 &&& 0xfe = tapscriptLeafVersion ∧
    slice controlBlock 1 33 = msTapscriptInternalKey

variable (P) in
/-- The first leaf is a quorum, and the internal key cannot be tweaked by it. -/
def UntweakableLeaf (input : PsbtIn) (scriptPubkey : Bytes) : Prop :=
  isP2trScript scriptPubkey = true ∧ ∃ leaf rest script m keys,
    input.tapLeafScripts = leaf :: rest ∧ OwnControlBlock leaf.controlBlock ∧
    leafScript leaf.scriptWithVersion = .ok (script, m, keys) ∧
    ∃ e, tapscriptOutputKey P msTapscriptInternalKey (tapscriptLeafHash P script) = .error e

variable (P) in
/-- An input without final fields whose finalizer stops with an error that is no PSBT error. -/
def Escapes (psbt : Psbt) (i : Nat) : Prop :=
  ∃ input scriptPubkey amount, psbt.inputs[i]? = some input ∧ input.finalScriptsig = none ∧
    input.finalScriptwitness = none ∧ inputUtxoData psbt i = some (scriptPubkey, amount) ∧
    (LongKeySig P input scriptPubkey ∨ LongQuorumSig P input scriptPubkey ∨
      UntweakableLeaf P input scriptPubkey)

theorem cScript_outside {sig pubkey : Bytes} (hpubkey : pubkey.length = 33) :
    FailsOutside IsPsbt (cScript [.data sig, .data pubkey]) ↔ 0x4c ≤ sig.length := by
  by_cases hlong : 0x4c ≤ sig.length
  · refine iff_of_true ⟨.valueError "pushdata too long for inline encoding", ?_,
      not_isPsbt_valueError _⟩ hlong
    simp only [cScript, List.mapM_cons, ScriptItem.encode, reject_true _ hlong, error_bind]
  · have hpub : ¬ pubkey.length ≥ 0x4c := by omega
    refine iff_of_false ?_ hlong
    simp only [cScript, List.mapM_cons, List.mapM_nil, ScriptItem.encode, reject_false _ hlong,
      reject_false _ hpub, ok_bind, pure_eq_ok]
    exact not_failsOutside_ok _

theorem pushData_succeeds {data : Bytes} : Succeeds (pushData data) ↔ data.length ≤ 0xffff := by
  constructor
  · rintro ⟨out, h⟩
    exact (pushData_eq_ok.mp h).1
  · intro h
    exact ⟨_, pushData_eq_ok.mpr ⟨h, rfl⟩⟩

theorem pushData_error {data : Bytes} {e : Exn} (h : pushData data = .error e) : ¬ IsPsbt e := by
  rcases bind_eq_error.mp h with h | ⟨_, -, h⟩
  · rw [← (reject_eq_error.mp h).2]
    exact not_isPsbt_valueError _
  · split at h
    · cases h
    · split at h <;> cases h

theorem makeMultisigScriptSig_outside {redeem : Bytes} {sigs : List Bytes}
    (hredeem : redeem.length ≤ 0xffff) :
    FailsOutside IsPsbt (makeMultisigScriptSig redeem sigs) ↔ ∃ sig ∈ sigs, 0xffff < sig.length := by
  have herror : ∀ e, makeMultisigScriptSig redeem sigs = .error e → ¬ IsPsbt e := by
    intro e he
    rcases bind_eq_error.mp he with he | ⟨pushes, -, he⟩
    · obtain ⟨sig, -, he⟩ := mapM_eq_error he
      exact pushData_error he
    · rcases bind_eq_error.mp he with he | ⟨last, -, he⟩
      · exact pushData_error he
      · cases he
  have hlast : ∀ pushes : List Bytes, Succeeds (do
      let last ← pushData redeem
      return op0 :: pushes.flatten ++ last) ↔ True := by
    intro pushes
    obtain ⟨last, hlast⟩ := pushData_succeeds.mpr hredeem
    exact iff_true_intro (succeeds_bind.mpr ⟨last, hlast, succeeds_ok _⟩)
  rw [failsOutside_iff herror, makeMultisigScriptSig, succeeds_bind_of_const hlast, and_true,
    succeeds_mapM]
  simp only [pushData_succeeds, not_forall, Nat.not_le, exists_prop]

theorem partialSigByHash_length {input : PsbtIn} {committed pubkey sig : Bytes}
    (h : partialSigByHash P input committed = some (pubkey, sig)) : pubkey.length = 33 := by
  have hfound := List.find?_some h
  simp only [Bool.and_eq_true, decide_eq_true_eq] at hfound
  exact hfound.1

theorem redeem_length {redeem : Bytes} {m : Nat} {keys : List Bytes}
    (h : extractMultisigQuorum redeem = .ok (m, keys)) : redeem.length ≤ 0xffff := by
  obtain ⟨hq, -, rfl⟩ := extractMultisigQuorum_eq_ok.mp h
  have hbound : keys.length ≤ 15 := hq.bound
  rw [redeemBytes_length hq.keyLength]
  omega

section Forms

variable {i : Nat} {input : PsbtIn} {scriptPubkey : Bytes}

theorem finalKeySig_outside {committed : Bytes} :
    ¬ FailsOutside IsPsbt (finalKeySig P i input committed) := by
  rw [finalKeySig, failsOutside_orElseThrow_bind (isPsbt_incomplete i)]
  rintro ⟨found, -, h⟩
  rw [failsOutside_reject_bind (isPsbt_incomplete i)] at h
  exact not_failsOutside_ok _ h.2

theorem finalKeySig_eq_ok {committed pubkey sig : Bytes} :
    finalKeySig P i input committed = .ok (pubkey, sig) ↔
      partialSigByHash P input committed = some (pubkey, sig) ∧ sig.getLast? = some sighashAll := by
  constructor
  · intro h
    obtain ⟨found, hfound, h⟩ := bind_eq_ok.mp h
    obtain ⟨hlast, h⟩ := reject_bind_eq_ok.mp h
    cases h
    exact ⟨orElseThrow_eq_ok.mp hfound, not_not.mp hlast⟩
  · rintro ⟨hfound, hlast⟩
    refine bind_eq_ok.mpr ⟨_, orElseThrow_eq_ok.mpr hfound, ?_⟩
    exact reject_bind_eq_ok.mpr ⟨not_not.mpr hlast, rfl⟩

theorem finalizeKey_outside :
    FailsOutside IsPsbt (finalizeKey P i input scriptPubkey) ↔ LongKeySig P input scriptPubkey := by
  rw [finalizeKey, failsOutside_orElseThrow_bind (isPsbt_incomplete i)]
  constructor
  · rintro ⟨form, hform, h⟩
    obtain ⟨hblocked, h⟩ := (failsOutside_reject_bind (isPsbt_incomplete i)).mp h
    cases form with
    | legacy committed =>
      obtain ⟨⟨pubkey, sig⟩, hkey, h⟩ := (failsOutside_bind_of_not finalKeySig_outside).mp h
      obtain ⟨hfound, hlast⟩ := finalKeySig_eq_ok.mp hkey
      have hlong := (cScript_outside (partialSigByHash_length hfound)).mp (failsOutside_bind_ok.mp h)
      exact ⟨committed, hform, hblocked, pubkey, sig, hfound, hlast, hlong⟩
    | p2wpkh committed =>
      exact absurd (failsOutside_bind_ok.mp h) finalKeySig_outside
    | p2tr committed =>
      obtain ⟨sig, -, h⟩ := (failsOutside_orElseThrow_bind (isPsbt_incomplete i)).mp h
      exact absurd h (not_failsOutside_ok _)
  · rintro ⟨committed, hform, hblocked, pubkey, sig, hfound, hlast, hlong⟩
    refine ⟨_, hform, (failsOutside_reject_bind (isPsbt_incomplete i)).mpr ⟨hblocked, ?_⟩⟩
    refine (failsOutside_bind_of_not finalKeySig_outside).mpr ⟨(pubkey, sig),
      finalKeySig_eq_ok.mpr ⟨hfound, hlast⟩, ?_⟩
    exact failsOutside_bind_ok.mpr ((cScript_outside (partialSigByHash_length hfound)).mpr hlong)

theorem quorumScript_outside {script : Bytes} : ¬ FailsOutside IsPsbt (quorumScript script) := by
  rw [quorumScript]
  cases extractMultisigQuorum script with
  | ok quorum => exact not_failsOutside_ok _
  | error e => exact not_failsOutside_error isPsbt_unsupported

/-- The shared ladder fails with PSBT errors only. -/
theorem finalizeMultisig_outside {script : Option Bytes} {commitment : Bytes → Bytes}
    {committed : Bytes} :
    ¬ FailsOutside IsPsbt (finalizeMultisig i input script commitment committed) := by
  rw [finalizeMultisig, failsOutside_orElseThrow_bind (isPsbt_incomplete i)]
  rintro ⟨redeem, -, h⟩
  obtain ⟨quorum, -, h⟩ := (failsOutside_bind_of_not quorumScript_outside).mp h
  obtain ⟨-, h⟩ := (failsOutside_reject_bind isPsbt_mismatch).mp h
  obtain ⟨-, h⟩ := (failsOutside_reject_bind (isPsbt_incomplete i)).mp h
  obtain ⟨-, h⟩ := (failsOutside_reject_bind (isPsbt_incomplete i)).mp h
  obtain ⟨-, h⟩ := (failsOutside_reject_bind (isPsbt_incomplete i)).mp h
  exact not_failsOutside_ok _ h

theorem finalizeMultisig_eq_ok {script : Option Bytes} {commitment : Bytes → Bytes}
    {committed redeem : Bytes} {sigs : List Bytes} :
    finalizeMultisig i input script commitment committed = .ok (redeem, sigs) ↔
      ∃ m keys, script = some redeem ∧ extractMultisigQuorum redeem = .ok (m, keys) ∧
        commitment redeem = committed ∧ ¬ blockedSighash input psbtSighashAll ∧
        (∀ sig ∈ memberSigs input keys, sig.getLast? = some sighashAll) ∧
        m ≤ (memberSigs input keys).length ∧ sigs = (memberSigs input keys).take m := by
  constructor
  · intro h
    obtain ⟨script, hscript, h⟩ := bind_eq_ok.mp h
    obtain ⟨⟨m, keys⟩, hquorum, h⟩ := bind_eq_ok.mp h
    obtain ⟨hcommit, h⟩ := reject_bind_eq_ok.mp h
    obtain ⟨hblocked, h⟩ := reject_bind_eq_ok.mp h
    obtain ⟨hlast, h⟩ := reject_bind_eq_ok.mp h
    obtain ⟨hcount, h⟩ := reject_bind_eq_ok.mp h
    cases h
    push Not at hlast
    exact ⟨m, keys, orElseThrow_eq_ok.mp hscript, mapError_eq_ok.mp hquorum, not_not.mp hcommit,
      hblocked, hlast, Nat.not_lt.mp hcount, rfl⟩
  · rintro ⟨m, keys, hscript, hquorum, hcommit, hblocked, hlast, hcount, rfl⟩
    refine bind_eq_ok.mpr ⟨redeem, orElseThrow_eq_ok.mpr hscript, ?_⟩
    refine bind_eq_ok.mpr ⟨(m, keys), mapError_eq_ok.mpr hquorum, ?_⟩
    refine reject_bind_eq_ok.mpr ⟨not_not.mpr hcommit, reject_bind_eq_ok.mpr ⟨hblocked, ?_⟩⟩
    refine reject_bind_eq_ok.mpr ⟨?_, reject_bind_eq_ok.mpr ⟨Nat.not_lt.mpr hcount, rfl⟩⟩
    rintro ⟨sig, hsig, hne⟩
    exact hne (hlast sig hsig)

theorem finalizeP2shMultisig_outside (hp2sh : isP2shScript scriptPubkey = true) :
    FailsOutside IsPsbt (finalizeP2shMultisig P i input scriptPubkey) ↔
      LongQuorumSig P input scriptPubkey := by
  rw [finalizeP2shMultisig, failsOutside_bind_of_not finalizeMultisig_outside]
  constructor
  · rintro ⟨⟨redeem, sigs⟩, hok, h⟩
    obtain ⟨m, keys, hscript, hquorum, hcommit, hblocked, hlast, hcount, rfl⟩ :=
      finalizeMultisig_eq_ok.mp hok
    have hlong := (makeMultisigScriptSig_outside (redeem_length hquorum)).mp
      (failsOutside_bind_ok.mp h)
    exact ⟨hp2sh, redeem, m, keys, hscript, hquorum, hcommit, hblocked, hlast, hcount, hlong⟩
  · rintro ⟨-, redeem, m, keys, hscript, hquorum, hcommit, hblocked, hlast, hcount, h⟩
    refine ⟨(redeem, _), finalizeMultisig_eq_ok.mpr ⟨m, keys, hscript, hquorum, hcommit, hblocked,
      hlast, hcount, rfl⟩, ?_⟩
    exact failsOutside_bind_ok.mpr
      ((makeMultisigScriptSig_outside (redeem_length hquorum)).mpr h)

theorem finalizeP2wshMultisig_outside :
    ¬ FailsOutside IsPsbt (finalizeP2wshMultisig P i input scriptPubkey) := by
  intro h
  exact finalizeMultisig_outside (failsOutside_bind_ok.mp h)

theorem sigSlots_outside {m : Nat} {sigOf : Bytes → Option Bytes} {keys : List Bytes} {taken : Nat} :
    ¬ FailsOutside IsPsbt (sigSlots i m sigOf keys taken) := by
  induction keys generalizing taken with
  | nil => exact not_failsOutside_ok _
  | cons key keys ih =>
    rw [sigSlots]
    split
    · rw [failsOutside_reject_bind (isPsbt_incomplete i)]
      rintro ⟨-, h⟩
      exact ih (failsOutside_bind_ok.mp h)
    · intro h
      exact ih (failsOutside_bind_ok.mp h)

theorem leafScript_outside {leafValue : Bytes} : ¬ FailsOutside IsPsbt (leafScript leafValue) := by
  rw [leafScript, failsOutside_reject_bind isPsbt_unsupported]
  rintro ⟨-, h⟩
  replace h := failsOutside_bind_ok.mp h
  cases hq : extractMultisigTapscript leafValue.dropLast with
  | ok quorum =>
    rw [hq] at h
    exact not_failsOutside_ok _ h
  | error e =>
    rw [hq] at h
    exact not_failsOutside_error isPsbt_unsupported h

theorem tapscriptOutputKey_error {internal leafHash : Bytes} {e : Exn}
    (h : tapscriptOutputKey P internal leafHash = .error e) : ¬ IsPsbt e := by
  have htweak : ∀ p t, tweakOutputKey P p t = .error e → ¬ IsPsbt e := by
    intro p t h
    rcases bind_eq_error.mp h with h | ⟨_, -, h⟩
    · cases hpoint : (P.privateKey (toBytesBig 32 t)).bind fun k => P.combine p (P.publicKey k) with
      | none =>
        rw [tweakPoint, hpoint] at h
        cases h
        exact not_isPsbt_tapTweak _
      | some q =>
        rw [tweakPoint, hpoint] at h
        cases h
    · cases h
  rcases bind_eq_error.mp h with h | ⟨⟨p, t⟩, -, h⟩
  · rcases bind_eq_error.mp h with h | ⟨_, -, h⟩
    · rw [← (reject_eq_error.mp h).2]
      exact not_isPsbt_valueError _
    · rcases bind_eq_error.mp h with h | ⟨_, -, h⟩
      · rw [← (reject_eq_error.mp h).2]
        exact not_isPsbt_valueError _
      · rcases bind_eq_error.mp h with h | ⟨p, -, h⟩
        · cases hlift : P.parsePublicKey (0x02 :: internal) with
          | none =>
            rw [liftX, hlift] at h
            cases h
            exact not_isPsbt_tapTweak _
          | some p =>
            rw [liftX, hlift] at h
            cases h
        · rcases bind_eq_error.mp h with h | ⟨_, -, h⟩
          · rcases bind_eq_error.mp h with h | ⟨_, -, h⟩
            · rw [← (reject_eq_error.mp h).2]
              exact not_isPsbt_tapTweak _
            · cases h
          · cases h
  · exact htweak p t h

theorem finalizeP2trScriptpath_outside {leaf : TapLeafScript} {rest : List TapLeafScript}
    (hp2tr : isP2trScript scriptPubkey = true) (hleaves : input.tapLeafScripts = leaf :: rest) :
    FailsOutside IsPsbt (finalizeP2trScriptpath P i input leaf scriptPubkey) ↔
      UntweakableLeaf P input scriptPubkey := by
  have hwhole : FailsOutside IsPsbt (finalizeP2trScriptpath P i input leaf scriptPubkey) ↔
      FailsOutside IsPsbt (revealedLeaf P input leaf scriptPubkey) := by
    rw [finalizeP2trScriptpath, failsOutside_bind]
    refine or_iff_left ?_
    rintro ⟨revealed, -, h⟩
    obtain ⟨-, h⟩ := (failsOutside_reject_bind (isPsbt_incomplete i)).mp h
    obtain ⟨slots, -, h⟩ := (failsOutside_bind_of_not sigSlots_outside).mp h
    obtain ⟨-, h⟩ := (failsOutside_reject_bind (isPsbt_incomplete i)).mp h
    exact not_failsOutside_ok _ h
  rw [hwhole, revealedLeaf, failsOutside_reject_bind isPsbt_unsupported,
    failsOutside_bind_of_not leafScript_outside]
  constructor
  · rintro ⟨hblock, ⟨script, m, keys⟩, hleaf, h⟩
    push Not at hblock
    refine ⟨hp2tr, leaf, rest, script, m, keys, hleaves, hblock, hleaf, ?_⟩
    rcases failsOutside_bind.mp h with ⟨e, he, -⟩ | ⟨outputKey, -, h⟩
    · exact ⟨e, he⟩
    · obtain ⟨-, h⟩ := (failsOutside_reject_bind isPsbt_mismatch).mp h
      obtain ⟨-, h⟩ := (failsOutside_reject_bind isPsbt_mismatch).mp h
      exact absurd h (not_failsOutside_ok _)
  · rintro ⟨-, leaf', rest', script, m, keys, hleaves', hblock, hleaf, e, he⟩
    cases hleaves.symm.trans hleaves'
    refine ⟨?_, (script, m, keys), hleaf, failsOutside_bind.mpr (.inl ⟨e, he, ?_⟩)⟩
    · push Not
      exact hblock
    · exact tapscriptOutputKey_error he

variable (P) in
/-- The branches of the finalizer for an input and the script it spends. -/
def finalBranch (i : Nat) (input : PsbtIn) (scriptPubkey : Bytes) : Except Exn PsbtIn :=
  if isP2shScript scriptPubkey then finalizeP2shMultisig P i input scriptPubkey
  else if isP2wshScript scriptPubkey then finalizeP2wshMultisig P i input scriptPubkey
  else
    match isP2trScript scriptPubkey, input.tapLeafScripts with
    | true, leaf :: _ => finalizeP2trScriptpath P i input leaf scriptPubkey
    | _, _ => finalizeKey P i input scriptPubkey

theorem finalBranch_outside :
    FailsOutside IsPsbt (finalBranch P i input scriptPubkey) ↔
      LongKeySig P input scriptPubkey ∨ LongQuorumSig P input scriptPubkey ∨
        UntweakableLeaf P input scriptPubkey := by
  have hkey : LongKeySig P input scriptPubkey → isP2shScript scriptPubkey = false ∧
      isP2wshScript scriptPubkey = false ∧ isP2trScript scriptPubkey = false := by
    rintro ⟨committed, hform, -⟩
    obtain ⟨hp2sh, hp2wsh, hp2tr⟩ := forms_of_some hform
    refine ⟨hp2sh, hp2wsh, Bool.eq_false_iff.mpr ?_⟩
    intro htrue
    obtain ⟨output, hno⟩ := hp2tr htrue
    cases hno
  have htap : UntweakableLeaf P input scriptPubkey → isP2shScript scriptPubkey = false ∧
      isP2wshScript scriptPubkey = false := by
    rintro ⟨hp2tr, -⟩
    have hforms := forms_of_p2tr (of_decide_eq_true hp2tr)
    exact ⟨hforms.2.1, hforms.2.2.1⟩
  unfold finalBranch
  split
  · next hp2sh =>
    rw [finalizeP2shMultisig_outside hp2sh]
    constructor
    · exact fun h => .inr (.inl h)
    · rintro (h | h | h)
      · exact absurd ((hkey h).1.symm.trans hp2sh) Bool.false_ne_true
      · exact h
      · exact absurd ((htap h).1.symm.trans hp2sh) Bool.false_ne_true
  · next hp2sh =>
    have hquorum : ¬ LongQuorumSig P input scriptPubkey := fun h => hp2sh h.1
    split
    · next hp2wsh =>
      refine iff_of_false finalizeP2wshMultisig_outside ?_
      rintro (h | h | h)
      · exact absurd ((hkey h).2.1.symm.trans hp2wsh) Bool.false_ne_true
      · exact hquorum h
      · exact absurd ((htap h).2.symm.trans hp2wsh) Bool.false_ne_true
    · split
      · next leaf rest hp2tr hleaves =>
        rw [finalizeP2trScriptpath_outside hp2tr hleaves]
        constructor
        · exact fun h => .inr (.inr h)
        · rintro (h | h | h)
          · exact absurd ((hkey h).2.2.symm.trans hp2tr) Bool.false_ne_true
          · exact absurd h hquorum
          · exact h
      · next hno =>
        rw [finalizeKey_outside]
        constructor
        · exact .inl
        · rintro (h | h | h)
          · exact h
          · exact absurd h hquorum
          · obtain ⟨hp2tr, leaf, rest, -, -, -, hleaves, -⟩ := h
            exact (hno leaf rest hp2tr hleaves).elim

end Forms

section Outcome

variable {psbt : Psbt} {i : Nat} {input : PsbtIn}

/-- An input with a final field. -/
def IsFinal (input : PsbtIn) : Prop :=
  input.finalScriptsig.isSome = true ∨ input.finalScriptwitness.isSome = true

instance (input : PsbtIn) : Decidable (IsFinal input) := inferInstanceAs (Decidable (_ ∨ _))

theorem not_isFinal : ¬ IsFinal input ↔
    input.finalScriptsig = none ∧ input.finalScriptwitness = none := by
  simp only [IsFinal, not_or, Bool.not_eq_true, Option.isSome_eq_false_iff,
    Option.isNone_iff_eq_none]

theorem finalOutcome_of_absent (h : psbt.inputs[i]? = none) :
    finalOutcome P psbt i = .error (incomplete i) := by
  rw [finalOutcome, h]
  rfl

theorem finalOutcome_of_final (hin : psbt.inputs[i]? = some input) (h : IsFinal input) :
    finalOutcome P psbt i = .ok input := by
  rw [finalOutcome, hin]
  exact if_pos h

theorem finalOutcome_of_unknown (hin : psbt.inputs[i]? = some input) (h : ¬ IsFinal input)
    (hutxo : inputUtxoData psbt i = none) : finalOutcome P psbt i = .error (incomplete i) := by
  rw [finalOutcome, hin, hutxo]
  exact if_neg h

theorem finalOutcome_of_utxo {scriptPubkey : Bytes} {amount : UInt64}
    (hin : psbt.inputs[i]? = some input) (h : ¬ IsFinal input)
    (hutxo : inputUtxoData psbt i = some (scriptPubkey, amount)) :
    finalOutcome P psbt i = finalBranch P i input scriptPubkey := by
  rw [finalOutcome, hin, hutxo]
  exact if_neg h

/-- The finalizer of an input escapes the loop in three situations. -/
theorem finalOutcome_outside : FailsOutside IsPsbt (finalOutcome P psbt i) ↔ Escapes P psbt i := by
  cases hin : psbt.inputs[i]? with
  | none =>
    rw [finalOutcome_of_absent hin]
    refine iff_of_false (not_failsOutside_error (isPsbt_incomplete i)) ?_
    rintro ⟨input, -, -, hin', -⟩
    cases hin.symm.trans hin'
  | some input =>
    by_cases hfinal : IsFinal input
    · rw [finalOutcome_of_final hin hfinal]
      refine iff_of_false (not_failsOutside_ok _) ?_
      rintro ⟨input', -, -, hin', hsig, hwitness, -⟩
      cases hin.symm.trans hin'
      exact not_isFinal.mpr ⟨hsig, hwitness⟩ hfinal
    · cases hutxo : inputUtxoData psbt i with
      | none =>
        rw [finalOutcome_of_unknown hin hfinal hutxo]
        refine iff_of_false (not_failsOutside_error (isPsbt_incomplete i)) ?_
        rintro ⟨-, scriptPubkey, amount, -, -, -, hutxo', -⟩
        cases hutxo.symm.trans hutxo'
      | some utxo =>
        obtain ⟨scriptPubkey, amount⟩ := utxo
        rw [finalOutcome_of_utxo hin hfinal hutxo, finalBranch_outside]
        obtain ⟨hsig, hwitness⟩ := not_isFinal.mp hfinal
        constructor
        · exact fun h => ⟨input, scriptPubkey, amount, hin, hsig, hwitness, hutxo, h⟩
        · rintro ⟨input', scriptPubkey', amount', hin', -, -, hutxo', h⟩
          cases hin.symm.trans hin'
          cases hutxo.symm.trans hutxo'
          exact h

/-- The outcome of an input reads its own map and its own outpoint. -/
theorem finalOutcome_alone {other : Psbt} (hin : other.inputs[i]? = psbt.inputs[i]?)
    (hvin : other.unsignedTx.vin[i]? = psbt.unsignedTx.vin[i]?) :
    finalOutcome P other i = finalOutcome P psbt i := by
  simp only [finalOutcome, inputUtxoData, hin, hvin]

/-- The forms that are spent with a script signature. -/
def SpendsByScript (scriptPubkey : Bytes) : Prop :=
  isP2shScript scriptPubkey = true ∨ ∃ hash, formOfScript scriptPubkey = some (.legacy hash)

/-- The final field of the form, and none of the other one. -/
def FinalField (scriptPubkey : Bytes) (r : PsbtIn) : Prop :=
  (SpendsByScript scriptPubkey ∧ (∃ script ≠ [], r.finalScriptsig = some script) ∧
    r.finalScriptwitness = none) ∨
  (¬ SpendsByScript scriptPubkey ∧ r.finalScriptsig = none ∧
    ∃ stack ≠ [], r.finalScriptwitness = some (encodeWitnessStack stack))

/-- The intermediate records are gone. -/
structure Cleared (r : PsbtIn) : Prop where
  partialSigs : r.partialSigs = []
  sighashType : r.sighashType = none
  redeemScript : r.redeemScript = none
  witnessScript : r.witnessScript = none

/-- The UTXO and unknown records are those of the input. -/
structure Kept (input r : PsbtIn) : Prop where
  nonWitnessUtxo : r.nonWitnessUtxo = input.nonWitnessUtxo
  witnessUtxo : r.witnessUtxo = input.witnessUtxo
  unknown : r.unknown = input.unknown

/-- An input finalized by its finalizer. -/
structure NewlyFinal (scriptPubkey : Bytes) (input r : PsbtIn) : Prop where
  finalField : FinalField scriptPubkey r
  cleared : Cleared r
  kept : Kept input r

variable {r : PsbtIn} {scriptPubkey : Bytes}

theorem finalField_of_script {script : Bytes} (hspend : SpendsByScript scriptPubkey)
    (hne : script ≠ []) (hsig : r.finalScriptsig = some script)
    (hwitness : r.finalScriptwitness = none) : FinalField scriptPubkey r :=
  .inl ⟨hspend, ⟨script, hne, hsig⟩, hwitness⟩

theorem finalField_of_stack {stack : List Bytes} (hspend : ¬ SpendsByScript scriptPubkey)
    (hne : stack ≠ []) (hsig : r.finalScriptsig = none)
    (hwitness : r.finalScriptwitness = some (encodeWitnessStack stack)) :
    FinalField scriptPubkey r :=
  .inr ⟨hspend, hsig, stack, hne, hwitness⟩

theorem not_spendsByScript_of_form {form : Form} (hform : formOfScript scriptPubkey = some form)
    (hne : ∀ hash, form ≠ .legacy hash) : ¬ SpendsByScript scriptPubkey := by
  rintro (hp2sh | ⟨hash, hlegacy⟩)
  · cases (forms_of_p2sh (of_decide_eq_true hp2sh)).1.symm.trans hform
  · exact hne hash (Option.some.inj (hform.symm.trans hlegacy))

theorem not_spendsByScript_of_p2wsh (h : p2wshShape.Fits scriptPubkey) :
    ¬ SpendsByScript scriptPubkey := by
  obtain ⟨hform, hp2sh, -⟩ := forms_of_p2wsh h
  rintro (htrue | ⟨hash, hlegacy⟩)
  · cases hp2sh.symm.trans htrue
  · cases hform.symm.trans hlegacy

theorem not_spendsByScript_of_p2tr (h : p2trShape.Fits scriptPubkey) :
    ¬ SpendsByScript scriptPubkey := by
  apply not_spendsByScript_of_form (forms_of_p2tr h).1
  intro hash he
  cases he

theorem cScript_ne_nil {sig pubkey script : Bytes}
    (h : cScript [.data sig, .data pubkey] = .ok script) : script ≠ [] := by
  obtain ⟨parts, hparts, h⟩ := bind_eq_ok.mp h
  cases h
  obtain ⟨first, hfirst, hparts⟩ := bind_eq_ok.mp hparts
  obtain ⟨rest, -, hparts⟩ := bind_eq_ok.mp hparts
  cases hparts
  obtain ⟨-, hfirst⟩ := reject_bind_eq_ok.mp hfirst
  cases hfirst
  exact List.cons_ne_nil _ _

theorem makeMultisigScriptSig_ne_nil {redeem script : Bytes} {sigs : List Bytes}
    (h : makeMultisigScriptSig redeem sigs = .ok script) : script ≠ [] := by
  obtain ⟨pushes, -, h⟩ := bind_eq_ok.mp h
  obtain ⟨last, -, h⟩ := bind_eq_ok.mp h
  cases h
  exact List.cons_ne_nil _ _

theorem finalizeKey_newly (hfinal : ¬ IsFinal input)
    (h : finalizeKey P i input scriptPubkey = .ok r) : NewlyFinal scriptPubkey input r := by
  obtain ⟨hsig, hwitness⟩ := not_isFinal.mp hfinal
  obtain ⟨form, hform, h⟩ := bind_eq_ok.mp h
  replace hform := orElseThrow_eq_ok.mp hform
  obtain ⟨-, h⟩ := reject_bind_eq_ok.mp h
  cases form with
  | legacy committed =>
    obtain ⟨found, -, h⟩ := bind_eq_ok.mp h
    obtain ⟨script, hscript, h⟩ := bind_eq_ok.mp h
    cases h
    exact ⟨finalField_of_script (.inr ⟨committed, hform⟩) (cScript_ne_nil hscript) rfl hwitness,
      ⟨rfl, rfl, rfl, rfl⟩, ⟨rfl, rfl, rfl⟩⟩
  | p2wpkh committed =>
    obtain ⟨found, -, h⟩ := bind_eq_ok.mp h
    cases h
    have hspend : ¬ SpendsByScript scriptPubkey := by
      apply not_spendsByScript_of_form hform
      intro hash he
      cases he
    exact ⟨finalField_of_stack hspend (List.cons_ne_nil _ _) hsig rfl, ⟨rfl, rfl, rfl, rfl⟩,
      ⟨rfl, rfl, rfl⟩⟩
  | p2tr committed =>
    obtain ⟨sig, -, h⟩ := bind_eq_ok.mp h
    cases h
    have hspend : ¬ SpendsByScript scriptPubkey := by
      apply not_spendsByScript_of_form hform
      intro hash he
      cases he
    exact ⟨finalField_of_stack hspend (List.cons_ne_nil _ _) hsig rfl, ⟨rfl, rfl, rfl, rfl⟩,
      ⟨rfl, rfl, rfl⟩⟩

theorem finalizeP2shMultisig_newly (hfinal : ¬ IsFinal input)
    (hp2sh : isP2shScript scriptPubkey = true)
    (h : finalizeP2shMultisig P i input scriptPubkey = .ok r) : NewlyFinal scriptPubkey input r := by
  obtain ⟨-, hwitness⟩ := not_isFinal.mp hfinal
  obtain ⟨quorum, -, h⟩ := bind_eq_ok.mp h
  obtain ⟨script, hscript, h⟩ := bind_eq_ok.mp h
  cases h
  exact ⟨finalField_of_script (.inl hp2sh) (makeMultisigScriptSig_ne_nil hscript) rfl hwitness,
    ⟨rfl, rfl, rfl, rfl⟩, ⟨rfl, rfl, rfl⟩⟩

theorem finalizeP2wshMultisig_newly (hfinal : ¬ IsFinal input)
    (hp2wsh : isP2wshScript scriptPubkey = true)
    (h : finalizeP2wshMultisig P i input scriptPubkey = .ok r) :
    NewlyFinal scriptPubkey input r := by
  obtain ⟨hsig, -⟩ := not_isFinal.mp hfinal
  obtain ⟨quorum, -, h⟩ := bind_eq_ok.mp h
  cases h
  have hspend := not_spendsByScript_of_p2wsh (of_decide_eq_true hp2wsh)
  exact ⟨finalField_of_stack hspend (List.cons_ne_nil _ _) hsig rfl, ⟨rfl, rfl, rfl, rfl⟩,
    ⟨rfl, rfl, rfl⟩⟩

theorem finalizeP2trScriptpath_newly {leaf : TapLeafScript} (hfinal : ¬ IsFinal input)
    (hp2tr : isP2trScript scriptPubkey = true)
    (h : finalizeP2trScriptpath P i input leaf scriptPubkey = .ok r) :
    NewlyFinal scriptPubkey input r := by
  obtain ⟨hsig, -⟩ := not_isFinal.mp hfinal
  obtain ⟨revealed, -, h⟩ := bind_eq_ok.mp h
  obtain ⟨-, h⟩ := reject_bind_eq_ok.mp h
  obtain ⟨slots, -, h⟩ := bind_eq_ok.mp h
  obtain ⟨-, h⟩ := reject_bind_eq_ok.mp h
  cases h
  have hspend := not_spendsByScript_of_p2tr (of_decide_eq_true hp2tr)
  have hne : makeMultisigTapscriptWitness revealed.script revealed.controlBlock slots.1 ≠ [] :=
    List.append_ne_nil_of_right_ne_nil _ (List.cons_ne_nil _ _)
  exact ⟨finalField_of_stack hspend hne hsig rfl, ⟨rfl, rfl, rfl, rfl⟩, ⟨rfl, rfl, rfl⟩⟩

theorem finalBranch_newly (hfinal : ¬ IsFinal input)
    (h : finalBranch P i input scriptPubkey = .ok r) : NewlyFinal scriptPubkey input r := by
  unfold finalBranch at h
  split at h
  · next hp2sh => exact finalizeP2shMultisig_newly hfinal hp2sh h
  · split at h
    · next hp2wsh => exact finalizeP2wshMultisig_newly hfinal hp2wsh h
    · split at h
      · next hp2tr _ => exact finalizeP2trScriptpath_newly hfinal hp2tr h
      · exact finalizeKey_newly hfinal h

theorem NewlyFinal.isFinal (h : NewlyFinal scriptPubkey input r) : IsFinal r := by
  rcases h.finalField with ⟨-, ⟨script, -, hscript⟩, -⟩ | ⟨-, -, stack, -, hstack⟩
  · exact .inl (by rw [hscript]; rfl)
  · exact .inr (by rw [hstack]; rfl)

/-- An outcome is the final input as it was, or the input newly finalized. -/
theorem finalOutcome_ok (h : finalOutcome P psbt i = .ok r) :
    ∃ input, psbt.inputs[i]? = some input ∧
      (IsFinal input ∧ r = input ∨ ¬ IsFinal input ∧ ∃ scriptPubkey amount,
        inputUtxoData psbt i = some (scriptPubkey, amount) ∧ NewlyFinal scriptPubkey input r) := by
  cases hin : psbt.inputs[i]? with
  | none =>
    rw [finalOutcome_of_absent hin] at h
    cases h
  | some input =>
    refine ⟨input, rfl, ?_⟩
    by_cases hfinal : IsFinal input
    · rw [finalOutcome_of_final hin hfinal] at h
      cases h
      exact .inl ⟨hfinal, rfl⟩
    · right
      refine ⟨hfinal, ?_⟩
      cases hutxo : inputUtxoData psbt i with
      | none =>
        rw [finalOutcome_of_unknown hin hfinal hutxo] at h
        cases h
      | some utxo =>
        rw [finalOutcome_of_utxo hin hfinal hutxo] at h
        exact ⟨utxo.1, utxo.2, rfl, finalBranch_newly hfinal h⟩

theorem finalOutcome_isFinal (h : finalOutcome P psbt i = .ok r) : IsFinal r := by
  obtain ⟨input, -, ⟨hfinal, rfl⟩ | ⟨-, scriptPubkey, amount, -, hnew⟩⟩ := finalOutcome_ok h
  · exact hfinal
  · exact hnew.isFinal

end Outcome

section Batch

variable {psbt psbt' : Psbt}

theorem finalizeInputs_cons_ok {index : Nat} {rest : List Nat} {r : PsbtIn}
    (ho : finalOutcome P psbt index = .ok r) :
    finalizeInputs P (index :: rest) psbt =
      finalizeInputs P rest (Psbt.modifyInput psbt index fun _ => r) := by
  simp only [finalizeInputs, finalizePsbtInput_ok ho]

theorem finalizeInputs_cons_passed {index : Nat} {rest : List Nat} {d : PsbtError}
    (ho : finalOutcome P psbt index = .error (.psbt d)) :
    finalizeInputs P (index :: rest) psbt = finalizeInputs P rest psbt := by
  simp only [finalizeInputs, finalizePsbtInput_error ho]

theorem finalizeInputs_cons_escaped {index : Nat} {rest : List Nat} {e : Exn}
    (ho : finalOutcome P psbt index = .error e) (he : ¬ IsPsbt e) :
    finalizeInputs P (index :: rest) psbt = .error e psbt := by
  simp only [finalizeInputs, finalizePsbtInput_error ho]
  split
  · next h => cases h
  · next h =>
    cases h
    exact absurd ⟨_, rfl⟩ he
  · next h =>
    cases h
    rfl

/-- What a role leaves behind, also when it stops with an error. -/
def leftBehind {α : Type} : EStateM.Result Exn Psbt α → Psbt
  | .ok _ psbt | .error _ psbt => psbt

theorem leftBehind_finalizePsbtInput (index : Nat) (psbt : Psbt) :
    (leftBehind (finalizePsbtInput P index psbt)).unsignedTx = psbt.unsignedTx ∧
      (leftBehind (finalizePsbtInput P index psbt)).inputs.length = psbt.inputs.length := by
  cases ho : finalOutcome P psbt index with
  | error e =>
    rw [finalizePsbtInput_error ho]
    exact ⟨rfl, rfl⟩
  | ok r =>
    rw [finalizePsbtInput_ok ho]
    exact ⟨rfl, List.length_modify _ _ _⟩

/-- What the finalizer of every input keeps is kept by the loop, however it ends. -/
theorem leftBehind_finalizeInputs {motive : Psbt → Prop}
    (step : ∀ index s, motive s → motive (leftBehind (finalizePsbtInput P index s)))
    (indices : List Nat) (h : motive psbt) : motive (leftBehind (finalizeInputs P indices psbt)) := by
  induction indices generalizing psbt with
  | nil => exact h
  | cons index rest ih =>
    have hstep := step index psbt h
    cases ho : finalOutcome P psbt index with
    | error e =>
      by_cases hpsbt : IsPsbt e
      · obtain ⟨d, rfl⟩ := hpsbt
        rw [finalizeInputs_cons_passed ho]
        exact ih h
      · rw [finalizeInputs_cons_escaped ho hpsbt]
        exact h
    | ok r =>
      rw [finalizePsbtInput_ok ho] at hstep
      rw [finalizeInputs_cons_ok ho]
      exact ih hstep

/-- The loop ends only where no input escapes it. -/
theorem finalizeInputs_passed {indices : List Nat} (hnd : indices.Nodup)
    (h : finalizeInputs P indices psbt = .ok () psbt') :
    ∀ j ∈ indices, PassedOver (finalOutcome P psbt j) := by
  induction indices generalizing psbt with
  | nil => exact fun j hj => absurd hj List.not_mem_nil
  | cons index rest ih =>
    obtain ⟨hindex, hrest⟩ := List.nodup_cons.mp hnd
    rw [List.forall_mem_cons]
    cases ho : finalOutcome P psbt index with
    | error e =>
      by_cases hpsbt : IsPsbt e
      · obtain ⟨d, rfl⟩ := hpsbt
        rw [finalizeInputs_cons_passed ho] at h
        exact ⟨fun e he => ⟨d, (Except.error.inj he).symm⟩, ih hrest h⟩
      · rw [finalizeInputs_cons_escaped ho hpsbt] at h
        cases h
    | ok r =>
      rw [finalizeInputs_cons_ok ho] at h
      refine ⟨fun e he => ?_, fun j hj => ?_⟩
      · cases he
      · have hne : j ≠ index := by
          rintro rfl
          exact hindex hj
        rw [← finalOutcome_other ho hne]
        exact ih hrest h j hj

theorem finalizePsbt_passed (h : finalizePsbt P psbt = .ok () psbt') :
    ∀ j < psbt.inputs.length, PassedOver (finalOutcome P psbt j) := by
  intro j hj
  exact finalizeInputs_passed List.nodup_range h j (List.mem_range.mpr hj)

/-- The loop writes input maps only. -/
theorem finalizeInputs_frame {indices : List Nat} (h : finalizeInputs P indices psbt = .ok () psbt') :
    psbt' = { psbt with inputs := psbt'.inputs } := by
  induction indices generalizing psbt with
  | nil =>
    cases h
    rfl
  | cons index rest ih =>
    cases ho : finalOutcome P psbt index with
    | error e =>
      by_cases hpsbt : IsPsbt e
      · obtain ⟨d, rfl⟩ := hpsbt
        rw [finalizeInputs_cons_passed ho] at h
        exact ih h
      · rw [finalizeInputs_cons_escaped ho hpsbt] at h
        cases h
    | ok r =>
      rw [finalizeInputs_cons_ok ho] at h
      have hrest := ih h
      exact hrest

/-- Where every outcome is the input as it is, the loop changes nothing. -/
theorem finalizeInputs_idle {indices : List Nat}
    (h : ∀ j ∈ indices, PassedOver (finalOutcome P psbt j) ∧
      ∀ r, finalOutcome P psbt j = .ok r → psbt.inputs[j]? = some r) :
    finalizeInputs P indices psbt = .ok () psbt := by
  induction indices with
  | nil => rfl
  | cons index rest ih =>
    obtain ⟨⟨hpass, hsame⟩, hrest⟩ := List.forall_mem_cons.mp h
    cases ho : finalOutcome P psbt index with
    | error e =>
      obtain ⟨d, rfl⟩ := hpass e ho
      rw [finalizeInputs_cons_passed ho]
      exact ih hrest
    | ok r =>
      have hwrite : Psbt.modifyInput psbt index (fun _ => r) = psbt := by
        refine congrArg (fun inputs => { psbt with inputs := inputs }) ?_
        apply List.ext_getElem?
        intro k
        rw [List.getElem?_modify]
        by_cases hk : index = k
        · subst hk
          simp [hsame r ho]
        · simp [hk]
      rw [finalizeInputs_cons_ok ho, hwrite]
      exact ih hrest

theorem settled_eq_some {j : Nat} {r : PsbtIn} (hr : settled P psbt j = some r) :
    ∃ input, psbt.inputs[j]? = some input ∧ (r = input ∨ ∃ scriptPubkey amount,
      inputUtxoData psbt j = some (scriptPubkey, amount) ∧ NewlyFinal scriptPubkey input r) := by
  cases ho : finalOutcome P psbt j with
  | error e =>
    rw [settled, ho] at hr
    exact ⟨r, hr, .inl rfl⟩
  | ok r' =>
    rw [settled, ho] at hr
    cases hr
    obtain ⟨input, hin, hcase⟩ := finalOutcome_ok ho
    refine ⟨input, hin, ?_⟩
    rcases hcase with ⟨-, hsame⟩ | ⟨-, hnew⟩
    · exact .inl hsame
    · exact .inr hnew

/-- A settled input is settled the same way again. -/
theorem finalOutcome_settled {j : Nat} (hutxo : inputUtxoData psbt' j = inputUtxoData psbt j)
    (hin : psbt'.inputs[j]? = settled P psbt j) :
    (∀ r, finalOutcome P psbt' j = .ok r → psbt'.inputs[j]? = some r) ∧
      (PassedOver (finalOutcome P psbt j) → PassedOver (finalOutcome P psbt' j)) := by
  cases ho : finalOutcome P psbt j with
  | error e =>
    rw [settled, ho] at hin
    have hsame : finalOutcome P psbt' j = .error e := by
      rw [← ho]
      simp only [finalOutcome, hin, hutxo]
    rw [hsame]
    refine ⟨?_, id⟩
    intro r hr
    cases hr
  | ok r =>
    rw [settled, ho] at hin
    rw [finalOutcome_of_final hin (finalOutcome_isFinal ho)]
    constructor
    · intro r' hr
      cases hr
      exact hin
    · intro _ e he
      cases he

/-- Every input is newly finalized or as it was, whatever the other inputs hold, and a second run
changes nothing. -/
structure AllOrNothing (P : Primitives) (psbt psbt' : Psbt) : Prop where
  frame : psbt' = { psbt with inputs := psbt'.inputs }
  inputs_length : psbt'.inputs.length = psbt.inputs.length
  inputs : ∀ (i : Nat) r, psbt'.inputs[i]? = some r → ∃ input, psbt.inputs[i]? = some input ∧
    (r = input ∨ ∃ scriptPubkey amount, inputUtxoData psbt i = some (scriptPubkey, amount) ∧
      NewlyFinal scriptPubkey input r)
  alone : ∀ other other' (i : Nat), finalizePsbt P other = .ok () other' →
    other.inputs[i]? = psbt.inputs[i]? → other.unsignedTx.vin[i]? = psbt.unsignedTx.vin[i]? →
    other'.inputs[i]? = psbt'.inputs[i]?
  again : finalizePsbt P psbt' = .ok () psbt'

theorem settles_inputs (hs : Settles P (List.range psbt.inputs.length) psbt psbt') (i : Nat) :
    psbt'.inputs[i]? = settled P psbt i := by
  rw [hs.inputs]
  split
  · rfl
  · next hi =>
    have hnone : psbt.inputs[i]? = none :=
      List.getElem?_eq_none (Nat.not_lt.mp fun hlt => hi (List.mem_range.mpr hlt))
    rw [settled, finalOutcome_of_absent hnone]

/-- A run that ends has settled every input. -/
theorem finalizePsbt_inputs (h : finalizePsbt P psbt = .ok () psbt') (i : Nat) :
    psbt'.inputs[i]? = settled P psbt i := by
  obtain ⟨result, hrun, hs⟩ := finalizePsbt_settles (finalizePsbt_passed h)
  cases hrun.symm.trans h
  exact settles_inputs hs i

theorem allOrNothing_of_settles (h : finalizePsbt P psbt = .ok () psbt')
    (hs : Settles P (List.range psbt.inputs.length) psbt psbt') : AllOrNothing P psbt psbt' where
  frame := finalizeInputs_frame h
  inputs_length := hs.inputs_length
  inputs := by
    intro i r hr
    rw [settles_inputs hs] at hr
    exact settled_eq_some hr
  alone := by
    intro other other' i hother hin hvin
    rw [finalizePsbt_inputs hother, settles_inputs hs, settled, settled,
      finalOutcome_alone hin hvin, hin]
  again := by
    apply finalizeInputs_idle
    intro j hj
    obtain ⟨hsame, hpass⟩ := finalOutcome_settled (hs.utxos j) (settles_inputs hs j)
    rw [List.mem_range, hs.inputs_length] at hj
    exact ⟨hpass (finalizePsbt_passed h j hj), hsame⟩

/-- One input is enough to end the call with an error. -/
theorem not_ok_of_escapes {i : Nat} (h : Escapes P psbt i) : finalizePsbt P psbt ≠ .ok () psbt' := by
  intro hrun
  have hlt : i < psbt.inputs.length := by
    obtain ⟨input, -, -, hin, -⟩ := h
    exact (List.getElem?_eq_some_iff.mp hin).1
  exact passedOver_iff.mp (finalizePsbt_passed hrun i hlt) (finalOutcome_outside.mpr h)

/-- Finalizing a PSBT ends, with every input finalized or as it was, exactly when no input holds a
signature that its script signature cannot push, nor a leaf that does not tweak. -/
theorem finalizePsbt_allOrNothing (psbt : Psbt) :
    (∃ psbt', finalizePsbt P psbt = .ok () psbt' ∧ AllOrNothing P psbt psbt') ↔
      ∀ i, ¬ Escapes P psbt i := by
  constructor
  · rintro ⟨psbt', h, -⟩ i hescapes
    exact not_ok_of_escapes hescapes h
  · intro h
    have hpass : ∀ j < psbt.inputs.length, PassedOver (finalOutcome P psbt j) := by
      intro j _
      exact passedOver_iff.mpr fun hout => h j (finalOutcome_outside.mp hout)
    obtain ⟨psbt', hrun, hs⟩ := finalizePsbt_settles hpass
    exact ⟨psbt', hrun, allOrNothing_of_settles hrun hs⟩

end Batch

def longKey : Bytes := privkey2pubkey standIn (5 : Nat)

/-- It ends in the pinned byte. -/
def longSig : Bytes := List.replicate 75 0x30 ++ [sighashAll]

def longPrev : PsbtTransaction :=
  ⟨2, [⟨List.replicate 32 0x22, 1, [0x51], 0xffffffff, []⟩],
    [⟨5000, p2pkhShape.build (hash160 standIn longKey)⟩], 0⟩

def longSigInput : PsbtIn :=
  { emptyInput with nonWitnessUtxo := some longPrev, partialSigs := [(longKey, longSig)] }

/-- One key-hash input whose signature is too long to be pushed. -/
def longSigPsbt : Psbt where
  version := 0
  unsignedTx := ⟨2, [⟨longPrev.id standIn, 0, [], 0xffffffff, []⟩], [⟨4000, [0x51]⟩], 0⟩
  inputs := [longSigInput]
  outputs := [⟨[]⟩]
  unknownGlobal := []

theorem longSigPsbt_parsed : parsePsbt (serializePsbt longSigPsbt) = .ok longSigPsbt := by
  decide +kernel

theorem longSigPsbt_escapes : Escapes standIn longSigPsbt 0 := by
  have hutxo : inputUtxoData longSigPsbt 0 =
      some (p2pkhShape.build (hash160 standIn longKey), 5000) := by decide +kernel
  have hform : formOfScript (p2pkhShape.build (hash160 standIn longKey)) =
      some (.legacy (hash160 standIn longKey)) := by decide +kernel
  have hsig : partialSigByHash standIn longSigInput (hash160 standIn longKey) =
      some (longKey, longSig) := by decide +kernel
  have hblocked : ¬ blockedSighash longSigInput psbtSighashAll := by decide
  exact ⟨longSigInput, _, _, rfl, rfl, rfl, hutxo, .inl ⟨_, hform, hblocked, longKey, longSig, hsig,
    by decide, by decide⟩⟩

theorem long_signature_ends_the_call : ¬ ∀ raw psbt, parsePsbt raw = .ok psbt →
    ∃ psbt', finalizePsbt standIn psbt = .ok () psbt' ∧ AllOrNothing standIn psbt psbt' := by
  intro h
  obtain ⟨psbt', hrun, -⟩ := h _ _ longSigPsbt_parsed
  exact not_ok_of_escapes longSigPsbt_escapes hrun

end Yubtc.Finalization
