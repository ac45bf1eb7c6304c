import Yubtc.Finalization
import Yubtc.SignWalk

/-!
# Finalized inputs over a run

The Finalizer clears the records by which the Signer knows that it has signed, and the Signer does
not look at the final fields. A run in which no key comes back to a finalized input of its own
leaves every finalized input alone.
-/
namespace Yubtc.Permanence

open Wire Errors ExceptRules Crypto Script Transaction PsbtData PsbtCodec PsbtRoles Signer SignWalk
  Finalizer QuorumPsbt QuorumSigning Finalization

variable {P : Primitives}

variable (P) in
/-- A role that changes a PSBT in place. -/
inductive Action where
  | sign (index : Nat) (key : P.PrivateKey)
  | finalizeInput (index : Nat)
  | finalize

/-- What an action leaves behind, also when it fails. -/
def Action.apply (psbt : Psbt) : Action P → Psbt
  | .sign index key => leftBehind (signPsbtInput P index key psbt)
  | .finalizeInput index => leftBehind (finalizePsbtInput P index psbt)
  | .finalize => leftBehind (finalizePsbt P psbt)

/-- The states of the runs all of whose actions are allowed where they are taken. -/
inductive Leads (allowed : Psbt → Action P → Prop) (base : Psbt) : Psbt → Prop
  | refl : Leads allowed base base
  | step {psbt : Psbt} (action : Action P) (h : Leads allowed base psbt)
    (ha : allowed psbt action) : Leads allowed base (action.apply psbt)

/-- In every state, a final input holds no intermediate records, and it stays as it is. -/
def Permanent (allowed : Psbt → Action P → Prop) (base : Psbt) : Prop :=
  ∀ mid, Leads allowed base mid → ∀ (i : Nat) input, mid.inputs[i]? = some input →
    IsFinal input → Cleared input ∧ ∀ later, Leads allowed mid later →
      later.inputs[i]? = some input

/-- What a key-path signature needs besides the key: the outputs of all inputs, and a tweaked
secret in range. The key-hash forms need nothing. -/
def Signable (psbt : Psbt) (key : P.PrivateKey) : Form → Prop
  | .legacy _ | .p2wpkh _ => True
  | .p2tr _ => (spendContext psbt).isSome = true ∧
    (P.privateKey (toBytesBig 32 (taprootTweakedScalar P key))).isSome = true

/-- Signing a final input with the key its single-key output commits to. -/
def Resigns (psbt : Psbt) : Action P → Prop
  | .sign index key => ∃ input scriptPubkey amount form, psbt.inputs[index]? = some input ∧
    IsFinal input ∧ inputUtxoData psbt index = some (scriptPubkey, amount) ∧
    ownForm P scriptPubkey (privkey2pubkey P key) = .ok (some form) ∧ Signable psbt key form
  | .finalizeInput _ | .finalize => False

theorem signable_of_signature {psbt : Psbt} {i : Nat} {scriptPubkey sig : Bytes} {amount : UInt64}
    {form : Form} {key : P.PrivateKey}
    (h : keySignature P psbt i scriptPubkey amount form key = .ok (some sig)) :
    Signable psbt key form := by
  cases form with
  | legacy hash => trivial
  | p2wpkh hash => trivial
  | p2tr output =>
    rw [keySignature] at h
    cases hspend : spendContext psbt with
    | none =>
      rw [hspend] at h
      cases h
    | some spend =>
      rw [hspend] at h
      obtain ⟨sighash, -, h⟩ := bind_eq_ok.mp h
      obtain ⟨sig', hsign, -⟩ := bind_eq_ok.mp h
      rw [taprootSignSighash] at hsign
      constructor
      · rw [hspend]
        rfl
      · cases hsecret : P.privateKey (toBytesBig 32 (taprootTweakedScalar P key)) with
        | none =>
          rw [hsecret] at hsign
          cases hsign
        | some tweaked => rfl

theorem signKey_own_form {psbt : Psbt} {i : Nat} {input : PsbtIn} {scriptPubkey : Bytes}
    {amount : UInt64} {key : P.PrivateKey} {o : SignOutcome}
    (h : signKey P psbt i input scriptPubkey amount key = .ok o) (ho : Adds o) :
    ∃ form, ownForm P scriptPubkey (privkey2pubkey P key) = .ok (some form) ∧
      Signable psbt key form := by
  obtain ⟨own, hown, h⟩ := bind_eq_ok.mp h
  cases own with
  | none =>
    cases h
    exact ho.elim
  | some form =>
    obtain ⟨_, -, h⟩ := bind_eq_ok.mp h
    obtain ⟨_, -, h⟩ := bind_eq_ok.mp h
    rcases ite_eq_ok.mp h with ⟨-, h⟩ | ⟨-, h⟩
    · cases h
      exact ho.elim
    · obtain ⟨sig, hsig, h⟩ := bind_eq_ok.mp h
      cases sig with
      | none =>
        cases h
        exact ho.elim
      | some sig => exact ⟨form, hown, signable_of_signature hsig⟩

/-- Without its script a quorum cannot be signed. -/
theorem signMultisig_bare {psbt : Psbt} {i : Nat} {input : PsbtIn} {commitment : Bytes → Bytes}
    {committed : Bytes} {signature : Bytes → Except Exn Bytes} {key : P.PrivateKey}
    {o : SignOutcome} :
    signMultisig P none commitment committed signature psbt i input key ≠ .ok o := by
  intro h
  obtain ⟨_, hscript, -⟩ := bind_eq_ok.mp h
  cases hscript

/-- Final inputs hold no intermediate records, and no leaf where the Signer would look for one. -/
structure Sealed (psbt : Psbt) : Prop where
  cleared : ∀ (i : Nat) input, psbt.inputs[i]? = some input → IsFinal input → Cleared input
  leaves : ∀ (i : Nat) input scriptPubkey amount, psbt.inputs[i]? = some input → IsFinal input →
    inputUtxoData psbt i = some (scriptPubkey, amount) → isP2trScript scriptPubkey = true →
    input.tapLeafScripts = []

/-- Final inputs stay. -/
def Stays (psbt psbt' : Psbt) : Prop :=
  ∀ (i : Nat) input, psbt.inputs[i]? = some input → IsFinal input → psbt'.inputs[i]? = some input

theorem Stays.refl (psbt : Psbt) : Stays psbt psbt := fun _ _ hin _ => hin

theorem Stays.trans {a b c : Psbt} (hab : Stays a b) (hbc : Stays b c) : Stays a c := by
  intro i input hin hfinal
  exact hbc i input (hab i input hin hfinal) hfinal

section Steps

variable {psbt : Psbt} {i : Nat} {input r : PsbtIn} {scriptPubkey : Bytes} {amount : UInt64}

/-- A key that signs a final input is a key of its single-key output. -/
theorem resigns_of_adds (h : Sealed psbt) {key : P.PrivateKey} {o : SignOutcome}
    (hin : psbt.inputs[i]? = some input) (hfinal : IsFinal input)
    (ho : signOutcome P psbt i key = .ok o) (hadds : Adds o) : Resigns psbt (.sign i key) := by
  obtain ⟨input', scriptPubkey, amount, hin', hutxo, -⟩ := signOutcome_adds ho hadds
  cases hin.symm.trans hin'
  have hcleared := h.cleared i input hin hfinal
  rw [signOutcome_of_utxo hin hutxo, signBranch, signP2wshMultisig, signP2shMultisig,
    hcleared.witnessScript, hcleared.redeemScript] at ho
  split at ho
  · exact absurd ho signMultisig_bare
  · split at ho
    · exact absurd ho signMultisig_bare
    · split at ho
      · next hp2tr hleaves =>
        rw [h.leaves i input scriptPubkey amount hin hfinal hutxo hp2tr] at hleaves
        cases hleaves
      · obtain ⟨form, hown, hsignable⟩ := signKey_own_form ho hadds
        exact ⟨input, scriptPubkey, amount, form, hin, hfinal, hutxo, hown, hsignable⟩

theorem addOutcome_isFinal {o : SignOutcome} : IsFinal (addOutcome input o) ↔ IsFinal input := by
  cases o <;> exact Iff.rfl

/-- A signature leaves the final inputs alone, unless its key comes back to one. -/
theorem sign_sealed (h : Sealed psbt) {key : P.PrivateKey} (hno : ¬ Resigns psbt (.sign i key)) :
    Sealed (leftBehind (signPsbtInput P i key psbt)) ∧
      Stays psbt (leftBehind (signPsbtInput P i key psbt)) := by
  cases ho : signOutcome P psbt i key with
  | error e =>
    rw [signPsbtInput_error ho]
    exact ⟨h, .refl psbt⟩
  | ok o =>
    rw [signPsbtInput_ok ho]
    by_cases hadds : Adds o
    · have hopen : ∀ input, psbt.inputs[i]? = some input → ¬ IsFinal input := by
        intro input hin hfinal
        exact hno (resigns_of_adds h hin hfinal ho hadds)
      have hstrip := applyOutcome_strip psbt i o
      have hback : ∀ (j : Nat) input, (applyOutcome psbt i o).inputs[j]? = some input →
          IsFinal input → psbt.inputs[j]? = some input := by
        intro j input hin hfinal
        rw [applyOutcome_eq, Psbt.modifyInput, List.getElem?_modify] at hin
        obtain ⟨old, hold, he⟩ := Option.map_eq_some_iff.mp hin
        by_cases hj : i = j
        · subst hj
          rw [if_pos rfl] at he
          exact absurd (addOutcome_isFinal.mp (he ▸ hfinal)) (hopen old hold)
        · rw [if_neg hj] at he
          exact he ▸ hold
      refine ⟨⟨?_, ?_⟩, ?_⟩
      · intro j input hin hfinal
        exact h.cleared j input (hback j input hin hfinal) hfinal
      · intro j input scriptPubkey amount hin hfinal hutxo hp2tr
        have hutxo' := (inputUtxoData_congr hstrip j).symm.trans hutxo
        exact h.leaves j input scriptPubkey amount (hback j input hin hfinal) hfinal hutxo' hp2tr
      · intro j input hin hfinal
        have hj : i ≠ j := by
          rintro rfl
          exact hopen input hin hfinal
        show (applyOutcome psbt i o).inputs[j]? = some input
        rw [applyOutcome_eq, Psbt.modifyInput, List.getElem?_modify_ne _ _ hj]
        exact hin
    · have hsame : applyOutcome psbt i o = psbt := by
        cases o with
        | skip => rfl
        | present => rfl
        | partialSig pubkey sig => exact absurd trivial hadds
        | tapScriptSig entry => exact absurd trivial hadds
      rw [hsame]
      exact ⟨h, .refl psbt⟩

theorem finalizeKey_leaves (h : finalizeKey P i input scriptPubkey = .ok r) :
    r.tapLeafScripts = input.tapLeafScripts := by
  obtain ⟨form, -, h⟩ := bind_eq_ok.mp h
  obtain ⟨-, h⟩ := reject_bind_eq_ok.mp h
  cases form with
  | legacy committed =>
    obtain ⟨_, -, h⟩ := bind_eq_ok.mp h
    obtain ⟨_, -, h⟩ := bind_eq_ok.mp h
    cases h
    rfl
  | p2wpkh committed =>
    obtain ⟨_, -, h⟩ := bind_eq_ok.mp h
    cases h
    rfl
  | p2tr committed =>
    obtain ⟨_, -, h⟩ := bind_eq_ok.mp h
    cases h
    rfl

/-- A finalizer leaves no leaf on a Taproot input. -/
theorem finalBranch_leaves (hp2tr : isP2trScript scriptPubkey = true)
    (h : finalBranch P i input scriptPubkey = .ok r) : r.tapLeafScripts = [] := by
  obtain ⟨-, hp2sh, hp2wsh, -⟩ := forms_of_p2tr (of_decide_eq_true hp2tr)
  rw [finalBranch, if_neg (Bool.eq_false_iff.mp hp2sh), if_neg (Bool.eq_false_iff.mp hp2wsh)] at h
  split at h
  · obtain ⟨_, -, h⟩ := bind_eq_ok.mp h
    obtain ⟨-, h⟩ := reject_bind_eq_ok.mp h
    obtain ⟨_, -, h⟩ := bind_eq_ok.mp h
    obtain ⟨-, h⟩ := reject_bind_eq_ok.mp h
    cases h
    rfl
  · next hno =>
    have hnil : input.tapLeafScripts = [] := by
      cases hleaves : input.tapLeafScripts with
      | nil => rfl
      | cons leaf rest => exact (hno leaf rest hp2tr hleaves).elim
    exact (finalizeKey_leaves h).trans hnil

/-- The finalizer of one input seals it, and leaves the final inputs alone. -/
theorem finalizeInput_sealed (h : Sealed psbt) :
    Sealed (leftBehind (finalizePsbtInput P i psbt)) ∧
      Stays psbt (leftBehind (finalizePsbtInput P i psbt)) := by
  cases ho : finalOutcome P psbt i with
  | error e =>
    rw [finalizePsbtInput_error ho]
    exact ⟨h, .refl psbt⟩
  | ok r =>
    rw [finalizePsbtInput_ok ho]
    show Sealed (Psbt.modifyInput psbt i fun _ => r) ∧ Stays psbt (Psbt.modifyInput psbt i fun _ => r)
    obtain ⟨old, hold, hcase⟩ := finalOutcome_ok ho
    obtain ⟨old', hold', hsame⟩ := finalOutcome_utxos ho
    cases hold.symm.trans hold'
    have hutxos := inputUtxoData_final hold hsame
    have hown : (Psbt.modifyInput psbt i fun _ => r).inputs[i]? = some r := by
      rw [Psbt.modifyInput, List.getElem?_modify_eq, hold]
      rfl
    have hother : ∀ j, i ≠ j →
        (Psbt.modifyInput psbt i fun _ => r).inputs[j]? = psbt.inputs[j]? := by
      intro j hj
      exact List.getElem?_modify_ne _ _ hj
    refine ⟨⟨?_, ?_⟩, ?_⟩
    · intro j input hin hfinal
      by_cases hj : i = j
      · subst hj
        cases hown.symm.trans hin
        rcases hcase with ⟨hfinal, rfl⟩ | ⟨-, scriptPubkey, amount, -, hnew⟩
        · exact h.cleared i r hold hfinal
        · exact hnew.cleared
      · exact h.cleared j input ((hother j hj).symm.trans hin) hfinal
    · intro j input scriptPubkey amount hin hfinal hutxo hp2tr
      rw [hutxos] at hutxo
      by_cases hj : i = j
      · subst hj
        cases hown.symm.trans hin
        rcases hcase with ⟨hfinal, rfl⟩ | ⟨hopen, -⟩
        · exact h.leaves i r scriptPubkey amount hold hfinal hutxo hp2tr
        · rw [finalOutcome_of_utxo hold hopen hutxo] at ho
          exact finalBranch_leaves hp2tr ho
      · exact h.leaves j input scriptPubkey amount ((hother j hj).symm.trans hin) hfinal hutxo hp2tr
    · intro j input hin hfinal
      by_cases hj : i = j
      · subst hj
        cases hold.symm.trans hin
        rcases hcase with ⟨-, rfl⟩ | ⟨hopen, -⟩
        · exact hown
        · exact absurd hfinal hopen
      · exact (hother j hj).trans hin

/-- An allowed action keeps the invariant and the final inputs. -/
theorem apply_sealed (h : Sealed psbt) {action : Action P} (hno : ¬ Resigns psbt action) :
    Sealed (action.apply psbt) ∧ Stays psbt (action.apply psbt) := by
  cases action with
  | sign index key => exact sign_sealed h hno
  | finalizeInput index => exact finalizeInput_sealed h
  | finalize =>
    have hstep : ∀ index s, Sealed s ∧ Stays psbt s →
        Sealed (leftBehind (finalizePsbtInput P index s)) ∧
          Stays psbt (leftBehind (finalizePsbtInput P index s)) := by
      rintro index s ⟨hs, hstays⟩
      obtain ⟨hs', hstays'⟩ := finalizeInput_sealed (P := P) (i := index) hs
      exact ⟨hs', hstays.trans hstays'⟩
    exact leftBehind_finalizeInputs (motive := fun s => Sealed s ∧ Stays psbt s) hstep _
      ⟨h, .refl psbt⟩

end Steps

/-- So does a run of them. -/
theorem leads_sealed {base psbt : Psbt} (hbase : Sealed base)
    (h : Leads (fun psbt (action : Action P) => ¬ Resigns psbt action) base psbt) :
    Sealed psbt ∧ Stays base psbt := by
  induction h with
  | refl => exact ⟨hbase, .refl base⟩
  | step action _ hno ih =>
    obtain ⟨hs, hstays⟩ := apply_sealed ih.1 hno
    exact ⟨hs, ih.2.trans hstays⟩

theorem createInput_open {i : Nat} {vin : PsbtTxIn} {create : CreateInput} {input : PsbtIn}
    (h : createInput P i vin create = .ok input) : ¬ IsFinal input := by
  have hempty : ∀ input : PsbtIn, input.finalScriptsig = none → input.finalScriptwitness = none →
      ¬ IsFinal input := by
    intro input hsig hwitness
    exact not_isFinal.mpr ⟨hsig, hwitness⟩
  unfold createInput at h
  split at h
  · obtain ⟨prev, -, h⟩ := bind_eq_ok.mp h
    cases h
    exact hempty _ rfl rfl
  · split at h
    · obtain ⟨_, -, h⟩ := bind_eq_ok.mp h
      obtain ⟨-, h⟩ := reject_bind_eq_ok.mp h
      obtain ⟨prev, -, h⟩ := bind_eq_ok.mp h
      cases h
      exact hempty _ rfl rfl
    · split at h
      · obtain ⟨_, -, h⟩ := bind_eq_ok.mp h
        obtain ⟨-, h⟩ := reject_bind_eq_ok.mp h
        cases h
        exact hempty _ rfl rfl
      · split at h
        · split at h
          · obtain ⟨_, -, h⟩ := bind_eq_ok.mp h
            obtain ⟨_, -, h⟩ := bind_eq_ok.mp h
            obtain ⟨-, h⟩ := reject_bind_eq_ok.mp h
            obtain ⟨_, -, h⟩ := bind_eq_ok.mp h
            cases h
            exact hempty _ rfl rfl
          · cases h
            exact hempty _ rfl rfl
        · cases h
          exact hempty _ rfl rfl

/-- A created PSBT has no final input. -/
theorem created_sealed {tx : PsbtTransaction} {requests : List CreateInput} {base : Psbt}
    (h : createPsbt P tx requests = .ok base) : Sealed base := by
  have hopen : ∀ (i : Nat) input, base.inputs[i]? = some input → ¬ IsFinal input := by
    intro i input hin
    obtain ⟨vin, create, -, -, hcreate⟩ := (createPsbt_spec h).2.2.2.2 i input hin
    exact createInput_open hcreate
  constructor
  · intro i input hin hfinal
    exact absurd hfinal (hopen i input hin)
  · intro i input _ _ hin hfinal
    exact absurd hfinal (hopen i input hin)

/-- Finalization is permanent in every run of a created PSBT in which no final input is signed
again with the key of its output. -/
theorem finalization_permanent {tx : PsbtTransaction} {requests : List CreateInput} {base : Psbt}
    (h : createPsbt P tx requests = .ok base) :
    Permanent (fun psbt (action : Action P) => ¬ Resigns psbt action) base := by
  intro mid hmid i input hin hfinal
  obtain ⟨hsealed, -⟩ := leads_sealed (created_sealed h) hmid
  refine ⟨hsealed.cleared i input hin hfinal, ?_⟩
  intro later hlater
  exact (leads_sealed hsealed hlater).2 i input hin hfinal

def ownKey : standIn.PrivateKey := (5 : Nat)

/-- One key-hash output of the key. -/
def ownRequest : CreateInput :=
  { amount := 5000
    scriptPubkey := p2wpkhShape.build (hash160 standIn (privkey2pubkey standIn ownKey))
    prevTx := none }

def ownTx : PsbtTransaction :=
  ⟨2, [⟨List.replicate 32 0x22, 0, [], 0xffffffff, []⟩], [⟨4000, [0x51]⟩], 0⟩

def ownPsbt : Psbt where
  version := 0
  unsignedTx := ownTx
  inputs := [witnessInput ownRequest]
  outputs := [⟨[]⟩]
  unknownGlobal := []

theorem ownPsbt_created : createPsbt standIn ownTx [ownRequest] = .ok ownPsbt := by
  decide +kernel

def signOwn : Action standIn := .sign 0 ownKey

def finalizeAll : Action standIn := .finalize

/-- The key signs, the input is finalized, and the key signs again. -/
def resigned : Psbt := signOwn.apply (finalizeAll.apply (signOwn.apply ownPsbt))

theorem resigned_reached : Leads (fun _ (_ : Action standIn) => True) ownPsbt resigned :=
  .step signOwn (.step finalizeAll (.step signOwn .refl trivial) trivial) trivial

theorem signed_after_final : ¬ ∀ tx requests base, createPsbt standIn tx requests = .ok base →
    Permanent (fun _ (_ : Action standIn) => True) base := by
  intro h
  have hstate : ∃ input ∈ resigned.inputs[0]?, IsFinal input ∧ input.partialSigs ≠ [] := by
    decide +kernel
  obtain ⟨input, hin, hfinal, hsigs⟩ := hstate
  have hpermanent := h _ _ _ ownPsbt_created _ resigned_reached 0 input hin hfinal
  exact hsigs hpermanent.1.partialSigs

theorem finalization_permanent_sample :
    Permanent (fun psbt (action : Action standIn) => ¬ Resigns psbt action) ownPsbt :=
  finalization_permanent ownPsbt_created

end Yubtc.Permanence
