import Yubtc.Permanence
import Yubtc.SigningFrame
import Yubtc.Lib.Interleavings

/-!
# The order of calls

A call of the Signer or the Finalizer on one input reads the transaction, the outputs of all inputs
and the map of its own input, and writes that map only. Calls on different inputs are independent,
and so are the calls of two signers on one input.
-/
namespace Yubtc.RoleRuns

open Wire Errors ExceptRules Crypto Script Transaction PsbtData PsbtCodec PsbtRoles Signer SignWalk
  SigningFrame Finalizer Finalization QuorumSigning SignedState
open Interleavings (Independent Reorders onComponent answersOn run)

variable {P : Primitives}

variable (P) in
/-- A call on one input, less its index. -/
inductive Call where
  | sign (key : P.PrivateKey)
  | finalize

/-- What a call returns. -/
inductive Answer where
  | signed (b : Bool)
  | finalized
  deriving DecidableEq, Repr

/-- What a role answers: its value, or the exception it ends with. -/
def answerOf {α : Type} (f : α → Answer) : EStateM.Result Exn Psbt α → Except Exn Answer
  | .ok a _ => .ok (f a)
  | .error e _ => .error e

/-- Answer of a call and the PSBT it leaves behind. -/
def callAt (c : Nat × Call P) (psbt : Psbt) : Except Exn Answer × Psbt :=
  match c.2 with
  | .sign key =>
    (answerOf .signed (signPsbtInput P c.1 key psbt), leftBehind (signPsbtInput P c.1 key psbt))
  | .finalize =>
    (answerOf (fun _ => .finalized) (finalizePsbtInput P c.1 psbt),
      leftBehind (finalizePsbtInput P c.1 psbt))

/-- What a call does to the map of its input. -/
structure Effect where
  answer : Answer
  edit : PsbtIn → PsbtIn

/-- The checks of a call and what they come to. -/
def effect (psbt : Psbt) (c : Nat × Call P) : Except Exn Effect :=
  match c.2 with
  | .sign key => (signOutcome P psbt c.1 key).map fun o =>
      ⟨.signed (decide (o ≠ .skip)), fun input => addOutcome input o⟩
  | .finalize => (finalOutcome P psbt c.1).map fun r => ⟨.finalized, fun _ => r⟩

theorem callAt_ok {psbt : Psbt} {c : Nat × Call P} {e : Effect} (h : effect psbt c = .ok e) :
    callAt c psbt = (.ok e.answer, Psbt.modifyInput psbt c.1 e.edit) := by
  obtain ⟨i, call⟩ := c
  cases call with
  | sign key =>
    obtain ⟨o, ho, rfl⟩ := map_eq_ok.mp h
    simp only [callAt, signPsbtInput_ok ho, answerOf, leftBehind, applyOutcome_eq]
  | finalize =>
    obtain ⟨r, hr, rfl⟩ := map_eq_ok.mp h
    simp only [callAt, finalizePsbtInput_ok hr, answerOf, leftBehind]

/-- A failing call leaves the PSBT as it was. -/
theorem callAt_error {psbt : Psbt} {c : Nat × Call P} {e : Exn} (h : effect psbt c = .error e) :
    callAt c psbt = (.error e, psbt) := by
  obtain ⟨i, call⟩ := c
  cases call with
  | sign key =>
    have ho := map_eq_error.mp h
    simp only [callAt, signPsbtInput_error ho, answerOf, leftBehind]
  | finalize =>
    have hr := map_eq_error.mp h
    simp only [callAt, finalizePsbtInput_error hr, answerOf, leftBehind]

/-- Two PSBTs with the same transaction, the same outputs to spend and the same input map. -/
structure SameView (i : Nat) (psbt psbt' : Psbt) : Prop where
  unsignedTx : psbt'.unsignedTx = psbt.unsignedTx
  utxos : ∀ j, inputUtxoData psbt' j = inputUtxoData psbt j
  input : psbt'.inputs[i]? = psbt.inputs[i]?

/-- The branches of the signer read no other input map. -/
theorem signBranch_view {psbt psbt' : Psbt} (htx : psbt'.unsignedTx = psbt.unsignedTx)
    (hutxos : ∀ j, inputUtxoData psbt' j = inputUtxoData psbt j) (i : Nat) (input : PsbtIn)
    (scriptPubkey : Bytes) (amount : UInt64) (key : P.PrivateKey) :
    signBranch P psbt' i input scriptPubkey amount key =
      signBranch P psbt i input scriptPubkey amount key := by
  have hspend : spendContext psbt' = spendContext psbt := by
    simp only [spendContext, hutxos, htx]
  have hp2sh : p2shSignature P psbt' i key = p2shSignature P psbt i key := by
    funext redeem
    rw [p2shSignature, p2shSignature, htx]
  have hp2wsh : p2wshSignature P psbt' i amount key = p2wshSignature P psbt i amount key := by
    funext redeem
    rw [p2wshSignature, p2wshSignature, htx]
  have hcheck : checkNonWitnessUtxo P psbt' i input = checkNonWitnessUtxo P psbt i input := by
    simp only [checkNonWitnessUtxo, htx]
  have hkey : keySignature P psbt' i scriptPubkey amount =
      keySignature P psbt i scriptPubkey amount := by
    funext form key
    simp only [keySignature, htx, hspend]
  simp only [signBranch, signP2wshMultisig, signP2shMultisig, signMultisig, signP2trScriptpath,
    signKey, hspend, hp2sh, hp2wsh, hcheck, hkey, htx]

theorem signOutcome_view {psbt psbt' : Psbt} {i : Nat} (h : SameView i psbt psbt')
    (key : P.PrivateKey) : signOutcome P psbt' i key = signOutcome P psbt i key := by
  cases hutxo : inputUtxoData psbt i with
  | none => rw [signOutcome_of_none hutxo, signOutcome_of_none ((h.utxos i).trans hutxo)]
  | some utxo =>
    cases hin : psbt.inputs[i]? with
    | none =>
      rw [inputUtxoData_eq_none hin] at hutxo
      cases hutxo
    | some input =>
      rw [signOutcome_of_utxo hin hutxo, signOutcome_of_utxo (h.input.trans hin)
        ((h.utxos i).trans hutxo), signBranch_view h.unsignedTx h.utxos]

theorem effect_view {psbt psbt' : Psbt} {c : Nat × Call P} (h : SameView c.1 psbt psbt') :
    effect psbt' c = effect psbt c := by
  obtain ⟨i, call⟩ := c
  cases call with
  | sign key => simp only [effect, signOutcome_view h]
  | finalize => simp only [effect, finalOutcome, h.input, h.utxos i]

/-- The outputs to spend are as they were after a call. -/
theorem callAt_utxos (psbt : Psbt) (c : Nat × Call P) (j : Nat) :
    inputUtxoData (callAt c psbt).2 j = inputUtxoData psbt j := by
  obtain ⟨i, call⟩ := c
  cases call with
  | sign key =>
    cases ho : signOutcome P psbt i key with
    | error e => simp only [callAt, signPsbtInput_error ho, leftBehind]
    | ok o =>
      simp only [callAt, signPsbtInput_ok ho, leftBehind]
      exact inputUtxoData_congr (applyOutcome_strip psbt i o) j
  | finalize =>
    cases hr : finalOutcome P psbt i with
    | error e => simp only [callAt, finalizePsbtInput_error hr, leftBehind]
    | ok r =>
      simp only [callAt, finalizePsbtInput_ok hr, leftBehind]
      obtain ⟨input, hin, hsame⟩ := finalOutcome_utxos hr
      exact inputUtxoData_final hin hsame j

/-- Calls on other inputs do not change what a call reads. -/
theorem callAt_view (psbt : Psbt) {c d : Nat × Call P} (h : c.1 ≠ d.1) :
    SameView d.1 psbt (callAt c psbt).2 := by
  have hutxos := callAt_utxos psbt c
  cases he : effect psbt c with
  | error e =>
    rw [callAt_error he] at hutxos ⊢
    exact ⟨rfl, hutxos, rfl⟩
  | ok e =>
    rw [callAt_ok he] at hutxos ⊢
    exact ⟨rfl, hutxos, List.getElem?_modify_ne _ _ h⟩

theorem modifyInput_comm {psbt : Psbt} {i j : Nat} {f g : PsbtIn → PsbtIn} (h : i ≠ j) :
    Psbt.modifyInput (Psbt.modifyInput psbt i f) j g =
      Psbt.modifyInput (Psbt.modifyInput psbt j g) i f :=
  congrArg (fun inputs => { psbt with inputs := inputs }) (List.modify_modify_ne f g _ h)

/-- Calls whose effects do not depend on each other and whose edits commute. -/
theorem independent_of_effects {c d : Nat × Call P}
    (hc : ∀ psbt : Psbt, effect (callAt d psbt).2 c = effect psbt c)
    (hd : ∀ psbt : Psbt, effect (callAt c psbt).2 d = effect psbt d)
    (hedits : ∀ (psbt : Psbt) e f, effect psbt c = .ok e → effect psbt d = .ok f →
      Psbt.modifyInput (Psbt.modifyInput psbt c.1 e.edit) d.1 f.edit =
        Psbt.modifyInput (Psbt.modifyInput psbt d.1 f.edit) c.1 e.edit) :
    Independent (callAt (P := P)) c d := by
  have hanswer : ∀ (psbt psbt' : Psbt) (a : Nat × Call P), effect psbt' a = effect psbt a →
      (callAt a psbt').1 = (callAt a psbt).1 := by
    intro psbt psbt' a h
    cases he : effect psbt a with
    | error e => rw [callAt_error he, callAt_error (h.trans he)]
    | ok e => rw [callAt_ok he, callAt_ok (h.trans he)]
  refine ⟨?_, fun psbt => hanswer _ _ c (hc psbt), fun psbt => hanswer _ _ d (hd psbt)⟩
  intro psbt
  have hcd := hc psbt
  have hdc := hd psbt
  cases he : effect psbt c with
  | error e =>
    rw [he] at hcd
    rw [callAt_error hcd, callAt_error he]
  | ok e =>
    cases hf : effect psbt d with
    | error f =>
      rw [hf] at hdc
      rw [callAt_error hdc, callAt_error hf]
    | ok f =>
      rw [he] at hcd
      rw [hf] at hdc
      rw [callAt_ok hcd, callAt_ok hdc, callAt_ok he, callAt_ok hf]
      exact hedits psbt e f he hf

theorem independent_of_ne {c d : Nat × Call P} (h : c.1 ≠ d.1) :
    Independent (callAt (P := P)) c d := by
  apply independent_of_effects
  · exact fun psbt => effect_view (callAt_view psbt h.symm)
  · exact fun psbt => effect_view (callAt_view psbt h)
  · exact fun psbt e f _ _ => modifyInput_comm h

/-- Only the order of the calls on each input counts: runs of signers and finalizers that agree on
it end in one PSBT, and the calls on each input answer the same, one after another, whatever the
PSBT and whatever fails. -/
theorem interleaving_irrelevant (psbt : Psbt) {calls calls' : List (Nat × Call P)}
    (h : ∀ i, onComponent i calls = onComponent i calls') :
    (run callAt calls psbt).2 = (run callAt calls' psbt).2 ∧
      ∀ i, answersOn i (run callAt calls psbt).1 = answersOn i (run callAt calls' psbt).1 :=
  Interleavings.run_of_components (fun _ _ => independent_of_ne) h psbt

/-- Two outputs of one key. -/
def twoInputs : Psbt where
  version := 0
  unsignedTx := ⟨2, [⟨List.replicate 32 0x22, 0, [], 0xffffffff, []⟩,
    ⟨List.replicate 32 0x33, 1, [], 0xffffffff, []⟩], [⟨9000, [0x51]⟩], 0⟩
  inputs := [witnessInput Permanence.ownRequest, witnessInput Permanence.ownRequest]
  outputs := [⟨[]⟩]
  unknownGlobal := []

/-- Both inputs are signed before either is finalized; the finalizer comes once too often. -/
def stageByStage : List (Nat × Call standIn) :=
  [(0, .sign Permanence.ownKey), (1, .sign Permanence.ownKey), (0, .finalize), (1, .finalize),
    (1, .finalize)]

def inputByInput : List (Nat × Call standIn) :=
  [(1, .sign Permanence.ownKey), (1, .finalize), (1, .finalize), (0, .sign Permanence.ownKey),
    (0, .finalize)]

theorem interleaving_irrelevant_sample :
    (∀ input ∈ (run callAt inputByInput twoInputs).2.inputs, IsFinal input) ∧
    (run callAt stageByStage twoInputs).2 = (run callAt inputByInput twoInputs).2 ∧
      ∀ i, answersOn i (run callAt stageByStage twoInputs).1 =
        answersOn i (run callAt inputByInput twoInputs).1 := by
  refine ⟨by decide +kernel, interleaving_irrelevant twoInputs ?_⟩
  intro i
  by_cases hi : i = 0
  · subst hi
    rfl
  · by_cases hi' : i = 1
    · subst hi'
      rfl
    · simp [onComponent, stageByStage, inputByInput, Ne.symm hi, Ne.symm hi']

/-- The form of a key that Taproot signatures are filed under. -/
def xOnly (key : P.PrivateKey) : Bytes := slice (privkey2pubkey P key) 1 33

/-- Other signatures do not count, as long as the key finds as many of its own. -/
theorem signBranch_sigs (psbt : Psbt) (i : Nat) (input : PsbtIn) (scriptPubkey : Bytes)
    (amount : UInt64) {key : P.PrivateKey} {partialSigs : List (Bytes × Bytes)}
    {tapScriptSigs : List TapScriptSig}
    (hsigs : privkey2pubkey P key ∈ partialSigs.map Prod.fst ↔
      privkey2pubkey P key ∈ input.partialSigs.map Prod.fst)
    (htap : ∀ leafHash, (∃ s ∈ tapScriptSigs, s.xOnly = xOnly key ∧ s.leafHash = leafHash) ↔
      ∃ s ∈ input.tapScriptSigs, s.xOnly = xOnly key ∧ s.leafHash = leafHash) :
    signBranch P psbt i { input with partialSigs := partialSigs, tapScriptSigs := tapScriptSigs }
        scriptPubkey amount key = signBranch P psbt i input scriptPubkey amount key := by
  have hrevealed : ∀ leaf, revealedLeaf P
      { input with partialSigs := partialSigs, tapScriptSigs := tapScriptSigs } leaf scriptPubkey =
        revealedLeaf P input leaf scriptPubkey := fun _ => rfl
  have hsighash : checkSighashType
      { input with partialSigs := partialSigs, tapScriptSigs := tapScriptSigs } =
        checkSighashType input := rfl
  have hcheck : checkNonWitnessUtxo P psbt i
      { input with partialSigs := partialSigs, tapScriptSigs := tapScriptSigs } =
        checkNonWitnessUtxo P psbt i input := rfl
  simp only [xOnly] at htap
  simp only [signBranch, signP2wshMultisig, signP2shMultisig, signMultisig, signP2trScriptpath,
    signKey, hrevealed, hsighash, hcheck, hsigs, htap]

section Keys

variable {key other : P.PrivateKey} {input : PsbtIn} {o : SignOutcome}

/-- The entry of one key is none of another key's. -/
theorem signBranch_other (hne : xOnly key ≠ xOnly other) (ho : OwnEntry P input other o)
    (psbt : Psbt) (i : Nat) (scriptPubkey : Bytes) (amount : UInt64) :
    signBranch P psbt i (addOutcome input o) scriptPubkey amount key =
      signBranch P psbt i input scriptPubkey amount key := by
  have hpubkey : privkey2pubkey P key ≠ privkey2pubkey P other := by
    intro he
    exact hne (by rw [xOnly, xOnly, he])
  cases ho with
  | partialSig sig hnew =>
    have hperm := (insert_perm input.partialSigs (fun p => decide (p.1 ≤ privkey2pubkey P other))
      (privkey2pubkey P other, sig)).map Prod.fst
    refine signBranch_sigs psbt i input scriptPubkey amount (hperm.mem_iff.trans ?_)
      fun _ => Iff.rfl
    simp only [List.map_cons, List.mem_cons, hpubkey, false_or]
  | tapScriptSig leaf sig hleaf hnew =>
    have hperm := insert_perm input.tapScriptSigs
      (fun s => TapScriptSig.keyLe s
        ⟨xOnly other, tapscriptLeafHash P leaf.scriptWithVersion.dropLast, sig⟩)
      ⟨xOnly other, tapscriptLeafHash P leaf.scriptWithVersion.dropLast, sig⟩
    apply signBranch_sigs psbt i input scriptPubkey amount Iff.rfl
    intro leafHash
    refine Iff.trans (exists_congr fun s => and_congr_left fun _ => hperm.mem_iff) ?_
    simp only [List.mem_cons, exists_eq_or_imp, hne.symm, false_and, false_or]

theorem keyLe_trans (a b c : TapScriptSig) (hab : TapScriptSig.keyLe a b = true)
    (hbc : TapScriptSig.keyLe b c = true) : TapScriptSig.keyLe a c = true := by
  simp only [TapScriptSig.keyLe, Bool.or_eq_true, decide_eq_true_eq, Bool.and_eq_true] at *
  rcases hab with hab | ⟨hx, hab⟩
  · rcases hbc with hbc | ⟨hy, -⟩
    · exact .inl (List.lt_trans hab hbc)
    · exact .inl (hy ▸ hab)
  · rcases hbc with hbc | ⟨hy, hbc⟩
    · exact .inl (hx ▸ hbc)
    · exact .inr ⟨hx.trans hy, List.le_trans hab hbc⟩

theorem insertPartialSig_comm {a b : Bytes × Bytes} (hne : a.1 ≠ b.1) :
    insertPartialSig (insertPartialSig input a.1 a.2) b.1 b.2 =
      insertPartialSig (insertPartialSig input b.1 b.2) a.1 a.2 := by
  have htrans : ∀ a b c : Bytes × Bytes, decide (a.1 ≤ b.1) = true → decide (b.1 ≤ c.1) = true →
      decide (a.1 ≤ c.1) = true := by
    intro a b c hab hbc
    exact decide_eq_true (List.le_trans (of_decide_eq_true hab) (of_decide_eq_true hbc))
  have hinsert : ∀ a b : Bytes × Bytes, a.1 < b.1 →
      KeyedList.insertBy (fun a b : Bytes × Bytes => decide (a.1 ≤ b.1)) b
          (KeyedList.insertBy (fun a b : Bytes × Bytes => decide (a.1 ≤ b.1)) a input.partialSigs) =
        KeyedList.insertBy (fun a b : Bytes × Bytes => decide (a.1 ≤ b.1)) a
          (KeyedList.insertBy (fun a b : Bytes × Bytes => decide (a.1 ≤ b.1)) b
            input.partialSigs) := by
    intro a b hab
    apply KeyedList.insertBy_comm htrans (decide_eq_true (Std.le_of_lt hab))
    exact fun hba => List.not_le.mpr hab (of_decide_eq_true hba)
  refine congrArg (fun l => { input with partialSigs := l }) ?_
  rcases Std.lt_trichotomy a.1 b.1 with hlt | heq | hgt
  · exact hinsert a b hlt
  · exact absurd heq hne
  · exact (hinsert b a hgt).symm

theorem insertTapScriptSig_comm {a b : TapScriptSig} (hne : a.xOnly ≠ b.xOnly) :
    insertTapScriptSig (insertTapScriptSig input a) b =
      insertTapScriptSig (insertTapScriptSig input b) a := by
  have hinsert : ∀ a b : TapScriptSig, a.xOnly < b.xOnly →
      KeyedList.insertBy TapScriptSig.keyLe b
          (KeyedList.insertBy TapScriptSig.keyLe a input.tapScriptSigs) =
        KeyedList.insertBy TapScriptSig.keyLe a
          (KeyedList.insertBy TapScriptSig.keyLe b input.tapScriptSigs) := by
    intro a b hab
    have hle : TapScriptSig.keyLe a b = true := by
      simp [TapScriptSig.keyLe, hab]
    apply KeyedList.insertBy_comm keyLe_trans hle
    intro hba
    rcases keyLt_of_keyLe hba fun h => (Std.ne_of_lt hab) h.1.symm with hlt | ⟨heq, -⟩
    · exact Std.lt_irrefl (List.lt_trans hab hlt)
    · exact (Std.ne_of_lt hab) heq.symm
  refine congrArg (fun l => { input with tapScriptSigs := l }) ?_
  rcases Std.lt_trichotomy a.xOnly b.xOnly with hlt | heq | hgt
  · exact hinsert a b hlt
  · exact absurd heq hne
  · exact (hinsert b a hgt).symm

/-- Entries of two keys may be added in either order. -/
theorem addOutcome_comm {o' : SignOutcome} (hne : xOnly key ≠ xOnly other)
    (ho : OwnEntry P input key o) (ho' : OwnEntry P input other o') :
    addOutcome (addOutcome input o) o' = addOutcome (addOutcome input o') o := by
  cases ho with
  | partialSig sig _ =>
    cases ho' with
    | partialSig sig' _ =>
      refine insertPartialSig_comm (a := (privkey2pubkey P key, sig))
        (b := (privkey2pubkey P other, sig')) ?_
      exact fun he => hne (congrArg (fun pubkey => slice pubkey 1 33) he)
    | tapScriptSig leaf' sig' _ _ => rfl
  | tapScriptSig leaf sig _ _ =>
    cases ho' with
    | partialSig sig' _ => rfl
    | tapScriptSig leaf' sig' _ _ => exact insertTapScriptSig_comm hne

theorem addOutcome_of_not_adds (h : ¬ Adds o) (input : PsbtIn) : addOutcome input o = input := by
  cases o with
  | skip => rfl
  | present => rfl
  | partialSig pubkey sig => exact absurd trivial h
  | tapScriptSig entry => exact absurd trivial h

theorem applyOutcome_of_not_adds (h : ¬ Adds o) (psbt : Psbt) (i : Nat) :
    applyOutcome psbt i o = psbt := by
  rw [applyOutcome_eq, funext (addOutcome_of_not_adds h)]
  exact congrArg (fun inputs => { psbt with inputs := inputs }) (List.modify_id i _)

/-- What a signature of another key leaves is signed as before. -/
theorem signOutcome_other (hne : xOnly key ≠ xOnly other) (psbt : Psbt) (i : Nat) :
    signOutcome P (callAt (i, .sign other) psbt).2 i key = signOutcome P psbt i key := by
  cases ho : signOutcome P psbt i other with
  | error e => simp only [callAt, signPsbtInput_error ho, leftBehind]
  | ok o =>
    simp only [callAt, signPsbtInput_ok ho, leftBehind]
    by_cases hadds : Adds o
    · obtain ⟨input, hin, hown⟩ := signOutcome_own ho hadds
      have hutxos := inputUtxoData_congr (applyOutcome_strip psbt i o)
      have hin' : (applyOutcome psbt i o).inputs[i]? = some (addOutcome input o) := by
        rw [applyOutcome_eq, Psbt.modifyInput, List.getElem?_modify_eq, hin]
        rfl
      have htx : (applyOutcome psbt i o).unsignedTx = psbt.unsignedTx := by
        rw [applyOutcome_eq]
        rfl
      cases hutxo : inputUtxoData psbt i with
      | none => rw [signOutcome_of_none hutxo, signOutcome_of_none ((hutxos i).trans hutxo)]
      | some utxo =>
        rw [signOutcome_of_utxo hin hutxo, signOutcome_of_utxo hin' ((hutxos i).trans hutxo),
          signBranch_view htx hutxos, signBranch_other hne hown]
    · rw [applyOutcome_of_not_adds hadds]

end Keys

theorem modifyInput_twice (psbt : Psbt) (i : Nat) (f g : PsbtIn → PsbtIn) :
    Psbt.modifyInput (Psbt.modifyInput psbt i f) i g = Psbt.modifyInput psbt i (g ∘ f) :=
  congrArg (fun inputs => { psbt with inputs := inputs }) (List.modify_modify_eq f g i _)

/-- A call of the Signer. -/
def signAt (c : Nat × P.PrivateKey) : Psbt → Except Exn Answer × Psbt := callAt (c.1, .sign c.2)

theorem independent_of_keys {i : Nat} {key other : P.PrivateKey} (hne : xOnly key ≠ xOnly other) :
    Independent (callAt (P := P)) (i, .sign key) (i, .sign other) := by
  apply independent_of_effects
  · intro psbt
    simp only [effect, signOutcome_other hne]
  · intro psbt
    simp only [effect, signOutcome_other hne.symm]
  · intro psbt e f he hf
    obtain ⟨o, ho, rfl⟩ := map_eq_ok.mp he
    obtain ⟨o', ho', rfl⟩ := map_eq_ok.mp hf
    dsimp only
    rw [modifyInput_twice, modifyInput_twice]
    by_cases hadds : Adds o
    · obtain ⟨input, hin, hown⟩ := signOutcome_own ho hadds
      by_cases hadds' : Adds o'
      · obtain ⟨input', hin', hown'⟩ := signOutcome_own ho' hadds'
        cases hin.symm.trans hin'
        have hsame := congrArg (fun r => Psbt.modifyInput psbt i fun _ => r)
          (addOutcome_comm hne hown hown')
        have hfirst := modifyInput_const hin fun input => addOutcome (addOutcome input o) o'
        have hsecond := modifyInput_const hin fun input => addOutcome (addOutcome input o') o
        exact hfirst.trans (hsame.trans hsecond.symm)
      · rw [funext (addOutcome_of_not_adds hadds')]
        rfl
    · rw [funext (addOutcome_of_not_adds hadds)]
      rfl

/-- A repeated call finds its signature in place. -/
theorem independent_self (c : Nat × P.PrivateKey) : Independent (signAt (P := P)) c c := by
  have hagain : ∀ psbt : Psbt, (signAt c (signAt c psbt).2).1 = (signAt c psbt).1 := by
    intro psbt
    cases ho : signOutcome P psbt c.1 c.2 with
    | error e => simp only [signAt, callAt, signPsbtInput_error ho, leftBehind]
    | ok o =>
      by_cases hadds : Adds o
      · have hskip : o ≠ .skip := by
          rintro rfl
          exact hadds
        have hpresent := signPsbtInput_ok (signOutcome_present ho hadds)
        simp only [signAt, callAt, signPsbtInput_ok ho, leftBehind, hpresent, answerOf,
          decide_eq_true hskip]
        rfl
      · have hsame := applyOutcome_of_not_adds hadds psbt c.1
        simp only [signAt, callAt, signPsbtInput_ok ho, leftBehind, hsame]
  exact ⟨fun _ => rfl, hagain, hagain⟩

/-- Two calls of the Signer that may be exchanged: on different inputs, of one key, or of keys that
do not share an x-only key. -/
def Apart (c d : Nat × P.PrivateKey) : Prop := c.1 = d.1 → c.2 = d.2 ∨ xOnly c.2 ≠ xOnly d.2

theorem independent_of_apart {c d : Nat × P.PrivateKey} (h : Apart c d) :
    Independent (signAt (P := P)) c d := by
  obtain ⟨i, key⟩ := c
  obtain ⟨j, other⟩ := d
  by_cases hi : i = j
  · subst hi
    rcases h rfl with heq | hne
    · cases heq
      exact independent_self (i, key)
    · have hind := independent_of_keys (i := i) hne
      exact ⟨hind.state, hind.first, hind.second⟩
  · have hind := independent_of_ne (c := (i, Call.sign key)) (d := (j, Call.sign other)) hi
    exact ⟨hind.state, hind.first, hind.second⟩

/-- The signers of a PSBT may come in any order, on any inputs and any number of times, with forms
of any kind: the PSBT they leave is the same, and every call answers the same. -/
theorem signing_order_irrelevant (psbt : Psbt) {calls calls' : List (Nat × P.PrivateKey)}
    (hperm : calls.Perm calls') (hkeys : ∀ c ∈ calls, ∀ d ∈ calls, Apart c d) :
    (run signAt calls psbt).2 = (run signAt calls' psbt).2 ∧
      (run signAt calls psbt).1.Perm (run signAt calls' psbt).1 :=
  Reorders.run (fun _ _ => independent_of_apart) (.of_perm hperm hkeys) psbt

theorem signing_order_irrelevant_sample :
    (run signAt [(0, Confluence.sampleKey 7), (0, Confluence.sampleKey 11)]
        Confluence.samplePsbt).2 =
      (run signAt [(0, Confluence.sampleKey 11), (0, Confluence.sampleKey 7)]
        Confluence.samplePsbt).2 := by
  have hne : xOnly (Confluence.sampleKey 7) ≠ xOnly (Confluence.sampleKey 11) := by
    decide +kernel
  refine (signing_order_irrelevant Confluence.samplePsbt (.swap _ _ _) ?_).1
  intro c hc d hd _
  simp only [List.mem_cons, List.not_mem_nil, or_false] at hc hd
  rcases hc with rfl | rfl
  · rcases hd with rfl | rfl
    · exact .inl rfl
    · exact .inr hne
  · rcases hd with rfl | rfl
    · exact .inr hne.symm
    · exact .inl rfl

end Yubtc.RoleRuns
