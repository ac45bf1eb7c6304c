import Yubtc.QuorumSize
import Yubtc.SessionSpends

/-!
# From a request to a transaction

`ms_create_psbt` hands a PSBT to the cosigners. Whatever they do with copies of it, a transaction
that can be extracted is the payment that was asked for; and once enough of them have signed, it
can be extracted. A leaf is never satisfied, so its form is left out where scripts are run.
-/
namespace Yubtc.QuorumDelivery

open Wire Errors ExceptRules Crypto Script Quorum Transaction PsbtData PsbtCodec PsbtRoles Signer
  QuorumPsbt QuorumSigning SignedState QuorumFinal Confluence Finalizer Finalization Extraction
  Permanence Wallet FeeLoop Payment QuorumPayment Sizes Conservation QuorumSize Summary TaprootKeys
  KeySpends SessionSpends
open Copies (Run)

variable {P : Primitives} {makeLockScript : String → Except Exn Bytes} {q : MsQuorum P}
  {req : Request P} {fee : Int} {lock : Bytes} {outcome : MsPsbtOutcome}

/-- `ms_create_psbt` has returned this outcome for the request. -/
structure Requested (makeLockScript : String → Except Exn Bytes) (q : MsQuorum P) (req : Request P)
    (fee : Int) (outcome : MsPsbtOutcome) : Prop where
  returned : MsCreatePsbt P makeLockScript req.rawTransaction req.own q.form q.m q.script
    req.quorumAddr req.dst req.selected req.amount req.feekb fee (.ok outcome)

/-- Without an explicit fee the loop decides. -/
theorem requested_of_priced {prepared : Prepared} {best : Candidate PsbtTransaction}
    (hfee : fee ≤ 0) (h : PricedRun makeLockScript q req prepared best outcome) :
    Requested makeLockScript q req fee outcome :=
  ⟨(msCreatePsbt_iff hfee).mpr ⟨prepared, best, h⟩⟩

/-- The PSBT before the own signatures: one input for each selected output, which it knows. -/
structure Handed (q : MsQuorum P) (req : Request P) (lock : Bytes) (sizing : QuorumSizing)
    (txhashes : List (Bytes × UInt32)) (vout : List COut) (base : Psbt) : Prop where
  fresh : FreshPsbt q base
  unsigned : Fresh base
  count : base.inputs.length = req.selected.length
  tx : base.unsignedTx = sizing.transaction txhashes false vout
  coins : ∀ (i : Nat) u, req.selected[i]? = some u → u.amount ≤ 0xffffffffffffffff ∧
    inputUtxoData base i = some (lock, UInt64.ofNat u.amount)
  leaves : q.form ≠ .p2tr → ∀ input ∈ base.inputs, input.tapLeafScripts = []

/-- What the Creator is asked for a selected output. -/
theorem createRequest_output {form : MsForm} {redeem quorumScript : Bytes}
    {raw : String → Except Exn String} {u : Utxo} {create : CreateInput}
    (h : createRequest form redeem quorumScript raw u = .ok create) :
    u.amount ≤ 0xffffffffffffffff ∧ create.amount = UInt64.ofNat u.amount ∧
      create.scriptPubkey = quorumScript := by
  obtain ⟨hle, h⟩ := reject_bind_eq_ok.mp h
  refine ⟨Nat.not_lt.mp hle, ?_⟩
  cases form with
  | p2sh =>
    obtain ⟨prev, -, h⟩ := bind_eq_ok.mp h
    cases h
    exact ⟨rfl, rfl⟩
  | p2wsh =>
    cases h
    exact ⟨rfl, rfl⟩
  | p2tr =>
    cases h
    exact ⟨rfl, rfl⟩

/-- Only outputs of the Taproot shape get a leaf. -/
theorem createInput_leaves {i : Nat} {vin : PsbtTxIn} {create : CreateInput} {input : PsbtIn}
    (hshape : isP2trScript create.scriptPubkey = false)
    (h : createInput P i vin create = .ok input) : input.tapLeafScripts = [] := by
  unfold createInput at h
  split at h
  · obtain ⟨prev, -, h⟩ := bind_eq_ok.mp h
    cases h
    rfl
  · split at h
    · obtain ⟨_, -, h⟩ := bind_eq_ok.mp h
      obtain ⟨-, h⟩ := reject_bind_eq_ok.mp h
      obtain ⟨prev, -, h⟩ := bind_eq_ok.mp h
      cases h
      rfl
    · split at h
      · obtain ⟨_, -, h⟩ := bind_eq_ok.mp h
        obtain ⟨-, h⟩ := reject_bind_eq_ok.mp h
        cases h
        rfl
      · rw [hshape] at h
        split at h
        · cases h
          rfl
        · cases h
          rfl

/-- The Creator's part of a run. -/
theorem createSigned_handed {prepared : Prepared} {paid : VoutResult × Int}
    (hprepare : prepare P q.form q.m q.script req.selected = .ok prepared)
    (hfunded : q.form = .p2sh → Funded req prepared.quorumScript)
    (h : createSigned P req.rawTransaction req.own q.form q.script req.selected prepared paid =
      .ok outcome) :
    ∃ base, Handed q req prepared.quorumScript prepared.sizing prepared.txhashes paid.1.vout base ∧
      signInputs P req.own base = .ok outcome.psbt := by
  obtain ⟨creates, hcreates, h⟩ := bind_eq_ok.mp h
  obtain ⟨base, hbase, h⟩ := bind_eq_ok.mp h
  obtain ⟨psbt, hpsbt, h⟩ := bind_eq_ok.mp h
  cases h
  obtain ⟨quorumScript, hscript, hprepare⟩ := bind_eq_ok.mp hprepare
  obtain ⟨sizing, -, hprepare⟩ := bind_eq_ok.mp hprepare
  obtain ⟨txhashes, htxhashes, hprepare⟩ := bind_eq_ok.mp hprepare
  cases hprepare
  have hfits := msQuorumLockScript_fits hscript
  have hpays : ∀ (i : Nat) vin create, (sizing.transaction txhashes false paid.1.vout).vin[i]? =
      some vin → creates[i]? = some create → PaysQuorum q vin create := by
    intro i vin create hvin hcreate
    obtain ⟨u, hu, hrequest⟩ := mapM_getElem? hcreates i create hcreate
    obtain ⟨outpoint, hget, rfl⟩ :=
      Option.map_eq_some_iff.mp ((List.getElem?_map ..).symm.trans hvin)
    obtain ⟨u', hu', houtpoint⟩ := mapM_getElem? htxhashes i outpoint hget
    cases hu.symm.trans hu'
    apply createRequest_pays hfits hfunded (List.mem_of_getElem? hu) ?_ hrequest
    obtain ⟨txhash, -, houtpoint⟩ := bind_eq_ok.mp houtpoint
    obtain ⟨hn, houtpoint⟩ := reject_bind_eq_ok.mp houtpoint
    cases houtpoint
    exact UInt32.toNat_ofNat_of_lt' (Nat.lt_succ_of_le (Nat.not_lt.mp hn))
  obtain ⟨htx, hlen, -, -, hinputs⟩ := createPsbt_spec hbase
  have hfresh := createPsbt_quorum hbase hpays
  have hcount : base.inputs.length = req.selected.length := by
    rw [hlen]
    show (txhashes.map _).length = _
    rw [List.length_map, mapM_length htxhashes]
  refine ⟨base, ⟨hfresh, created_fresh hbase, hcount, htx, ?_, ?_⟩, hpsbt⟩
  · intro i u hu
    have hi : i < base.inputs.length := by
      rw [hcount]
      exact (List.getElem?_eq_some_iff.mp hu).1
    have hin := List.getElem?_eq_getElem hi
    obtain ⟨vin, create, hvin, hcreate, hmade⟩ := hinputs i _ hin
    obtain ⟨u', hu', hrequest⟩ := mapM_getElem? hcreates i create hcreate
    cases hu.symm.trans hu'
    obtain ⟨hle, hamount, hlock⟩ := createRequest_output hrequest
    have hq := createInput_quorum (hpays i vin create hvin hcreate) hmade
    have hutxo := inputUtxoData_quorum hin (htx.symm ▸ hvin) hq.spends
    rw [hamount, hlock] at hutxo
    exact ⟨hle, hutxo⟩
  · intro hform input hmem
    obtain ⟨i, hin⟩ := List.mem_iff_getElem?.mp hmem
    obtain ⟨vin, create, -, hcreate, hmade⟩ := hinputs i input hin
    obtain ⟨u, -, hrequest⟩ := mapM_getElem? hcreates i create hcreate
    obtain ⟨-, -, hlock⟩ := createRequest_output hrequest
    apply createInput_leaves _ hmade
    rw [hlock]
    cases hcase : q.form with
    | p2sh =>
      rw [hcase] at hfits
      exact (forms_of_p2sh hfits).2.2.2
    | p2wsh =>
      rw [hcase] at hfits
      exact (forms_of_p2wsh hfits).2.2.2
    | p2tr => exact absurd hcase hform

/-- A run of `ms_create_psbt`: what it prepared, what it decided to pay, and the PSBT it signed. -/
structure Parts (makeLockScript : String → Except Exn Bytes) (q : MsQuorum P) (req : Request P)
    (fee : Int) (lock : Bytes) (outcome : MsPsbtOutcome) (prepared : Prepared) (paid : VoutResult)
    (base : Psbt) : Prop where
  prepares : prepare P q.form q.m q.script req.selected = .ok prepared
  pays : QuorumVout makeLockScript prepared.sizing prepared.txhashes req.quorumAddr req.dst
    (amountOf req.selected) req.amount req.feekb fee (.ok (paid, outcome.fee))
  cashback : outcome.cashback = paid.cashback
  amount : outcome.amount = paid.amount
  handed : Handed q req lock prepared.sizing prepared.txhashes paid.vout base
  signs : signInputs P req.own base = .ok outcome.psbt

theorem requested_parts (h : Requested makeLockScript q req fee outcome)
    (hlock : msQuorumLockScript P q.form q.script = .ok lock)
    (hfunded : q.form = .p2sh → Funded req lock) :
    ∃ prepared paid base, Parts makeLockScript q req fee lock outcome prepared paid base := by
  obtain ⟨h⟩ := h
  unfold MsCreatePsbt at h
  cases hprepare : prepare P q.form q.m q.script req.selected with
  | error e =>
    rw [hprepare] at h
    cases h
  | ok prepared =>
    rw [hprepare] at h
    obtain ⟨paid, hpaid, hresult⟩ := h
    obtain ⟨⟨paid, price⟩, rfl, hsigned⟩ := bind_eq_ok.mp hresult.symm
    have hscript : prepared.quorumScript = lock := by
      obtain ⟨quorumScript, hscript, hprep⟩ := bind_eq_ok.mp hprepare
      obtain ⟨sizing, -, hprep⟩ := bind_eq_ok.mp hprep
      obtain ⟨txhashes, -, hprep⟩ := bind_eq_ok.mp hprep
      cases hprep
      exact Except.ok.inj (hscript.symm.trans hlock)
    subst hscript
    obtain ⟨base, hhanded, hsigns⟩ := createSigned_handed hprepare hfunded hsigned
    have hparts : outcome.fee = price ∧ outcome.cashback = paid.cashback ∧
        outcome.amount = paid.amount := by
      obtain ⟨_, -, hsigned⟩ := bind_eq_ok.mp hsigned
      obtain ⟨_, -, hsigned⟩ := bind_eq_ok.mp hsigned
      obtain ⟨_, -, hsigned⟩ := bind_eq_ok.mp hsigned
      cases hsigned
      exact ⟨rfl, rfl, rfl⟩
    obtain ⟨rfl, hcashback, hamount⟩ := hparts
    exact ⟨prepared, paid, base, hprepare, hpaid, hcashback, hamount, hhanded, hsigns⟩

section Sessions

variable {V : Verifier} {base psbt psbt' : Psbt}

theorem signStep_sound {step : Nat × P.PrivateKey} (h : SoundPsbt P V base psbt)
    (hstep : signStep P step psbt = .ok psbt') : SoundPsbt P V base psbt' := by
  have hsound := sign_sound h step.1 step.2
  unfold signStep at hstep
  split at hstep
  · next heq =>
    cases hstep
    rw [heq] at hsound
    exact hsound
  · cases hstep

/-- The own signatures are genuine. -/
theorem signInputs_sound {own : P.PrivateKey} (hbase : Fresh base)
    (h : signInputs P own base = .ok psbt) : SoundPsbt P V base psbt := by
  refine foldlM_induct (motive := fun _ (s : Psbt) => SoundPsbt P V base s) (fresh_sound hbase) ?_ h
  intro _ i _ s s' _ hs hstep
  exact signStep_sound hs hstep

variable {E : Type} [AddCommGroup E] {C : XOnly.Curve E Bytes} {point : P.PublicKey → E}

/-- A session may begin where another has ended. -/
theorem history_sound_from (hP : P.Lawful) (hC : Implements P C point) (hV : Accepts P V)
    (hkeys : ∀ key : P.PrivateKey, FromScalar P key) (h : SoundPsbt P V base psbt)
    {run : Run (Action P)} (hrun : history psbt run = .ok psbt') : SoundPsbt P V base psbt' := by
  refine Run.eval_keeps h ?_ ?_ hrun
  · intro s action s' hs hstep
    cases hstep
    exact apply_sound hP hC hV hkeys hs action
  · exact fun s t r hs ht hjoin => combine_sound hs ht (mapError_eq_ok.mp hjoin)

end Sessions

/-- The final witness of a script behind a hash, if there is one: as many signatures as the
placeholder has, and none of them longer. -/
def FullWitness (q : MsQuorum P) (input : PsbtIn) : Prop :=
  ∀ witness, input.finalScriptwitness = some witness → ∃ sigs, sigs.length = q.m ∧
    (∀ sig ∈ sigs, sig.length ≤ msSigSizeEstimate) ∧
    witness = encodeWitnessStack (makeMultisigWitness q.script sigs)

/-- A stack of signatures with a quorum's script is read back. -/
theorem multisigWitness_read (q : MsQuorum P) {sigs : List Bytes} (hcount : sigs.length ≤ 15)
    (hsigs : ∀ sig ∈ sigs, sig.length ≤ msSigSizeEstimate) :
    decodeWitnessStack (encodeWitnessStack (makeMultisigWitness q.script sigs)) =
      .ok (makeMultisigWitness q.script sigs) := by
  apply stack_read
  · simp only [makeMultisigWitness, List.cons_append, List.length_cons, List.length_append,
      List.length_nil]
    omega
  · intro item hitem
    cases QuorumSpend.mem_items hitem with
    | inl he => simp [he]
    | inr hitem =>
      cases hitem with
      | inl hmem => exact (hsigs item hmem).trans (by decide)
      | inr he => exact he ▸ (script_length q).trans (by decide)

/-- So is one of slots with the script and a control block. -/
theorem tapscriptWitness_read (q : MsQuorum P) {controlBlock : Bytes} {slots : List (Option Bytes)}
    (hcontrol : controlBlock.length = 33) (hcount : slots.length ≤ 15)
    (hslots : ∀ slot ∈ slots, ∀ sig ∈ slot, sig.length = 64) :
    decodeWitnessStack (encodeWitnessStack
        (makeMultisigTapscriptWitness q.script controlBlock slots)) =
      .ok (makeMultisigTapscriptWitness q.script controlBlock slots) := by
  apply stack_read
  · simp only [makeMultisigTapscriptWitness, List.length_append, List.length_map,
      List.length_reverse, List.length_cons, List.length_nil]
    omega
  · intro item hitem
    simp only [makeMultisigTapscriptWitness, List.mem_append, List.mem_map, List.mem_reverse,
      List.mem_cons, List.not_mem_nil, or_false] at hitem
    rcases hitem with ⟨slot, hslot, rfl⟩ | rfl | rfl
    · cases slot with
      | none => exact Nat.zero_le _
      | some sig =>
        rw [Option.getD_some, hslots _ hslot sig rfl]
        decide
    · exact (script_length q).trans (by decide)
    · rw [hcontrol]
      decide

theorem fullWitness_strip (psbt : Psbt) : (∀ input ∈ (stripPsbt psbt).inputs, FullWitness q input) ↔
    ∀ input ∈ psbt.inputs, FullWitness q input :=
  List.forall_mem_map

section Sizes

variable {V : Verifier} {base psbt psbt' : Psbt} {i : Nat} {first input r : PsbtIn}
  {scriptPubkey : Bytes} {amount : UInt64} {sizing : QuorumSizing}
  {txhashes : List (Bytes × UInt32)} {vout : List COut}

/-- The finalizer takes signatures of keys, which are short. -/
theorem finalizeP2wsh_full (hP : P.Lawful)
    (hsound : SoundInput P V base i first scriptPubkey amount input)
    (hlock : isP2wshScript scriptPubkey = true) (hfirst : first.witnessScript = some q.script)
    (hquorum : quorumScript q.script = .ok (q.m, q.keys))
    (h : finalizeP2wshMultisig P i input scriptPubkey = .ok r) : FullWitness q r := by
  obtain ⟨⟨redeem, sigs⟩, hfound, h⟩ := bind_eq_ok.mp h
  cases h
  obtain ⟨m, keys, hredeem, hextract, -, -, -, hcount, rfl⟩ := finalizeMultisig_eq_ok.mp hfound
  cases (hsound.witnessScript redeem hredeem).symm.trans hfirst
  cases hextract.symm.trans (mapError_eq_ok.mp hquorum)
  intro witness hwitness
  cases hwitness
  refine ⟨_, ?_, ?_, rfl⟩
  · rw [List.length_take]
    omega
  · intro sig hsig
    obtain ⟨key, -, hfind⟩ := List.mem_filterMap.mp (List.mem_of_mem_take hsig)
    obtain ⟨p, hp, rfl⟩ := Option.map_eq_some_iff.mp hfind
    obtain ⟨signer, -, hmade⟩ :=
      genuine_p2wsh hlock hfirst (hsound.sigs p (List.mem_of_find?_eq_some hp))
    obtain ⟨digest, -, hmade⟩ := bind_eq_ok.mp hmade
    rw [← Except.ok.inj hmade]
    exact ecdsa_length hP signer digest

/-- An input of the witness script form, as the roles find it. -/
theorem Handed.p2wsh (h : Handed q req lock sizing txhashes vout base) (hform : q.form = .p2wsh)
    (hin : base.inputs[i]? = some first) : ∃ amount, At base i first lock amount ∧
      isP2wshScript lock = true ∧ first.witnessScript = some q.script ∧
      quorumScript q.script = .ok (q.m, q.keys) := by
  have hi : i < req.selected.length := h.count ▸ (List.getElem?_eq_some_iff.mp hin).1
  obtain ⟨-, hutxo⟩ := h.coins i _ (List.getElem?_eq_getElem hi)
  obtain ⟨vin, output, hvin, hq⟩ := h.fresh.inputs i first hin
  have hcommits := hq.commits
  rw [Commits, hform] at hcommits
  obtain ⟨hfits, hscript, hquorum, -⟩ := hcommits
  have hknown := (inputUtxoData_quorum hin hvin hq.spends).symm.trans hutxo
  obtain ⟨rfl, -⟩ := Prod.mk.inj (Option.some.inj hknown)
  exact ⟨_, ⟨hin, hutxo⟩, (forms_of_p2wsh hfits).2.2.1, hscript, hquorum⟩

variable (P V) in
/-- The invariant of a session of the witness script form. -/
structure Filled (q : MsQuorum P) (base psbt : Psbt) : Prop where
  sound : SoundPsbt P V base psbt
  full : ∀ input ∈ psbt.inputs, FullWitness q input

theorem sign_filled (h : Filled P V q base psbt) (i : Nat) (key : P.PrivateKey) :
    Filled P V q base (leftBehind (signPsbtInput P i key psbt)) := by
  refine ⟨sign_sound h.sound i key, ?_⟩
  cases ho : signOutcome P psbt i key with
  | error e =>
    rw [signPsbtInput_error ho]
    exact h.full
  | ok o =>
    rw [signPsbtInput_ok ho]
    have hstrip := applyOutcome_strip psbt i o
    exact (fullWitness_strip _).mp (hstrip ▸ (fullWitness_strip psbt).mpr h.full)

variable {E : Type} [AddCommGroup E] {C : XOnly.Curve E Bytes} {point : P.PublicKey → E}
  (hP : P.Lawful) (hC : Implements P C point) (hV : Accepts P V)
  (hkeys : ∀ key : P.PrivateKey, FromScalar P key)
  (hhanded : Handed q req lock sizing txhashes vout base) (hform : q.form = .p2wsh)

include hP hC hV hkeys hhanded hform

theorem finalizeInput_filled (h : Filled P V q base psbt) (i : Nat) :
    Filled P V q base (leftBehind (finalizePsbtInput P i psbt)) := by
  refine ⟨finalizeInput_sound hP hC hV hkeys h.sound i, ?_⟩
  cases ho : finalOutcome P psbt i with
  | error e =>
    rw [finalizePsbtInput_error ho]
    exact h.full
  | ok r =>
    rw [finalizePsbtInput_ok ho]
    obtain ⟨input, hin, -⟩ := finalOutcome_ok ho
    have hr : FullWitness q r := by
      by_cases hfinal : IsFinal input
      · rw [finalOutcome_of_final hin hfinal] at ho
        cases ho
        exact h.full _ (List.mem_of_getElem? hin)
      · have hi : i < base.inputs.length := by
          rw [h.sound.kept.inputs.length_eq]
          exact (List.getElem?_eq_some_iff.mp hin).1
        obtain ⟨amount, hat, hlock, hfirst, hquorum⟩ :=
          hhanded.p2wsh hform (List.getElem?_eq_getElem hi)
        have hforms := forms_of_p2wsh (of_decide_eq_true hlock)
        rw [finalOutcome_of_utxo hin hfinal ((h.sound.utxos i).trans hat.utxo), finalBranch,
          hforms.2.1, hforms.2.2.1] at ho
        exact finalizeP2wsh_full hP (h.sound.inputs i _ _ _ hat _ hin) hlock hfirst hquorum ho
    intro other hother
    obtain ⟨j, hj⟩ := List.mem_iff_getElem?.mp hother
    replace hj : (Psbt.modifyInput psbt i fun _ => r).inputs[j]? = some other := hj
    have hget : (Psbt.modifyInput psbt i fun _ => r).inputs[j]? =
        (fun input => if i = j then r else input) <$> psbt.inputs[j]? :=
      List.getElem?_modify _ _ _ _
    rw [hget, Option.map_eq_map, Option.map_eq_some_iff] at hj
    obtain ⟨old, hold, rfl⟩ := hj
    split
    · exact hr
    · exact h.full old (List.mem_of_getElem? hold)

theorem apply_filled (h : Filled P V q base psbt) (action : Action P) :
    Filled P V q base (action.apply psbt) := by
  cases action with
  | sign index key => exact sign_filled h index key
  | finalizeInput index => exact finalizeInput_filled hP hC hV hkeys hhanded hform h index
  | finalize =>
    apply leftBehind_finalizeInputs _ _ h
    intro index s hs
    exact finalizeInput_filled hP hC hV hkeys hhanded hform hs index

omit hP hC hV hkeys hhanded hform in
theorem combine_filled {a b : Psbt} (ha : Filled P V q base a) (hb : Filled P V q base b)
    (h : combinePsbt a b = .ok psbt) : Filled P V q base psbt := by
  refine ⟨combine_sound ha.sound hb.sound h, ?_⟩
  have htx := ha.sound.kept.unsignedTx.trans hb.sound.kept.unsignedTx.symm
  obtain ⟨-, hinputs, -⟩ := (Combine.combinePsbt_eq_ok htx).mp h
  intro input hmem witness hwitness
  obtain ⟨i, hin⟩ := List.mem_iff_getElem?.mp hmem
  obtain ⟨pair, hpair, hmerge⟩ := mapM_getElem? hinputs i input hin
  obtain ⟨hpa, hpb⟩ := List.getElem?_zip_eq_some.mp hpair
  cases mergeField_some (Combine.mergeInput_eq_ok.mp hmerge).finalScriptwitness hwitness with
  | inl hfrom => exact ha.full _ (List.mem_of_getElem? hpa) witness hfrom
  | inr hfrom => exact hb.full _ (List.mem_of_getElem? hpb) witness hfrom

theorem history_filled (h : Filled P V q base psbt) {run : Run (Action P)}
    (hrun : history psbt run = .ok psbt') : Filled P V q base psbt' := by
  refine Run.eval_keeps h ?_ ?_ hrun
  · intro s action s' hs hstep
    cases hstep
    exact apply_filled hP hC hV hkeys hhanded hform hs action
  · exact fun s t r hs ht hjoin => combine_filled hs ht (mapError_eq_ok.mp hjoin)

omit hP hC hV hkeys in
/-- An input is extracted with signatures where its placeholder was. -/
theorem Filled.extracted (h : Filled P V q base psbt) (hin : psbt.inputs[i]? = some input)
    {vin : PsbtTxIn} (hvin : extractInput psbt i input = .ok vin) :
    ∃ old sigs, psbt.unsignedTx.vin[i]? = some old ∧ sigs.length = q.m ∧
      (∀ sig ∈ sigs, sig.length ≤ msSigSizeEstimate) ∧
      { old with script := [], witness := makeMultisigWitness q.script sigs } = vin := by
  have hi : i < base.inputs.length := by
    rw [h.sound.kept.inputs.length_eq]
    exact (List.getElem?_eq_some_iff.mp hin).1
  obtain ⟨amount, hat, hlock, -⟩ := hhanded.p2wsh hform (List.getElem?_eq_getElem hi)
  obtain ⟨hnone, hp2sh, -⟩ := forms_of_p2wsh (of_decide_eq_true hlock)
  obtain ⟨scriptPubkey, amount', hutxo, hcase⟩ := extractInput_eq_ok.mp hvin
  cases ((h.sound.utxos i).trans hat.utxo).symm.trans hutxo
  rcases hcase with ⟨⟨hash, hlegacy⟩ | ⟨hscript, -⟩, -⟩ |
    ⟨-, stack, ⟨witness, hwitness, hdecode⟩, old, hold, rfl⟩
  · cases hnone.symm.trans hlegacy
  · cases hp2sh.symm.trans hscript
  · obtain ⟨sigs, hcount, hsmall, rfl⟩ := h.full input (List.mem_of_getElem? hin) witness hwitness
    have hq := q.isQuorum_keys
    have hbound : q.keys.length ≤ 15 := hq.bound
    have hm : q.m ≤ 15 := hq.threshold.trans hbound
    have hread := multisigWitness_read q (hcount.trans_le hm) hsmall
    cases hread.symm.trans hdecode
    exact ⟨old, sigs, hold, hcount, hsmall, rfl⟩

omit hP hC hV hkeys in
/-- So the transaction is no larger than it was priced. -/
theorem Filled.vsize_le (h : Filled P V q base psbt) (hsizing : SizesQuorum q sizing)
    {stx : PsbtTransaction} (hx : extractTransaction psbt = .ok stx) :
    vsize stx ≤ vsize (sizing.transaction txhashes true vout) := by
  have htx := h.sound.kept.unsignedTx.trans hhanded.tx
  have hne : sizing.form ≠ .p2sh := by
    rw [hsizing.form, hform]
    decide
  have hcount : psbt.inputs.length = txhashes.length := by
    rw [← h.sound.kept.inputs.length_eq, hhanded.fresh.count, hhanded.tx]
    exact List.length_map _
  obtain ⟨vins, hvins, rfl⟩ := extractTransaction_eq_ok.mp hx
  have hlen : vins.length = txhashes.length := by
    rw [mapM_length hvins, List.length_zipIdx, hcount]
  apply vsize_le_of_within
  · rw [htx]
    rfl
  · show List.Forall₂ Within vins (sizing.buildVin txhashes true)
    rw [buildVin_witness hne, List.forall₂_iff_get]
    refine ⟨by rw [hlen, vinWith, List.length_map], ?_⟩
    intro i hi hi'
    have hlt : i < txhashes.length := hlen ▸ hi
    have hin := List.getElem?_eq_getElem (hcount ▸ hlt)
    obtain ⟨vin, hvin, hextract⟩ := extracted_getElem? hvins hin
    rw [List.getElem?_eq_getElem hi] at hvin
    obtain ⟨old, sigs, hold, hsigs, hsmall, hmade⟩ := h.extracted hhanded hform hin hextract
    rw [htx, QuorumSizing.transaction, buildVin_unsigned, vinWith, List.getElem?_map,
      List.getElem?_eq_getElem hlt, Option.map_some, Option.some.injEq] at hold
    have hsized : [] :: List.replicate sigs.length (List.replicate msSigSizeEstimate 0) ++
        [q.script] = sizing.sizedWitness true := by
      rw [sizedWitness_p2wsh (hsizing.form.trans hform), hsizing.m, hsizing.redeem, hsigs]
    have hfull : sizing.sizedWitness true ≠ [] := by
      rw [← hsized]
      exact List.cons_ne_nil _ _
    have hle : witnessSize (makeMultisigWitness q.script sigs) ≤ _ := witnessSize_p2wsh hsmall
    rw [hsized] at hle
    simp only [List.get_eq_getElem, vinWith, List.getElem_map]
    rw [Option.some.inj hvin, ← hmade, ← hold]
    exact ⟨le_rfl, hle, fun hnil => absurd hnil hfull⟩

end Sizes

/-- At an ordinary rate the candidate that the loop returns pays for its size. -/
theorem quorumLoop_pays {s : QuorumSizing} {txhashes : List (Bytes × UInt32)}
    {quorumAddr dst : String} {inAmount amount feekb : Int} {best : Candidate PsbtTransaction}
    (hrate : minRelayTxFee ≤ feekb)
    (h : FeeLoopReturns (quorumPricing makeLockScript s txhashes quorumAddr dst inAmount amount
      feekb) feekb (.ok best)) :
    pays feekb minRelayTxFee (vsize best.tx) best.fee ∧
      best.tx = s.transaction txhashes true best.vout.vout := by
  constructor
  · obtain ⟨tried, htried, hbest⟩ := id h
    obtain ⟨bySize, rfl, -⟩ := bind_eq_ok.mp hbest.symm
    have hgathered := (feeLoop_gathered htried).1
    obtain ⟨entry, hentry, hpays⟩ := hgathered.exists_pays hrate fun _ _ => rfl
    obtain ⟨htries, hbuild, hsize⟩ := hgathered.sound entry hentry
    rw [hsize] at hpays
    exact feeLoop_pays h htries hbuild hpays
  · obtain ⟨-, hbuild⟩ := feeLoop_sound h
    obtain ⟨voutResult, -, hbuild⟩ := bind_eq_ok.mp hbuild
    obtain ⟨rfl, htx⟩ := Prod.mk.inj (Except.ok.inj hbuild)
    exact htx.symm

/-- The outputs that the request spends. -/
def selectedCoins (req : Request P) (lock : Bytes) : List SpendInput :=
  req.selected.map fun u => ⟨u.amount, lock⟩

variable (V : Verifier)

/-- A transaction is the payment that was asked for: it spends the selected outputs in order, pays
the destination and the change, and leaves the fee that was reported. Each of its inputs satisfies
the script of the quorum. -/
structure Delivers (makeLockScript : String → Except Exn Bytes) (q : MsQuorum P) (req : Request P)
    (lock : Bytes) (outcome : MsPsbtOutcome) (stx : PsbtTransaction) : Prop where
  inputs : List.Forall₂ (fun u vin => outpointOf u = .ok (vin.txhash, vin.n)) req.selected stx.vin
  outputs : ∃ vout, stx.vout = vout.map (fun o => ⟨o.amount, o.script⟩) ∧
    Conserves makeLockScript req.quorumAddr req.dst (amountOf req.selected) vout outcome.cashback
      outcome.amount outcome.fee
  spends : q.form ≠ .p2tr → ∀ (i : Nat) vin coin, stx.vin[i]? = some vin →
    (selectedCoins req lock)[i]? = some coin → Spends P V stx (selectedCoins req lock) i vin coin

section Delivery

variable {V} {prepared : Prepared} {paid : VoutResult} {base psbt : Psbt} {stx : PsbtTransaction}

/-- The digests of a session are made with the selected outputs. -/
theorem Handed.context {sizing : QuorumSizing} {txhashes : List (Bytes × UInt32)}
    {vout : List COut} (h : Handed q req lock sizing txhashes vout base) {known : List SpendInput}
    (hknown : spendContext base = some known) : known = selectedCoins req lock := by
  have hlen : known.length = req.selected.length := by
    rw [(spendContext_amounts hknown).1, ← h.fresh.count, h.count]
  apply List.ext_getElem
  · rw [hlen, selectedCoins, List.length_map]
  · intro i hi hi'
    have hu := List.getElem?_eq_getElem (hlen ▸ hi : i < req.selected.length)
    obtain ⟨hle, hutxo⟩ := h.coins i _ hu
    obtain ⟨scriptPubkey, amount, hutxo', he⟩ :=
      spendContext_getElem hknown (List.getElem?_eq_getElem hi)
    cases hutxo.symm.trans hutxo'
    have hamount : (UInt64.ofNat req.selected[i].amount).toNat = req.selected[i].amount :=
      UInt64.toNat_ofNat_of_lt' (Nat.lt_succ_of_le hle)
    rw [he, hamount]
    simp only [selectedCoins, List.getElem_map]

/-- Whatever a session has made of the PSBT, what can be extracted is the payment. -/
theorem Parts.delivers (h : Parts makeLockScript q req fee lock outcome prepared paid base)
    (hsound : SoundPsbt P V base psbt) (hx : extractTransaction psbt = .ok stx) :
    Delivers V makeLockScript q req lock outcome stx := by
  obtain ⟨hcompletes, known, hknown, hcount, hspends⟩ :=
    extract_spends h.handed.unsigned hsound hx
  obtain rfl := h.handed.context hknown
  have htx := h.handed.tx
  obtain ⟨quorumScript, -, hprepare⟩ := bind_eq_ok.mp h.prepares
  obtain ⟨sizing, -, hprepare⟩ := bind_eq_ok.mp hprepare
  obtain ⟨txhashes, htxhashes, hprepare⟩ := bind_eq_ok.mp hprepare
  cases hprepare
  refine ⟨?_, ⟨paid.vout, ?_, ?_⟩, ?_⟩
  · have hvin := hcompletes.vin
    rw [htx, QuorumSizing.transaction, buildVin_unsigned, vinWith, List.forall₂_map_left_iff] at hvin
    have houtpoints := mapM_eq_ok.mp htxhashes
    apply forall₂_comp _ houtpoints hvin
    intro u outpoint vin houtpoint hsame
    rw [houtpoint, hsame.1, hsame.2.1]
  · rw [hcompletes.vout, htx]
    rfl
  · rw [h.cashback, h.amount]
    exact quorumVout_conserves h.pays
  · intro hform i vin coin hvin hcoin
    have hi : i < base.inputs.length := by
      rw [h.handed.count]
      have hlt := (List.getElem?_eq_some_iff.mp hcoin).1
      rwa [selectedCoins, List.length_map] at hlt
    have hin := List.getElem?_eq_getElem hi
    exact hspends i _ vin coin hin hvin hcoin (h.handed.leaves hform _ (List.getElem_mem hi))

/-- A session of the witness script form begins with no final field. -/
theorem Parts.filled (h : Parts makeLockScript q req fee lock outcome prepared paid base) :
    Filled P V q base outcome.psbt := by
  refine ⟨signInputs_sound h.handed.unsigned h.signs, ?_⟩
  rw [← fullWitness_strip, signInputs_strip P h.signs, strip_fresh h.handed.fresh]
  intro input hmem witness hwitness
  obtain ⟨i, hin⟩ := List.mem_iff_getElem?.mp hmem
  obtain ⟨vin, output, -, hq⟩ := h.handed.fresh.inputs i input hin
  cases hq.finalScriptwitness.symm.trans hwitness

/-- From `ms_create_psbt` to the network: whatever signers, finalizers and combiners do with copies
of the PSBT, with any keys and any failures, a transaction that can be extracted is the payment that
was asked for. Of the script form this takes a backend whose previous transactions have the selected
outputs. Of the witness script form, without an explicit fee and at no less than the relay rate, it
also pays the rate that was asked for. -/
theorem payment_delivered {E : Type} [AddCommGroup E] {C : XOnly.Curve E Bytes}
    {point : P.PublicKey → E} (hP : P.Lawful) (hC : Implements P C point) (hV : Accepts P V)
    (hkeys : ∀ key : P.PrivateKey, FromScalar P key)
    (h : Requested makeLockScript q req fee outcome)
    (hlock : msQuorumLockScript P q.form q.script = .ok lock)
    (hfunded : q.form = .p2sh → Funded req lock) {run : Run (Action P)}
    (hrun : history outcome.psbt run = .ok psbt) (hx : extractTransaction psbt = .ok stx) :
    Delivers V makeLockScript q req lock outcome stx ∧
      (q.form = .p2wsh → fee ≤ 0 → minRelayTxFee ≤ req.feekb →
        vsize stx * req.feekb / 1000 ≤ outcome.fee) := by
  obtain ⟨prepared, paid, base, hparts⟩ := requested_parts h hlock hfunded
  have hfilled : Filled P V q base outcome.psbt := hparts.filled
  constructor
  · exact hparts.delivers (history_sound_from hP hC hV hkeys hfilled.sound hrun) hx
  · intro hform hfee hrate
    have hpriced := hparts.pays
    rw [QuorumVout, if_neg (not_lt.mpr hfee)] at hpriced
    obtain ⟨best, hloop, hbest⟩ := hpriced
    cases best with
    | error e => cases hbest
    | ok best =>
      obtain ⟨hvout, hprice⟩ := Prod.mk.inj (Except.ok.inj hbest)
      obtain ⟨hpays, hbuilt⟩ := quorumLoop_pays hrate hloop
      obtain ⟨quorumScript, -, hprepare⟩ := bind_eq_ok.mp hparts.prepares
      obtain ⟨sizing, hsizing, hprepare⟩ := bind_eq_ok.mp hprepare
      obtain ⟨txhashes, -, hprepare⟩ := bind_eq_ok.mp hprepare
      cases hprepare
      have hsize := (history_filled hP hC hV hkeys hparts.handed hform hfilled hrun).vsize_le
        hparts.handed hform (quorumSizing_spec hsizing) hx
      rw [hvout, ← hbuilt] at hsize
      rw [hprice]
      have hrate' : (1000 : Int) ≤ req.feekb := hrate
      have hmul : (vsize stx : Int) * req.feekb ≤ vsize best.tx * req.feekb :=
        Int.mul_le_mul_of_nonneg_right (by omega) (by omega)
      exact (Int.ediv_le_ediv (by omega) hmul).trans hpays.1

end Delivery

section Enough

variable {base psbt : Psbt} {i : Nat} {first input : PsbtIn}

/-- What the finalizer assembles for a quorum is extracted. -/
theorem carries_extracted (hP : P.Lawful) (hbase : FreshPsbt q base) {A : Set P.PrivateKey}
    (hin : base.inputs[i]? = some first) (htx : psbt.unsignedTx = base.unsignedTx)
    (hutxo : inputUtxoData psbt i = inputUtxoData base i)
    (h : Carries q (sigOf q base i) (firstSigners q A) input) :
    ∃ vin, extractInput psbt i input = .ok vin := by
  obtain ⟨vin, output, hvin, hq⟩ := hbase.inputs i first hin
  have hknown := hutxo.trans (inputUtxoData_quorum hin hvin hq.spends)
  have hquorum := q.isQuorum_keys
  have hbound : q.keys.length ≤ 15 := hquorum.bound
  have hm : q.m ≤ 15 := hquorum.threshold.trans hbound
  have hcount : (firstSigners q A).length ≤ 15 := (List.length_take_le _ _).trans hm
  have hcommits := hq.commits
  rw [Commits] at hcommits
  rw [Carries] at h
  cases hform : q.form with
  | p2sh =>
    rw [hform] at hcommits h
    obtain ⟨hnone, script, -, hscript⟩ := h
    have hforms := forms_of_p2sh hcommits.1
    exact ⟨_, extractInput_eq_ok.mpr ⟨_, _, hknown, .inl ⟨.inr ⟨hforms.2.1, hnone⟩, script, hscript,
      vin, htx ▸ hvin, rfl⟩⟩⟩
  | p2wsh =>
    rw [hform] at hcommits h
    obtain ⟨hnone, hwitness⟩ := h
    have hforms := forms_of_p2wsh hcommits.1
    have hne : q.form ≠ .p2tr := by
      rw [hform]
      decide
    have hsigs : ∀ sig ∈ (firstSigners q A).map (sigOf q base i),
        sig.length ≤ msSigSizeEstimate := by
      intro sig hmem
      obtain ⟨k, -, rfl⟩ := List.mem_map.mp hmem
      obtain ⟨digest, hsig⟩ := sigOf_ecdsa hbase hin hne k
      rw [hsig]
      exact ecdsa_length hP k digest
    have hread := multisigWitness_read q ((List.length_map _).trans_le hcount) hsigs
    exact ⟨_, extractInput_eq_ok.mpr ⟨_, _, hknown, .inr ⟨.inl ⟨hforms.2.2.1, hnone⟩, _,
      ⟨_, hwitness, hread⟩, vin, htx ▸ hvin, rfl⟩⟩⟩
  | p2tr =>
    rw [hform] at hcommits h
    obtain ⟨hnone, controlBlock, slots, hcontrol, hwitness, -, hslots⟩ := h
    have hforms := forms_of_p2tr hcommits.1
    have hlen : slots.length ≤ 15 := by
      have hordered := congrArg List.length (ordered_map q)
      rw [List.length_map] at hordered
      rw [← hslots.length_eq, hordered]
      exact hbound
    have h64 : ∀ slot ∈ slots, ∀ sig ∈ slot, sig.length = 64 := by
      intro slot hslot sig hmem
      obtain ⟨j, hj, rfl⟩ := List.getElem_of_mem hslot
      have hsig := hslots.get (hslots.length_eq ▸ hj) hj sig hmem
      obtain ⟨digest, hmade⟩ := sigOf_schnorr hbase hin hform _
      rw [hsig, hmade, hP.signSchnorr_length]
    have hread := tapscriptWitness_read q hcontrol hlen h64
    have hstack : TakesStack output.script input := by
      refine .inr ⟨⟨_, hforms.1, ?_⟩, ?_⟩
      · intro hash he
        cases he
      · rintro ⟨hsome, -⟩
        rw [hnone] at hsome
        cases hsome
    exact ⟨_, extractInput_eq_ok.mpr ⟨_, _, hknown, .inr ⟨hstack, _, ⟨_, hwitness, hread⟩, vin,
      htx ▸ hvin, rfl⟩⟩⟩

/-- The own signatures, as steps of a session. -/
def ownRun (own : P.PrivateKey) (count : Nat) : Run (Nat × P.PrivateKey) :=
  ((List.range count).map fun i => (i, own)).foldl Run.add .start

theorem ownRun_eval {own : P.PrivateKey} (h : signInputs P own base = .ok psbt) :
    session P base (ownRun own base.inputs.length) = .ok psbt := by
  rw [session, ownRun, Run.eval_foldl, Run.eval, ok_bind, List.foldlM_map]
  exact h

theorem ownRun_contributions (own : P.PrivateKey) (count : Nat) :
    (ownRun own count).contributions = {step | step.1 < count ∧ step.2 = own} := by
  rw [ownRun, Run.contributions_foldl, Run.contributions, Set.empty_union]
  ext step
  simp only [List.mem_map, List.mem_range, Set.mem_ofPred_eq]
  constructor
  · rintro ⟨i, hi, rfl⟩
    exact ⟨hi, rfl⟩
  · rintro ⟨hi, hown⟩
    exact ⟨step.1, hi, by rw [← hown]⟩

/-- A signed PSBT of a quorum can be finalized and extracted when every input has enough signers. -/
theorem extracts_signed_iff (hP : P.Lawful) (hbase : FreshPsbt q base)
    {S : Set (Nat × P.PrivateKey)} (h : Signed q base S psbt)
    (hS : ∀ step ∈ S, Allowed q base step) :
    (∃ stx, Extracts P psbt stx) ↔
      ∀ i < base.inputs.length, q.m ≤ (signersAt S i).ncard := by
  have hopen : ∀ input ∈ psbt.inputs, ¬ IsFinal input := by
    intro input hmem
    obtain ⟨i, hin⟩ := List.mem_iff_getElem?.mp hmem
    obtain ⟨vin, output, -, hq⟩ := hbase.inputs i _ (h.input hin)
    exact not_isFinal.mpr ⟨hq.finalScriptsig, hq.finalScriptwitness⟩
  have hsettled : ∀ i < base.inputs.length,
      Settled q base (signersAt S i) i (finalOutcome P psbt i) :=
    fun i hi => finalOutcome_signed hP hbase h hS (hbase.count ▸ hi)
  constructor
  · rintro ⟨stx, hx⟩ i hi
    obtain ⟨-, hlen, hall⟩ := (extracts_iff hopen).mp hx
    have hlt : i < stx.vin.length := by rwa [hlen, h.inputs_length]
    obtain ⟨r, hr, -⟩ := hall i _ (List.getElem?_eq_getElem hlt)
    by_contra hfew
    cases ((hsettled i hi).2 hfew).symm.trans hr
  · intro henough
    have hone : ∀ i : Fin base.inputs.length, ∃ vin r, finalOutcome P psbt i = .ok r ∧
        extractInput psbt i r = .ok vin := by
      intro i
      obtain ⟨r, hr, hcarries⟩ := (hsettled i i.2).1 (henough i i.2)
      obtain ⟨vin, hvin⟩ := carries_extracted hP hbase (List.getElem?_eq_getElem i.2) h.unsignedTx
        (h.inputUtxoData i) hcarries
      exact ⟨vin, r, hr, hvin⟩
    choose vin hvin using hone
    refine ⟨{ psbt.unsignedTx with vin := List.ofFn vin }, (extracts_iff hopen).mpr ⟨rfl, ?_, ?_⟩⟩
    · rw [List.length_ofFn, h.inputs_length]
    · intro i one hget
      rw [List.getElem?_ofFn] at hget
      split at hget
      · next hi =>
        cases hget
        exact hvin ⟨i, hi⟩
      · cases hget

/-- Enough signers: whoever signs copies of the PSBT, in any order and with copies combined at
will, the result can be finalized and extracted exactly when every input has the signatures of as
many members as the threshold, the own key among them. -/
theorem payment_extracts_iff (hP : P.Lawful) (h : Requested makeLockScript q req fee outcome)
    (hlock : msQuorumLockScript P q.form q.script = .ok lock)
    (hfunded : q.form = .p2sh → Funded req lock) (hown : req.own ∈ q.members)
    {run : Run (Nat × P.PrivateKey)} (hrun : ∀ step ∈ run.contributions,
      step.1 < req.selected.length ∧ step.2 ∈ q.members) :
    ∃ psbt, session P outcome.psbt run = .ok psbt ∧ ((∃ stx, Extracts P psbt stx) ↔
      ∀ i < req.selected.length, q.m ≤ (insert req.own (signersAt run.contributions i)).ncard) := by
  obtain ⟨prepared, paid, base, hparts⟩ := requested_parts h hlock hfunded
  have hbase := hparts.handed.fresh
  have hcount := hparts.handed.count
  have hcontributions : ((ownRun req.own base.inputs.length).andThen run).contributions =
      {step | step.1 < base.inputs.length ∧ step.2 = req.own} ∪ run.contributions := by
    rw [Run.contributions_andThen, ownRun_contributions]
  have hallowed : ∀ step ∈ ((ownRun req.own base.inputs.length).andThen run).contributions,
      Allowed q base step := by
    intro step hstep
    rw [hcontributions] at hstep
    rw [Allowed, ← hbase.count]
    cases hstep with
    | inl hfirst => exact ⟨hfirst.1, hfirst.2.symm ▸ hown⟩
    | inr hrest =>
      obtain ⟨hi, hmember⟩ := hrun step hrest
      exact ⟨hcount.symm ▸ hi, hmember⟩
  obtain ⟨psbt, hpsbt, hsigned⟩ := (session_grows hbase).eval _ hallowed
  rw [Run.eval_andThen (ownRun_eval hparts.signs)] at hpsbt
  refine ⟨psbt, hpsbt, ?_⟩
  rw [extracts_signed_iff hP hbase hsigned hallowed, hcount]
  apply forall₂_congr
  intro i hi
  have hsigners : signersAt ((ownRun req.own req.selected.length).andThen run).contributions i =
      insert req.own (signersAt run.contributions i) := by
    ext k
    rw [← hcount, hcontributions]
    simp [signersAt, hcount, hi]
  rw [hsigners]

end Enough

/-- Two of three members: the own key and one more. -/
def secondRun : Run (Nat × standIn.PrivateKey) := .add .start (0, Confluence.sampleKey 9)

theorem secondRun_contributions : secondRun.contributions = {(0, Confluence.sampleKey 9)} := by
  simp [secondRun, Run.contributions]

theorem secondRun_allowed : ∀ step ∈ secondRun.contributions,
    step.1 < scriptRequest.selected.length ∧ step.2 ∈ scriptQuorum.members := by
  intro step hstep
  rw [secondRun_contributions, Set.mem_singleton_iff] at hstep
  rw [hstep]
  exact ⟨Nat.one_pos, by simp [scriptQuorum, Confluence.sampleQuorum]⟩

theorem secondRun_count : ∀ i < scriptRequest.selected.length, scriptQuorum.m ≤
    (insert scriptRequest.own (signersAt secondRun.contributions i)).ncard := by
  intro i hi
  obtain rfl : i = 0 := Nat.lt_one_iff.mp hi
  have hsigners : signersAt secondRun.contributions 0 = {Confluence.sampleKey 9} := by
    ext k
    simp [signersAt, secondRun_contributions]
  have hne : Confluence.sampleKey 7 ≠ Confluence.sampleKey 9 := (by decide : (7 : Nat) ≠ 9)
  rw [hsigners]
  exact (Set.ncard_pair hne).ge

theorem scriptRequest_requested : ∃ outcome,
    Requested sampleLockScript scriptQuorum scriptRequest 0 outcome := by
  obtain ⟨outcome, hrun⟩ := scriptRequest_run
  exact ⟨outcome, requested_of_priced le_rfl hrun⟩

theorem payment_extracts_sample : ∃ outcome psbt stx,
    Requested sampleLockScript scriptQuorum scriptRequest 0 outcome ∧
      session standIn outcome.psbt secondRun = .ok psbt ∧ Extracts standIn psbt stx := by
  obtain ⟨outcome, hmade⟩ := scriptRequest_requested
  have hlock : msQuorumLockScript standIn scriptQuorum.form scriptQuorum.script =
      .ok scriptLock := by decide +kernel
  have hown : scriptRequest.own ∈ scriptQuorum.members := by
    simp [scriptRequest, scriptQuorum, Confluence.sampleQuorum]
  have hfunded : scriptQuorum.form = .p2sh → Funded scriptRequest scriptLock :=
    fun _ => scriptRequest_funded
  obtain ⟨psbt, hpsbt, hiff⟩ :=
    payment_extracts_iff standIn_lawful hmade hlock hfunded hown secondRun_allowed
  obtain ⟨stx, hstx⟩ := hiff.mpr secondRun_count
  exact ⟨outcome, psbt, stx, hmade, hpsbt, hstx⟩

/-- A quorum of one key over the stand-in residues. -/
def residueQuorum : MsQuorum residues where
  form := .p2wsh
  m := 1
  members := [residueKey]
  script := redeemBytes 1 (sortedKeys [privkey2pubkey residues residueKey])
  built := by decide +kernel

def residueLock : Bytes := p2wshShape.build (residues.sha256 residueQuorum.script)

def residueRequest : Request residues where
  rawTransaction := fun _ => .ok ""
  own := residueKey
  quorumAddr := "quorum"
  dst := "dst"
  selected := [⟨Net.hex (List.replicate 32 9), 0, 100000, "", 6⟩]
  amount := 5000
  feekb := 1000

def residuePrepared : Prepared :=
  ⟨residueLock, ⟨.p2wsh, 1, residueQuorum.script, 0, []⟩, [(List.replicate 32 9, 0)]⟩

theorem residueLock_ok : msQuorumLockScript residues residueQuorum.form residueQuorum.script =
    .ok residueLock := by
  decide +kernel

theorem residuePrepared_ok : prepare residues residueQuorum.form residueQuorum.m
    residueQuorum.script residueRequest.selected = .ok residuePrepared := by
  have houtpoint : residueRequest.selected.mapM outpointOf = .ok [(List.replicate 32 9, 0)] := by
    rw [residueRequest, List.mapM_cons, Funding.outpointOf_hex]
    rfl
  rw [prepare, residueLock_ok, ok_bind, houtpoint]
  rfl

/-- The outputs at the price of 142 virtual bytes. -/
def residueVout : VoutResult :=
  ⟨[⟨94858, sampleScript⟩, ⟨5000, sampleScript⟩], 94858, 5000⟩

def residueBest : Candidate PsbtTransaction :=
  ⟨142, residueVout, residuePrepared.sizing.transaction residuePrepared.txhashes true
    residueVout.vout⟩

theorem residueRequest_priced :
    FeeLoopReturns (residueRequest.pricing sampleLockScript residuePrepared) residueRequest.feekb
      (.ok residueBest) := by
  obtain ⟨first, hfirst, hsize⟩ := @LowRates.built_of_sizeAt _
    (residueRequest.pricing sampleLockScript residuePrepared) 0 142 (by decide +kernel) (by decide)
  have hvout : makeVout sampleLockScript residueRequest.quorumAddr residueRequest.dst
      (amountOf residueRequest.selected) (some residueRequest.amount) 142 = .ok residueVout := by
    have hback : COut.make 94858 sampleScript = .ok ⟨94858, sampleScript⟩ := by decide +kernel
    have hpay : COut.make 5000 sampleScript = .ok ⟨5000, sampleScript⟩ := by decide +kernel
    simp [makeVout, residueRequest, amountOf, reject, sampleLockScript, ok_bind, hback, hpay,
      residueVout]
  have hpriced : (residueRequest.pricing sampleLockScript residuePrepared).build 142 =
      .ok (residueVout, residueBest.tx) := bind_eq_ok.mpr ⟨residueVout, hvout, rfl⟩
  have hsame : (residueRequest.pricing sampleLockScript residuePrepared).vsize residueBest.tx =
      142 := by decide +kernel
  apply feeLoop_oneSize_priced hfirst (hsize ▸ rfl) hpriced (hsame.trans hsize.symm)
  · rw [hsize]
    decide
  · rw [hsize]
    decide

def residueCreate : CreateInput :=
  { amount := 100000, scriptPubkey := residueLock, prevTx := none
    witnessScript := some residueQuorum.script }

theorem residueRequest_creates : residueRequest.selected.mapM (createRequest residueQuorum.form
    residueQuorum.script residuePrepared.quorumScript residueRequest.rawTransaction) =
      .ok [residueCreate] := by
  have hfits : ¬ (100000 : Nat) > 0xffffffffffffffff := by decide
  rw [residueRequest, List.mapM_cons, createRequest, reject_false _ hfits]
  rfl

/-- The PSBT is signed by the one member, finalized and extracted. -/
def residueHistory : Run (Action residues) := .add .start .finalize

theorem residueRequest_runs : Succeeds (createPsbt residues (residuePrepared.sizing.transaction
    residuePrepared.txhashes false residueVout.vout) [residueCreate] >>= fun base =>
      signInputs residues residueRequest.own base >>= fun signed =>
        history signed residueHistory >>= extractTransaction) := by
  apply succeeds_of_toBool
  decide +kernel

theorem residueRequest_requested {base psbt : Psbt}
    (hbase : createPsbt residues (residuePrepared.sizing.transaction residuePrepared.txhashes false
      residueVout.vout) [residueCreate] = .ok base)
    (hpsbt : signInputs residues residueRequest.own base = .ok psbt) :
    Requested sampleLockScript residueQuorum residueRequest 0
      ⟨psbt, 142, residueVout.cashback, residueVout.amount⟩ := by
  have hcreated : createSigned residues residueRequest.rawTransaction residueRequest.own
      residueQuorum.form residueQuorum.script residueRequest.selected residuePrepared
        (residueBest.vout, residueBest.fee) =
          .ok ⟨psbt, 142, residueVout.cashback, residueVout.amount⟩ := by
    refine bind_eq_ok.mpr ⟨_, residueRequest_creates, bind_eq_ok.mpr ⟨base, hbase, ?_⟩⟩
    exact bind_eq_ok.mpr ⟨psbt, hpsbt, rfl⟩
  exact requested_of_priced le_rfl ⟨residuePrepared_ok, residueRequest_priced, hcreated⟩

theorem payment_delivered_sample : ∃ outcome psbt stx,
    Requested sampleLockScript residueQuorum residueRequest 0 outcome ∧
      history outcome.psbt residueHistory = .ok psbt ∧ extractTransaction psbt = .ok stx ∧
      Delivers acceptAll sampleLockScript residueQuorum residueRequest residueLock outcome stx ∧
      vsize stx * 1000 / 1000 ≤ outcome.fee := by
  obtain ⟨base, hbase, hruns⟩ := succeeds_bind.mp residueRequest_runs
  obtain ⟨signed, hsigned, hruns⟩ := succeeds_bind.mp hruns
  obtain ⟨psbt, hpsbt, stx, hx⟩ := succeeds_bind.mp hruns
  have hmade := residueRequest_requested hbase hsigned
  have hfunded : residueQuorum.form = .p2sh → Funded residueRequest residueLock := by
    intro hform
    cases hform
  obtain ⟨hdelivers, hrate⟩ := payment_delivered residues_lawful residues_implements
    acceptAll_accepts residues_scalar hmade residueLock_ok hfunded hpsbt hx
  exact ⟨_, psbt, stx, hmade, hpsbt, hx, hdelivers, hrate rfl le_rfl (by decide)⟩

end Yubtc.QuorumDelivery
