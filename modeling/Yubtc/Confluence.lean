import Yubtc.QuorumFinal
import Yubtc.Lib.Copies

/-!
# Signing sessions are confluent

Members sign inputs of a quorum on one PSBT or on copies, and copies are combined, in any order.
What comes out depends on who has signed which input and on nothing else.
-/
namespace Yubtc.Confluence

open Wire Errors ExceptRules Crypto Script Quorum Transaction PsbtData PsbtCodec PsbtRoles
  QuorumPsbt QuorumSigning SignedState QuorumFinal
open Copies (Run Grows)
open Signer (applyOutcome signPsbtInput_ok signPsbtInput_error)

variable {P : Primitives}

/-- A member signs an input; an exception ends the run. -/
def signStep (P : Primitives) (step : Nat × P.PrivateKey) (psbt : Psbt) : Except Exn Psbt :=
  match signPsbtInput P step.1 step.2 psbt with
  | .ok _ psbt' => .ok psbt'
  | .error e _ => .error e

section SignStep

variable {psbt psbt' : Psbt} {index : Nat} {own : P.PrivateKey}

/-- A step that succeeds puts the outcome of its input into the PSBT. -/
theorem signStep_eq_ok : signStep P (index, own) psbt = .ok psbt' ↔
    ∃ o, signOutcome P psbt index own = .ok o ∧ applyOutcome psbt index o = psbt' := by
  cases ho : signOutcome P psbt index own with
  | error e => simp [signStep, signPsbtInput_error ho]
  | ok o => simp [signStep, signPsbtInput_ok ho]

/-- It adds signatures only. -/
theorem signStep_strip (h : signStep P (index, own) psbt = .ok psbt') :
    stripPsbt psbt' = stripPsbt psbt := by
  obtain ⟨o, -, rfl⟩ := signStep_eq_ok.mp h
  exact applyOutcome_strip psbt index o

end SignStep

/-- Two copies are combined. -/
def combineStep (psbt other : Psbt) : Except Exn Psbt :=
  (combinePsbt psbt other).mapError .psbt

/-- A session that begins with a created PSBT. -/
def session (P : Primitives) (base : Psbt) (run : Run (Nat × P.PrivateKey)) : Except Exn Psbt :=
  run.eval base (signStep P) combineStep

variable {q : MsQuorum P} {base : Psbt}

/-- Every step of a session keeps the invariant. -/
theorem session_grows (hbase : FreshPsbt q base) :
    Grows base (signStep P) combineStep (Allowed q base) (Signed q base) where
  start := signed_empty hbase
  add := by
    rintro S psbt ⟨i, k⟩ hstep hS h
    obtain ⟨psbt', hsign, h'⟩ := signed_sign hbase h hS hstep
    refine ⟨psbt', ?_, h'⟩
    rw [signStep, hsign]
  join := by
    intro S T a b hS hT ha hb
    obtain ⟨r, hr, h⟩ := signed_combine hbase ha hb hS hT
    refine ⟨r, ?_, h⟩
    rw [combineStep, hr]
    rfl

/-- A finalized input holds the signatures of exactly `m` members: the first ones who signed
it, in script order. -/
def FinalizedBy (q : MsQuorum P) (base : Psbt) (A : Set P.PrivateKey) (i : Nat) (psbt : Psbt) :
    Prop :=
  (firstSigners q A).length = q.m ∧
    ∃ input, psbt.inputs[i]? = some input ∧ Carries q (sigOf q base i) (firstSigners q A) input

theorem firstSigners_length {A : Set P.PrivateKey} (hA : ∀ k ∈ A, k ∈ q.members)
    (hm : q.m ≤ A.ncard) : (firstSigners q A).length = q.m := by
  rw [firstSigners, List.length_take, length_inOrder hA, Nat.min_eq_left hm]

section Finalize

variable {psbt : Psbt} {S : Set (Nat × P.PrivateKey)} {i : Nat}

/-- Finalizing one input needs as many signers as the threshold. -/
theorem finalizePsbtInput_iff (hP : P.Lawful) (hbase : FreshPsbt q base)
    (h : Signed q base S psbt) (hS : ∀ step ∈ S, Allowed q base step)
    (hi : i < base.unsignedTx.vin.length) :
    ((∃ psbt', finalizePsbtInput P i psbt = .ok () psbt') ↔ q.m ≤ (signersAt S i).ncard) ∧
      ∀ psbt', finalizePsbtInput P i psbt = .ok () psbt' →
        FinalizedBy q base (signersAt S i) i psbt' := by
  have hmembers : ∀ k ∈ signersAt S i, k ∈ q.members := fun k hk => (hS _ hk).2
  have hlt : i < psbt.inputs.length := by rwa [h.inputs_length, hbase.count]
  obtain ⟨henough, hfew⟩ := finalOutcome_signed hP hbase h hS hi
  by_cases hm : q.m ≤ (signersAt S i).ncard
  · obtain ⟨r, hr, hcarries⟩ := henough hm
    have hstep := Finalizer.finalizePsbtInput_ok hr
    refine ⟨iff_of_true ⟨_, hstep⟩ hm, ?_⟩
    intro psbt' hpsbt'
    cases hstep.symm.trans hpsbt'
    refine ⟨firstSigners_length hmembers hm, r, ?_, hcarries⟩
    simp [Psbt.modifyInput, List.getElem?_eq_getElem hlt]
  · have hstep := Finalizer.finalizePsbtInput_error (hfew hm)
    constructor
    · apply iff_of_false _ hm
      rintro ⟨psbt', hpsbt'⟩
      cases hstep.symm.trans hpsbt'
    · intro psbt' hpsbt'
      cases hstep.symm.trans hpsbt'

/-- The Finalizer's loop finalizes exactly the inputs with enough signers. -/
theorem finalizePsbt_iff (hP : P.Lawful) (hbase : FreshPsbt q base) (h : Signed q base S psbt)
    (hS : ∀ step ∈ S, Allowed q base step) :
    ∃ final, finalizePsbt P psbt = .ok () final ∧ ∀ i < base.unsignedTx.vin.length,
      (q.m ≤ (signersAt S i).ncard → FinalizedBy q base (signersAt S i) i final) ∧
      (¬ q.m ≤ (signersAt S i).ncard → final.inputs[i]? = psbt.inputs[i]?) := by
  obtain ⟨final, hloop, hsettles⟩ := finalizePsbt_signed hP hbase h hS
  refine ⟨final, hloop, ?_⟩
  intro i hi
  have hmembers : ∀ k ∈ signersAt S i, k ∈ q.members := fun k hk => (hS _ hk).2
  have hin : i ∈ List.range psbt.inputs.length := by
    rw [List.mem_range, h.inputs_length, hbase.count]
    exact hi
  have hget := hsettles.inputs i
  rw [if_pos hin, Finalizer.settled] at hget
  obtain ⟨henough, hfew⟩ := finalOutcome_signed hP hbase h hS hi
  constructor
  · intro hm
    obtain ⟨r, hr, hcarries⟩ := henough hm
    rw [hr] at hget
    exact ⟨firstSigners_length hmembers hm, r, hget, hcarries⟩
  · intro hm
    rw [hfew hm] at hget
    exact hget

end Finalize

/-- Confluence of quorum signing, for each form: every session of members succeeds, its bytes
depend only on who signed which input, an input can be finalized exactly when at least `m`
members signed it, and it then carries the signatures of the first `m` of them in script
order. -/
theorem quorum_confluence (hP : P.Lawful) {tx : PsbtTransaction} {inputs : List CreateInput}
    (hcreate : createPsbt P tx inputs = .ok base)
    (hpays : ∀ (i : Nat) vin create, tx.vin[i]? = some vin → inputs[i]? = some create →
      PaysQuorum q vin create)
    {run : Run (Nat × P.PrivateKey)} (hrun : ∀ step ∈ run.contributions, Allowed q base step) :
    ∃ psbt, session P base run = .ok psbt ∧
      (∀ run' psbt', run'.contributions = run.contributions → session P base run' = .ok psbt' →
        serializePsbt psbt' = serializePsbt psbt) ∧
      (∀ i < tx.vin.length,
        ((∃ psbt', finalizePsbtInput P i psbt = .ok () psbt') ↔
          q.m ≤ (signersAt run.contributions i).ncard) ∧
        ∀ psbt', finalizePsbtInput P i psbt = .ok () psbt' →
          FinalizedBy q base (signersAt run.contributions i) i psbt') ∧
      ∃ final, finalizePsbt P psbt = .ok () final ∧ ∀ i < tx.vin.length,
        (q.m ≤ (signersAt run.contributions i).ncard →
          FinalizedBy q base (signersAt run.contributions i) i final) ∧
        (¬ q.m ≤ (signersAt run.contributions i).ncard →
          final.inputs[i]? = psbt.inputs[i]?) := by
  have hbase := createPsbt_quorum hcreate hpays
  obtain ⟨htx, -⟩ := createPsbt_spec hcreate
  obtain ⟨psbt, hpsbt, h⟩ := (session_grows hbase).eval run hrun
  subst htx
  refine ⟨psbt, hpsbt, ?_, ?_, finalizePsbt_iff hP hbase h hrun⟩
  · intro run' psbt' hsame hpsbt'
    have hbytes := (session_grows hbase).confluent
      (fun S s t hS hs ht => serializePsbt_signed hbase hS hs ht) hrun hsame hpsbt hpsbt'
    exact hbytes.symm
  · intro i hi
    exact finalizePsbtInput_iff hP hbase h hrun hi

def sampleKey (n : Nat) : standIn.PrivateKey := n

/-- Two of three stand-in keys, behind a witness script hash. -/
def sampleQuorum : MsQuorum standIn where
  form := .p2wsh
  m := 2
  members := [sampleKey 7, sampleKey 9, sampleKey 11]
  script := redeemBytes 2 (sortedKeys
    [privkey2pubkey standIn (sampleKey 7), privkey2pubkey standIn (sampleKey 9),
     privkey2pubkey standIn (sampleKey 11)])
  built := by decide +kernel

/-- Spends one output to the quorum. -/
def sampleTx : PsbtTransaction :=
  ⟨2, [⟨List.replicate 32 0x11, 0, [], 0xffffffff, []⟩], [⟨1000, [0x51]⟩], 0⟩

def sampleOutput : Bytes := p2wshShape.build (standIn.sha256 sampleQuorum.script)

def sampleRequest : CreateInput :=
  { amount := 2000, scriptPubkey := sampleOutput, prevTx := none
    witnessScript := some sampleQuorum.script }

def samplePsbt : Psbt where
  version := 0
  unsignedTx := sampleTx
  inputs := [{ emptyInput with
    witnessUtxo := some ⟨2000, sampleOutput⟩
    witnessScript := some sampleQuorum.script }]
  outputs := [⟨[]⟩]
  unknownGlobal := []

/-- Two members sign copies, which are combined. -/
def sampleRun : Run (Nat × standIn.PrivateKey) :=
  .join (.add .start (0, sampleKey 11)) (.add .start (0, sampleKey 7))

theorem sample_created : createPsbt standIn sampleTx [sampleRequest] = .ok samplePsbt := by
  decide +kernel

theorem sample_pays : ∀ (i : Nat) vin create, sampleTx.vin[i]? = some vin →
    [sampleRequest][i]? = some create → PaysQuorum sampleQuorum vin create := by
  intro i vin create _ hreq
  obtain rfl := List.mem_singleton.mp (List.mem_of_getElem? hreq)
  exact ⟨by decide +kernel, rfl⟩

theorem sampleRun_contributions :
    sampleRun.contributions = {(0, sampleKey 11), (0, sampleKey 7)} := by
  simp [sampleRun, Run.contributions, Set.pair_comm]

theorem sampleRun_allowed :
    ∀ step ∈ sampleRun.contributions, Allowed sampleQuorum samplePsbt step := by
  intro step hstep
  rw [sampleRun_contributions] at hstep
  cases hstep with
  | inl he =>
    subst he
    exact ⟨Nat.one_pos, by simp [sampleQuorum]⟩
  | inr he =>
    cases he
    exact ⟨Nat.one_pos, by simp [sampleQuorum]⟩

theorem sampleRun_count :
    sampleQuorum.m ≤ (signersAt sampleRun.contributions 0).ncard := by
  have hsigners : signersAt sampleRun.contributions 0 = {sampleKey 11, sampleKey 7} := by
    ext k
    simp [signersAt, sampleRun_contributions]
  have hne : sampleKey 11 ≠ sampleKey 7 := (by decide : (11 : Nat) ≠ 7)
  rw [hsigners]
  exact (Set.ncard_pair hne).ge

theorem sampleSession_ok : ∃ psbt, session standIn samplePsbt sampleRun = .ok psbt := by
  have hbase := createPsbt_quorum sample_created sample_pays
  obtain ⟨psbt, hpsbt, -⟩ := (session_grows hbase).eval sampleRun sampleRun_allowed
  exact ⟨psbt, hpsbt⟩

theorem quorum_confluence_two_of_three :
    ∃ psbt final, session standIn samplePsbt sampleRun = .ok psbt ∧
      finalizePsbtInput standIn 0 psbt = .ok () final := by
  obtain ⟨psbt, hpsbt, -, hinputs, -⟩ :=
    quorum_confluence standIn_lawful sample_created sample_pays sampleRun_allowed
  obtain ⟨final, hfinal⟩ := (hinputs 0 Nat.one_pos).1.mpr sampleRun_count
  exact ⟨psbt, final, hpsbt, hfinal⟩

end Yubtc.Confluence
