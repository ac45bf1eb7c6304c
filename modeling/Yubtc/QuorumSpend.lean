import Yubtc.Confluence
import Yubtc.PsbtReading

/-!
# Spending a redeem script

The finalized inputs of the two CHECKMULTISIG forms under the consensus rules: the items decode
from the `scriptSig` or the witness stack, the last one is the script of the lock's hash, and
the script succeeds on the others.
-/
namespace Yubtc.QuorumSpend

open Wire Errors ExceptRules Crypto Script Quorum QuorumExecution Transaction PsbtData PsbtCodec
  PsbtRoles QuorumPsbt QuorumSigning SignedState QuorumFinal Confluence
open Copies (Run)
open ScriptVm (Succeeds Instr)

variable {P : Primitives}

/-- What an input puts under a script hash: the pushes of its `scriptSig` for P2SH, its witness
stack for P2WSH. -/
def SpendItems (scriptPubkey : Bytes) (input : PsbtIn) (items : List Bytes) : Prop :=
  if isP2shScript scriptPubkey then
    input.finalScriptwitness = none ∧ ∃ script, input.finalScriptsig = some script ∧
      ScriptVm.decode script = some (items.map Instr.push)
  else
    isP2wshScript scriptPubkey ∧ input.finalScriptsig = none ∧
      ∃ stack, input.finalScriptwitness = some stack ∧ decodeWitnessStack stack = .ok items

/-- The script has the hash in the lock script. -/
def HashesToLock (P : Primitives) (scriptPubkey script : Bytes) : Prop :=
  if isP2shScript scriptPubkey then hash160 P script = p2shShape.payload scriptPubkey
  else P.sha256 script = p2wshShape.payload scriptPubkey

/-- The consensus conditions of a script hash spend. -/
structure SatisfiesLock (P : Primitives) (valid : Bytes → Bytes → Bool) (scriptPubkey : Bytes)
    (input : PsbtIn) (items : List Bytes) (script : Bytes) : Prop where
  spends : SpendItems scriptPubkey input (items ++ [script])
  hash : HashesToLock P scriptPubkey script
  succeeds : Succeeds (scriptContext valid) script items.reverse

/-- Pushes decode to their items. -/
theorem decode_pushes {items : List Bytes} (h : ∀ item ∈ items, item.length ≤ 0xffff) :
    ScriptVm.decode (items.map pushed).flatten = some (items.map Instr.push) := by
  induction items with
  | nil => rfl
  | cons item items ih =>
    rw [List.map_cons, List.flatten_cons, decode_pushed item _ (h item List.mem_cons_self),
      ih fun item hi => h item (List.mem_cons_of_mem _ hi)]
    rfl

/-- The first signers' keys come in script order. -/
theorem firstSigners_keys_sublist (q : MsQuorum P) (A : Set P.PrivateKey) :
    ((firstSigners q A).map (memberKey q.form)).Sublist q.keys := by
  rw [← ordered_map]
  apply List.Sublist.map
  exact (List.take_sublist _ _).trans List.filter_sublist

theorem mem_items {item script : Bytes} {sigs : List Bytes}
    (h : item ∈ [] :: sigs ++ [script]) : item = [] ∨ item ∈ sigs ∨ item = script := by
  simpa using h

section Spend

variable {q : MsQuorum P} {sig : P.PrivateKey → Bytes} {A : Set P.PrivateKey} {input : PsbtIn}
  {scriptPubkey : Bytes} {valid : Bytes → Bytes → Bool}

/-- Signatures of exactly `m` members in script order satisfy the script. -/
theorem firstSigners_succeed (hform : q.form ≠ .p2tr)
    (hcount : (firstSigners q A).length = q.m)
    (hvalid : ∀ k ∈ A, valid (sig k) (memberKey q.form k) = true) :
    Succeeds (scriptContext valid) q.script ([] :: (firstSigners q A).map sig).reverse := by
  have hsigs : List.Forall₂ (fun s key => valid s key = true) ((firstSigners q A).map sig)
      ((firstSigners q A).map (memberKey q.form)) := by
    rw [List.forall₂_map_left_iff, List.forall₂_map_right_iff, List.forall₂_same]
    intro k hk
    exact hvalid k (mem_inOrder.mp (List.mem_of_mem_take hk)).2
  have hlen : ((firstSigners q A).map sig).length = q.m := by rw [List.length_map, hcount]
  have hq : IsQuorum 33 ((firstSigners q A).map sig).length q.keys := by
    have hown := q.isQuorum_keys
    rw [hlen]
    cases hf : q.form with
    | p2sh => rwa [hf] at hown
    | p2wsh => rwa [hf] at hown
    | p2tr => contradiction
  have hscript : q.script = redeemBytes ((firstSigners q A).map sig).length q.keys := by
    have hown := q.script_eq
    rw [hlen]
    cases hf : q.form with
    | p2sh => rwa [hf] at hown
    | p2wsh => rwa [hf] at hown
    | p2tr => contradiction
  have hrun := run_redeemBytes hq hsigs (firstSigners_keys_sublist q A)
  refine ⟨_, ?_, ScriptVm.isTrue_ofBool true⟩
  rw [List.reverse_cons, hscript]
  exact hrun

theorem items_p2sh (hform : q.form = .p2sh) (hfits : p2shShape.Fits scriptPubkey)
    (hsizes : ∀ k, (sig k).length ≤ 73)
    (h : Carries q sig (firstSigners q A) input) :
    SpendItems scriptPubkey input ([] :: (firstSigners q A).map sig ++ [q.script]) := by
  rw [Carries, hform] at h
  obtain ⟨hwitness, script, hmake, hfinal⟩ := h
  have hall : ∀ s ∈ (firstSigners q A).map sig, s.length ≤ 73 := by
    intro s hs
    obtain ⟨k, -, rfl⟩ := List.mem_map.mp hs
    exact hsizes k
  rw [makeMultisigScriptSig_ok hform hall] at hmake
  have hlen : q.script.length ≤ 0xffff := by
    have hq := q.isQuorum_keys
    have hbytes := q.script_eq
    rw [hform] at hq hbytes
    have hbound : q.keys.length ≤ 15 := hq.bound
    rw [hbytes, MsForm.scriptBytes, redeemBytes_length hq.keyLength]
    omega
  obtain ⟨-, hsh, -, -⟩ := forms_of_p2sh hfits
  have hitems : ∀ item ∈ [] :: (firstSigners q A).map sig ++ [q.script], item.length ≤ 0xffff := by
    intro item hi
    cases mem_items hi with
    | inl he => simp [he]
    | inr hi =>
      cases hi with
      | inl hi => exact (hall item hi).trans (by decide)
      | inr he => exact he ▸ hlen
  rw [SpendItems, if_pos hsh, ← decode_pushes hitems]
  refine ⟨hwitness, script, hfinal, ?_⟩
  rw [← Except.ok.inj hmake]
  congr 1
  simp [pushed, op0]

theorem items_p2wsh (hform : q.form = .p2wsh) (hfits : p2wshShape.Fits scriptPubkey)
    (hsizes : ∀ k, (sig k).length ≤ 73) (hcount : (firstSigners q A).length = q.m)
    (h : Carries q sig (firstSigners q A) input) :
    SpendItems scriptPubkey input ([] :: (firstSigners q A).map sig ++ [q.script]) := by
  rw [Carries, hform] at h
  obtain ⟨hscriptsig, hfinal⟩ := h
  obtain ⟨-, hsh, hwsh, -⟩ := forms_of_p2wsh hfits
  have hq := q.isQuorum_keys
  have hbytes := q.script_eq
  rw [hform] at hq hbytes
  have hbound : q.keys.length ≤ 15 := hq.bound
  have hm : q.m ≤ 15 := hq.threshold.trans hbound
  have hlen : q.script.length ≤ 513 := by
    rw [hbytes, MsForm.scriptBytes, redeemBytes_length hq.keyLength]
    omega
  have hlength : ([] :: (firstSigners q A).map sig ++ [q.script]).length < 2 ^ 64 := by
    simp only [List.cons_append, List.length_cons, List.length_append, List.length_map, hcount,
      List.length_nil]
    omega
  have hitems : ∀ item ∈ [] :: (firstSigners q A).map sig ++ [q.script], item.length < 2 ^ 64 := by
    intro item hi
    cases mem_items hi with
    | inl he => simp [he]
    | inr hi =>
      cases hi with
      | inl hi =>
        obtain ⟨k, -, rfl⟩ := List.mem_map.mp hi
        exact (hsizes k).trans_lt (by decide)
      | inr he =>
        rw [he]
        omega
  rw [SpendItems, if_neg (Bool.eq_false_iff.mp hsh)]
  exact ⟨hwsh, hscriptsig, _, hfinal,
    PsbtReading.decodeWitnessStack_encodeWitnessStack hlength hitems⟩

end Spend

variable {q : MsQuorum P} {base : Psbt}

/-- An input of a CHECKMULTISIG quorum that enough members signed satisfies its lock script. -/
theorem finalized_quorum_satisfies (hP : P.Lawful) {tx : PsbtTransaction}
    {inputs : List CreateInput} (hcreate : createPsbt P tx inputs = .ok base)
    (hpays : ∀ (i : Nat) vin create, tx.vin[i]? = some vin → inputs[i]? = some create →
      PaysQuorum q vin create) (hform : q.form ≠ .p2tr)
    {run : Run (Nat × P.PrivateKey)} (hrun : ∀ step ∈ run.contributions, Allowed q base step)
    {psbt : Psbt} (hpsbt : session P base run = .ok psbt) {i : Nat} (hi : i < tx.vin.length)
    (hm : q.m ≤ (signersAt run.contributions i).ncard) {valid : Bytes → Bytes → Bool}
    (hvalid : ∀ k ∈ signersAt run.contributions i,
      valid (sigOf q base i k) (memberKey q.form k) = true) :
    ∃ final input scriptPubkey amount, finalizePsbtInput P i psbt = .ok () final ∧
      final.inputs[i]? = some input ∧ inputUtxoData base i = some (scriptPubkey, amount) ∧
      (firstSigners q (signersAt run.contributions i)).length = q.m ∧
      SatisfiesLock P valid scriptPubkey input
        ([] :: (firstSigners q (signersAt run.contributions i)).map (sigOf q base i)) q.script := by
  have hbase := createPsbt_quorum hcreate hpays
  obtain ⟨htx, -⟩ := createPsbt_spec hcreate
  subst htx
  obtain ⟨s, hs, h⟩ := (session_grows hbase).eval run hrun
  cases hs.symm.trans hpsbt
  obtain ⟨hiff, hcarries⟩ := finalizePsbtInput_iff hP hbase h hrun hi
  obtain ⟨final, hfinal⟩ := hiff.mpr hm
  obtain ⟨hcount, input, hin, hinput⟩ := hcarries final hfinal
  have hlt : i < base.inputs.length := by rwa [hbase.count]
  have hbin := List.getElem?_eq_getElem hlt
  obtain ⟨vin, output, hvin, hq⟩ := hbase.inputs i _ hbin
  have hutxo := inputUtxoData_quorum hbin hvin hq.spends
  have hsizes : ∀ k, (sigOf q base i k).length ≤ 73 := by
    intro k
    obtain ⟨digest, hsig⟩ := sigOf_ecdsa hbase hbin hform k
    have hder := hP.sign_length k digest
    rw [hsig, List.length_append, List.length_singleton]
    omega
  have hsucceeds := firstSigners_succeed hform hcount hvalid
  refine ⟨final, input, _, _, hfinal, hin, hutxo, hcount, ?_⟩
  have hcommits := hq.commits
  cases hf : q.form with
  | p2sh =>
    rw [Commits, hf] at hcommits
    obtain ⟨hfits, -, -, hcommit⟩ := hcommits
    obtain ⟨-, hsh, -, -⟩ := forms_of_p2sh hfits
    refine ⟨items_p2sh hf hfits hsizes hinput, ?_, hsucceeds⟩
    rw [HashesToLock, if_pos hsh]
    exact hcommit
  | p2wsh =>
    rw [Commits, hf] at hcommits
    obtain ⟨hfits, -, -, hcommit⟩ := hcommits
    obtain ⟨-, hsh, -, -⟩ := forms_of_p2wsh hfits
    refine ⟨items_p2wsh hf hfits hsizes hcount hinput, ?_, hsucceeds⟩
    rw [HashesToLock, if_neg (Bool.eq_false_iff.mp hsh)]
    exact hcommit
  | p2tr => contradiction

/-- The stand-in signatures of the sample, each valid under its own key only. -/
def sampleValid (sig key : Bytes) : Bool :=
  sampleQuorum.members.any fun k =>
    sig = sigOf sampleQuorum samplePsbt 0 k && key = memberKey sampleQuorum.form k

theorem finalized_quorum_satisfies_two_of_three :
    ∃ psbt final input, session standIn samplePsbt sampleRun = .ok psbt ∧
      finalizePsbtInput standIn 0 psbt = .ok () final ∧ final.inputs[0]? = some input ∧
      SatisfiesLock standIn sampleValid sampleOutput input
        ([] :: (firstSigners sampleQuorum (signersAt sampleRun.contributions 0)).map
          (sigOf sampleQuorum samplePsbt 0)) sampleQuorum.script := by
  obtain ⟨psbt, hpsbt⟩ := sampleSession_ok
  have hvalid : ∀ k ∈ signersAt sampleRun.contributions 0,
      sampleValid (sigOf sampleQuorum samplePsbt 0 k) (memberKey sampleQuorum.form k) = true := by
    intro k hk
    have hmember := (sampleRun_allowed _ hk).2
    exact List.any_eq_true.mpr ⟨k, hmember, by simp⟩
  obtain ⟨final, input, scriptPubkey, amount, hfinal, hin, hutxo, -, hsat⟩ :=
    finalized_quorum_satisfies standIn_lawful sample_created sample_pays nofun sampleRun_allowed
      hpsbt (i := 0) Nat.one_pos sampleRun_count hvalid
  cases hutxo
  exact ⟨psbt, final, input, hpsbt, hfinal, hin, hsat⟩

end Yubtc.QuorumSpend
