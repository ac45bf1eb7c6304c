import Yubtc.RoleRuns
import Yubtc.Combine
import Yubtc.Broadcast

/-!
# What decoding shows

The digest of a PSBT that is shown to its signers. Over a session on copies, the transaction, the
outputs and the fee it shows are those of the PSBT the session began with, and what it shows of an
input only grows.
-/
namespace Yubtc.Summary

open Text (Str)
open Wire Errors ExceptRules Crypto Transaction PsbtData PsbtCodec PsbtRoles Signer SignWalk
  SigningFrame Finalizer Finalization Permanence PsbtRecords Combine Confluence
open Broadcast (hexText)
open Copies (Run)

variable {P : Primitives}

structure PsbtInputSummary where
  hasUtxo : Bool
  nPartialSigs : Nat
  sighashType : Option UInt32
  finalized : Bool
  deriving DecidableEq, Repr

structure PsbtOutputSummary where
  amountSat : UInt64
  scriptPubkeyHex : Str
  deriving DecidableEq, Repr

structure PsbtSummary where
  txidHex : Str
  version : UInt32
  inputs : List PsbtInputSummary
  outputs : List PsbtOutputSummary
  feeSat : Option Nat
  deriving DecidableEq, Repr

/-- The accumulators of the loop over inputs. -/
structure Credits where
  creditSat : Nat
  allInputsKnown : Bool

def addCredit (psbt : Psbt) (credits : Credits) (i : Nat) : Credits :=
  match inputUtxoData psbt i with
  | none => { credits with allInputsKnown := false }
  | some (_, amount) => { credits with creditSat := credits.creditSat + amount.toNat }

def inputCredits (psbt : Psbt) : Credits :=
  (List.range psbt.inputs.length).foldl (addCredit psbt) ⟨0, true⟩

def spendSat (tx : PsbtTransaction) : Nat := (tx.vout.map fun out => out.amount.toNat).sum

/-- Shown when all inputs are known and the difference is an amount. -/
def feeSat (psbt : Psbt) : Option Nat :=
  let credits := inputCredits psbt
  let fee : Int := credits.creditSat - spendSat psbt.unsignedTx
  if credits.allInputsKnown = true ∧ 0 ≤ fee ∧ fee ≤ 0xffffffffffffffff then some fee.toNat
  else none

def inputSummary (input : PsbtIn) : PsbtInputSummary where
  hasUtxo := input.witnessUtxo.isSome || input.nonWitnessUtxo.isSome
  nPartialSigs := input.partialSigs.length
  sighashType := input.sighashType
  finalized := input.finalScriptsig.isSome || input.finalScriptwitness.isSome

def outputSummary (out : PsbtTxOut) : PsbtOutputSummary := ⟨out.amount, hexText out.script⟩

variable (P) in
def psbtSummary (psbt : Psbt) : PsbtSummary where
  txidHex := hexText (psbt.unsignedTx.id P)
  version := psbt.version
  inputs := psbt.inputs.map inputSummary
  outputs := psbt.unsignedTx.vout.map outputSummary
  feeSat := feeSat psbt

/-- What is shown of an input grows: once final it stays final, and until then signatures are only
added and the sighash type stays. -/
structure InputProgress (s t : PsbtInputSummary) : Prop where
  hasUtxo : t.hasUtxo = s.hasUtxo
  finalized : s.finalized = true → t.finalized = true
  nPartialSigs : t.finalized = false → s.nPartialSigs ≤ t.nPartialSigs
  sighashType : t.finalized = false → t.sighashType = s.sighashType

/-- The rest stays as it is. -/
structure Progress (s t : PsbtSummary) : Prop where
  txidHex : t.txidHex = s.txidHex
  version : t.version = s.version
  inputs : List.Forall₂ InputProgress s.inputs t.inputs
  outputs : t.outputs = s.outputs
  feeSat : t.feeSat = s.feeSat

theorem InputProgress.refl (s : PsbtInputSummary) : InputProgress s s :=
  ⟨rfl, id, fun _ => le_rfl, fun _ => rfl⟩

theorem InputProgress.trans {s t u : PsbtInputSummary} (h : InputProgress s t)
    (h' : InputProgress t u) : InputProgress s u := by
  have hopen : u.finalized = false → t.finalized = false := by
    intro hu
    by_contra ht
    rw [h'.finalized (Bool.eq_true_of_not_eq_false ht)] at hu
    cases hu
  refine ⟨h'.hasUtxo.trans h.hasUtxo, fun hs => h'.finalized (h.finalized hs), ?_, ?_⟩
  · intro hu
    exact (h.nPartialSigs (hopen hu)).trans (h'.nPartialSigs hu)
  · intro hu
    exact (h'.sighashType hu).trans (h.sighashType (hopen hu))

theorem forall₂_comp {α β γ : Type} {R : α → β → Prop} {S : β → γ → Prop} {T : α → γ → Prop}
    (hcomp : ∀ a b c, R a b → S b c → T a c) {l : List α} {m : List β} {n : List γ}
    (h : List.Forall₂ R l m) (h' : List.Forall₂ S m n) : List.Forall₂ T l n := by
  induction h generalizing n with
  | nil =>
    cases h'
    exact .nil
  | cons hab _ ih =>
    cases h' with
    | cons hbc hrest => exact .cons (hcomp _ _ _ hab hbc) (ih hrest)

theorem Progress.refl (s : PsbtSummary) : Progress s s :=
  ⟨rfl, rfl, List.forall₂_same.mpr fun s _ => .refl s, rfl, rfl⟩

theorem Progress.trans {s t u : PsbtSummary} (h : Progress s t) (h' : Progress t u) :
    Progress s u := by
  exact ⟨h'.txidHex.trans h.txidHex, h'.version.trans h.version,
    forall₂_comp (fun _ _ _ hab hbc => hab.trans hbc) h.inputs h'.inputs,
    h'.outputs.trans h.outputs, h'.feeSat.trans h.feeSat⟩

/-- No two partial signatures of one key. -/
def DistinctSigs (input : PsbtIn) : Prop := (input.partialSigs.map Prod.fst).Nodup

/-- An input map of a session, with the one it began with: the UTXO records stay, and the sighash
type goes when the input becomes final. -/
structure KeptInput (first input : PsbtIn) : Prop where
  utxos : SameUtxos input first
  sigs : DistinctSigs input
  sighashType : ¬ IsFinal input → input.sighashType = first.sighashType

structure KeptPsbt (base psbt : Psbt) : Prop where
  version : psbt.version = base.version
  unsignedTx : psbt.unsignedTx = base.unsignedTx
  inputs : List.Forall₂ KeptInput base.inputs psbt.inputs

theorem finalized_iff {input : PsbtIn} : (inputSummary input).finalized = true ↔ IsFinal input := by
  simp only [inputSummary, IsFinal, Bool.or_eq_true]

theorem not_finalized_iff {input : PsbtIn} :
    (inputSummary input).finalized = false ↔ ¬ IsFinal input := by
  rw [← finalized_iff, Bool.not_eq_true]

/-- Whether a UTXO is shown is read off the records. -/
theorem hasUtxo_of_same {a b : PsbtIn} (h : SameUtxos b a) :
    (inputSummary b).hasUtxo = (inputSummary a).hasUtxo := by
  simp only [inputSummary, h.1, h.2]

theorem inputUtxoData_of_same {psbt psbt' : Psbt} (htx : psbt'.unsignedTx = psbt.unsignedTx)
    (h : List.Forall₂ (fun a b => SameUtxos b a) psbt.inputs psbt'.inputs) (i : Nat) :
    inputUtxoData psbt' i = inputUtxoData psbt i := by
  have hlen := h.length_eq
  simp only [inputUtxoData, htx]
  by_cases hi : i < psbt.inputs.length
  · have hsame := h.get hi (hlen ▸ hi)
    simp only [List.get_eq_getElem] at hsame
    rw [List.getElem?_eq_getElem hi, List.getElem?_eq_getElem (hlen ▸ hi)]
    simp only [hsame.1, hsame.2]
  · rw [List.getElem?_eq_none (Nat.le_of_not_lt hi),
      List.getElem?_eq_none (hlen ▸ Nat.le_of_not_lt hi)]

theorem feeSat_of_same {psbt psbt' : Psbt} (htx : psbt'.unsignedTx = psbt.unsignedTx)
    (h : List.Forall₂ (fun a b => SameUtxos b a) psbt.inputs psbt'.inputs) :
    feeSat psbt' = feeSat psbt := by
  have hadd : addCredit psbt' = addCredit psbt := by
    funext credits i
    simp only [addCredit, inputUtxoData_of_same htx h]
  simp only [feeSat, inputCredits, hadd, htx, h.length_eq]

/-- From input to input. -/
theorem progress_of_inputs {psbt psbt' : Psbt} (hversion : psbt'.version = psbt.version)
    (htx : psbt'.unsignedTx = psbt.unsignedTx)
    (h : List.Forall₂ (fun a b => SameUtxos b a ∧ InputProgress (inputSummary a) (inputSummary b))
      psbt.inputs psbt'.inputs) : Progress (psbtSummary P psbt) (psbtSummary P psbt') := by
  have hsame := h.imp fun _ _ hab => hab.1
  have hprogress := h.imp fun _ _ hab => hab.2
  refine ⟨?_, hversion, ?_, ?_, feeSat_of_same htx hsame⟩
  · simp only [psbtSummary, htx]
  · exact List.forall₂_map_left_iff.mpr (List.forall₂_map_right_iff.mpr hprogress)
  · simp only [psbtSummary, htx]

/-- An input map and what a step makes of it. -/
structure Advance (input r : PsbtIn) : Prop where
  kept : ∀ first, KeptInput first input → KeptInput first r
  utxos : SameUtxos r input
  progress : InputProgress (inputSummary input) (inputSummary r)

theorem Advance.refl (input : PsbtIn) : Advance input input :=
  ⟨fun _ h => h, ⟨rfl, rfl⟩, .refl _⟩

/-- A signature of a key that had none. -/
theorem addOutcome_advance {input : PsbtIn} {key : P.PrivateKey} {o : SignOutcome}
    (h : OwnEntry P input key o) : Advance input (addOutcome input o) := by
  cases h with
  | partialSig sig hnew =>
    have hperm := SignedState.insert_perm input.partialSigs
      (fun p => decide (p.1 ≤ privkey2pubkey P key)) (privkey2pubkey P key, sig)
    refine ⟨?_, ⟨rfl, rfl⟩, ⟨rfl, id, ?_, fun _ => rfl⟩⟩
    · intro first hkept
      refine ⟨hkept.utxos, ?_, hkept.sighashType⟩
      exact (hperm.map Prod.fst).nodup_iff.mpr (List.nodup_cons.mpr ⟨hnew, hkept.sigs⟩)
    · intro _
      have hlen : (addOutcome input (.partialSig (privkey2pubkey P key) sig)).partialSigs.length =
          input.partialSigs.length + 1 := hperm.length_eq
      show input.partialSigs.length ≤ _
      simp only [inputSummary, hlen]
      omega
  | tapScriptSig leaf sig _ _ =>
    exact ⟨fun first hkept => ⟨hkept.utxos, hkept.sigs, hkept.sighashType⟩, ⟨rfl, rfl⟩, .refl _⟩

/-- Finalization. -/
theorem finalOutcome_advance {psbt : Psbt} {i : Nat} {input r : PsbtIn}
    (hin : psbt.inputs[i]? = some input) (h : finalOutcome P psbt i = .ok r) : Advance input r := by
  obtain ⟨input', hin', hcase⟩ := finalOutcome_ok h
  cases hin.symm.trans hin'
  rcases hcase with ⟨-, rfl⟩ | ⟨hopen, scriptPubkey, amount, -, hnew⟩
  · exact .refl r
  · have hsame : SameUtxos r input := ⟨hnew.kept.witnessUtxo, hnew.kept.nonWitnessUtxo⟩
    have hfinal := hnew.isFinal
    have hshown : ¬ (inputSummary r).finalized = false := by
      rw [not_finalized_iff, not_not]
      exact hfinal
    refine ⟨?_, hsame, ⟨hasUtxo_of_same hsame, fun _ => finalized_iff.mpr hfinal, ?_, ?_⟩⟩
    · intro first hkept
      refine ⟨⟨hsame.1.trans hkept.utxos.1, hsame.2.trans hkept.utxos.2⟩, ?_, ?_⟩
      · rw [DistinctSigs, hnew.cleared.partialSigs]
        exact List.nodup_nil
      · exact fun hno => absurd hfinal hno
    · exact fun hno => absurd hno hshown
    · exact fun hno => absurd hno hshown

/-- One input map is replaced. -/
theorem modifyInput_advance {base psbt : Psbt} {i : Nat} {input r : PsbtIn}
    (hkept : KeptPsbt base psbt) (hin : psbt.inputs[i]? = some input) (h : Advance input r) :
    KeptPsbt base (Psbt.modifyInput psbt i fun _ => r) ∧
      Progress (psbtSummary P psbt) (psbtSummary P (Psbt.modifyInput psbt i fun _ => r)) := by
  have hall : List.Forall₂ Advance psbt.inputs (Psbt.modifyInput psbt i fun _ => r).inputs := by
    rw [List.forall₂_iff_get]
    refine ⟨(List.length_modify _ _ _).symm, ?_⟩
    intro j hj hj'
    simp only [List.get_eq_getElem, Psbt.modifyInput, List.getElem_modify]
    split
    · next hij =>
      subst hij
      rw [List.getElem?_eq_getElem hj] at hin
      exact Option.some.inj hin ▸ h
    · exact .refl _
  constructor
  · refine ⟨hkept.version, hkept.unsignedTx, ?_⟩
    exact forall₂_comp (fun first _ _ hab hbc => hbc.kept first hab) hkept.inputs hall
  · exact progress_of_inputs rfl rfl (hall.imp fun _ _ hab => ⟨hab.utxos, hab.progress⟩)

section Actions

variable {base psbt : Psbt}

theorem sign_advance (h : KeptPsbt base psbt) (i : Nat) (key : P.PrivateKey) :
    KeptPsbt base (leftBehind (signPsbtInput P i key psbt)) ∧
      Progress (psbtSummary P psbt) (psbtSummary P (leftBehind (signPsbtInput P i key psbt))) := by
  cases ho : signOutcome P psbt i key with
  | error e =>
    rw [signPsbtInput_error ho]
    exact ⟨h, .refl _⟩
  | ok o =>
    rw [signPsbtInput_ok ho]
    show KeptPsbt base (applyOutcome psbt i o) ∧
      Progress (psbtSummary P psbt) (psbtSummary P (applyOutcome psbt i o))
    by_cases hadds : Adds o
    · obtain ⟨input, hin, hown⟩ := signOutcome_own ho hadds
      rw [applyOutcome_eq, modifyInput_const hin]
      exact modifyInput_advance h hin (addOutcome_advance hown)
    · rw [RoleRuns.applyOutcome_of_not_adds hadds]
      exact ⟨h, .refl _⟩

theorem finalizeInput_advance (h : KeptPsbt base psbt) (i : Nat) :
    KeptPsbt base (leftBehind (finalizePsbtInput P i psbt)) ∧
      Progress (psbtSummary P psbt) (psbtSummary P (leftBehind (finalizePsbtInput P i psbt))) := by
  cases ho : finalOutcome P psbt i with
  | error e =>
    rw [finalizePsbtInput_error ho]
    exact ⟨h, .refl _⟩
  | ok r =>
    rw [finalizePsbtInput_ok ho]
    obtain ⟨input, hin, -⟩ := finalOutcome_ok ho
    exact modifyInput_advance h hin (finalOutcome_advance hin ho)

theorem apply_advance (h : KeptPsbt base psbt) (action : Action P) :
    KeptPsbt base (action.apply psbt) ∧
      Progress (psbtSummary P psbt) (psbtSummary P (action.apply psbt)) := by
  cases action with
  | sign index key => exact sign_advance h index key
  | finalizeInput index => exact finalizeInput_advance h index
  | finalize =>
    refine leftBehind_finalizeInputs
      (motive := fun s => KeptPsbt base s ∧ Progress (psbtSummary P psbt) (psbtSummary P s))
      ?_ _ ⟨h, .refl _⟩
    intro index s hs
    obtain ⟨hkept, hprogress⟩ := finalizeInput_advance (P := P) hs.1 index
    exact ⟨hkept, hs.2.trans hprogress⟩

end Actions

theorem mergeField_self {α : Type} [DecidableEq α] {a r : Option α}
    (h : mergeField a a = .ok r) : r = a := by
  cases a with
  | none =>
    cases h
    rfl
  | some a =>
    rw [mergeField, if_pos rfl] at h
    cases h
    rfl

theorem mergeField_isSome {α : Type} [DecidableEq α] {a b r : Option α}
    (h : mergeField a b = .ok r) : r.isSome = (a.isSome || b.isSome) := by
  cases a with
  | none =>
    cases h
    rfl
  | some a =>
    cases b with
    | none =>
      cases h
      rfl
    | some b =>
      rw [mergeField] at h
      split at h
      · cases h
        rfl
      · cases h

/-- A merge holds the signatures of both sides, one for each key. -/
theorem mergePartialSigs_counts {a b r : List (Bytes × Bytes)} (ha : (a.map Prod.fst).Nodup)
    (hb : (b.map Prod.fst).Nodup) (h : mergePartialSigs a b = .ok r) :
    (r.map Prod.fst).Nodup ∧ a.length ≤ r.length ∧ b.length ≤ r.length := by
  have hkeys : ∀ l : List (Bytes × Bytes),
      ((l.map partialSigRecord).map Prod.fst).Nodup ↔ (l.map Prod.fst).Nodup := by
    intro l
    have hcons : (l.map partialSigRecord).map Prod.fst =
        (l.map Prod.fst).map (List.cons tPartialSig) := by
      rw [List.map_map, List.map_map]
      rfl
    rw [hcons, List.nodup_map_iff List.cons_injective]
  obtain ⟨-, hmem, hnodup⟩ :=
    (mergePartialSigs_spec ((hkeys a).mpr ha) ((hkeys b).mpr hb)).union h
  have hsub : ∀ l : List (Bytes × Bytes), (l.map Prod.fst).Nodup →
      (∀ y ∈ l.map partialSigRecord, y ∈ r.map partialSigRecord) → l.length ≤ r.length := by
    intro l hl hall
    have hle := (List.subperm_of_subset ((hkeys l).mpr hl).of_map hall).length_le
    rwa [List.length_map, List.length_map] at hle
  exact ⟨(hkeys r).mp hnodup, hsub a ha fun y hy => (hmem y).mpr (.inl hy),
    hsub b hb fun y hy => (hmem y).mpr (.inr hy)⟩

/-- Inputs of two copies, merged. -/
theorem merge_advance {first a b r : PsbtIn} (ha : KeptInput first a) (hb : KeptInput first b)
    (h : FieldMerges a b r) :
    KeptInput first r ∧ (SameUtxos r a ∧ InputProgress (inputSummary a) (inputSummary r)) ∧
      (SameUtxos r b ∧ InputProgress (inputSummary b) (inputSummary r)) := by
  obtain ⟨hnodup, hcounta, hcountb⟩ := mergePartialSigs_counts ha.sigs hb.sigs h.partialSigs
  have hr : SameUtxos r first := by
    have hw := h.witnessUtxo
    have hn := h.nonWitnessUtxo
    rw [ha.utxos.1, hb.utxos.1] at hw
    rw [ha.utxos.2, hb.utxos.2] at hn
    exact ⟨mergeField_self hw, mergeField_self hn⟩
  have hra : SameUtxos r a := ⟨hr.1.trans ha.utxos.1.symm, hr.2.trans ha.utxos.2.symm⟩
  have hrb : SameUtxos r b := ⟨hr.1.trans hb.utxos.1.symm, hr.2.trans hb.utxos.2.symm⟩
  have hfinal : IsFinal r ↔ IsFinal a ∨ IsFinal b := by
    simp only [IsFinal, mergeField_isSome h.finalScriptsig, mergeField_isSome h.finalScriptwitness,
      Bool.or_eq_true]
    tauto
  have hsighash : ¬ IsFinal r → r.sighashType = first.sighashType := by
    intro hno
    rw [hfinal, not_or] at hno
    have hs := h.sighashType
    rw [ha.sighashType hno.1, hb.sighashType hno.2] at hs
    exact mergeField_self hs
  have hopen : (inputSummary r).finalized = false → ¬ IsFinal r := not_finalized_iff.mp
  refine ⟨⟨hr, hnodup, hsighash⟩, ⟨hra, hasUtxo_of_same hra, ?_, fun _ => hcounta, ?_⟩, hrb,
    hasUtxo_of_same hrb, ?_, fun _ => hcountb, ?_⟩
  · exact fun hf => finalized_iff.mpr (hfinal.mpr (.inl (finalized_iff.mp hf)))
  · intro hno
    exact (hsighash (hopen hno)).trans
      (ha.sighashType fun hf => hopen hno (hfinal.mpr (.inl hf))).symm
  · exact fun hf => finalized_iff.mpr (hfinal.mpr (.inr (finalized_iff.mp hf)))
  · intro hno
    exact (hsighash (hopen hno)).trans
      (hb.sighashType fun hf => hopen hno (hfinal.mpr (.inr hf))).symm

theorem combine_advance {base a b r : Psbt} (ha : KeptPsbt base a) (hb : KeptPsbt base b)
    (h : combinePsbt a b = .ok r) :
    KeptPsbt base r ∧ Progress (psbtSummary P a) (psbtSummary P r) ∧
      Progress (psbtSummary P b) (psbtSummary P r) := by
  have htx : a.unsignedTx = b.unsignedTx := ha.unsignedTx.trans hb.unsignedTx.symm
  obtain ⟨-, hinputs, -, hversion, hrtx⟩ := (combinePsbt_eq_ok htx).mp h
  have hlena := ha.inputs.length_eq
  have hlenb := hb.inputs.length_eq
  have hlenr := mapM_length hinputs
  rw [List.length_zip] at hlenr
  have hone : ∀ i (hi : i < base.inputs.length) (hia : i < a.inputs.length)
      (hib : i < b.inputs.length) (hir : i < r.inputs.length),
      KeptInput base.inputs[i] r.inputs[i] ∧
        (SameUtxos r.inputs[i] a.inputs[i] ∧
          InputProgress (inputSummary a.inputs[i]) (inputSummary r.inputs[i])) ∧
        (SameUtxos r.inputs[i] b.inputs[i] ∧
          InputProgress (inputSummary b.inputs[i]) (inputSummary r.inputs[i])) := by
    intro i hi hia hib hir
    obtain ⟨pair, hpair, hmerge⟩ := mapM_getElem? hinputs i _ (List.getElem?_eq_getElem hir)
    obtain ⟨hpa, hpb⟩ := List.getElem?_zip_eq_some.mp hpair
    rw [List.getElem?_eq_getElem hia] at hpa
    rw [List.getElem?_eq_getElem hib] at hpb
    have hmerges := mergeInput_eq_ok.mp hmerge
    rw [← Option.some.inj hpa, ← Option.some.inj hpb] at hmerges
    exact merge_advance (ha.inputs.get hi hia) (hb.inputs.get hi hib) hmerges
  refine ⟨⟨hversion.trans ha.version, hrtx.trans ha.unsignedTx, ?_⟩, ?_, ?_⟩
  · refine List.forall₂_iff_get.mpr ⟨by omega, fun i hi hir => ?_⟩
    exact (hone i hi (by omega) (by omega) hir).1
  · refine progress_of_inputs hversion hrtx
      (List.forall₂_iff_get.mpr ⟨by omega, fun i hia hir => ?_⟩)
    exact (hone i (by omega) hia (by omega) hir).2.1
  · refine progress_of_inputs (hversion.trans (ha.version.trans hb.version.symm))
      (hrtx.trans htx) (List.forall₂_iff_get.mpr ⟨by omega, fun i hib hir => ?_⟩)
    exact (hone i (by omega) (by omega) hib hir).2.2

/-- A role works on a copy; what it leaves behind goes on, also after an exception. -/
def actStep (action : Action P) (psbt : Psbt) : Except Exn Psbt := .ok (action.apply psbt)

/-- A session on copies: roles of any signers, and copies that are combined. -/
def history (base : Psbt) (run : Run (Action P)) : Except Exn Psbt :=
  run.eval base actStep combineStep

/-- From any PSBT whose signatures are of different keys, whatever signers, finalizers and combiners
do to copies of it, decoding shows one transaction, one list of outputs and one fee throughout, and
what is shown of an input at one point of the session only grows in whatever is made of it. -/
theorem summary_progress {base : Psbt} (hbase : ∀ input ∈ base.inputs, DistinctSigs input)
    {part run : Run (Action P)} (hpart : part.Part run) {psbt psbt' : Psbt}
    (h : history base part = .ok psbt) (h' : history base run = .ok psbt') :
    Progress (psbtSummary P psbt) (psbtSummary P psbt') := by
  have hstart : KeptPsbt base base :=
    ⟨rfl, rfl, List.forall₂_same.mpr fun input hin => ⟨⟨rfl, rfl⟩, hbase input hin, fun _ => rfl⟩⟩
  let le := fun a b => Progress (psbtSummary P a) (psbtSummary P b)
  have hrefl : ∀ s, le s s := fun _ => .refl _
  have htrans : ∀ s t u, le s t → le t u → le s u := fun _ _ _ hab hbc => hab.trans hbc
  refine Run.part_le hrefl htrans hstart ?_ ?_ hpart h h'
  · intro s action s' hs hstep
    cases hstep
    exact apply_advance hs action
  · intro s t r hs ht hstep
    exact combine_advance hs ht (mapError_eq_ok.mp hstep)

/-- One member signs a copy. -/
def samplePart : Run (Action standIn) := .add .start (.sign 0 (sampleKey 11))

/-- Another one signs another copy, the two are combined, and the result is finalized. -/
def sampleHistory : Run (Action standIn) :=
  .add (.join samplePart (.add .start (.sign 0 (sampleKey 7)))) .finalize

theorem summary_progress_sample : ∃ psbt psbt', history samplePsbt samplePart = .ok psbt ∧
    history samplePsbt sampleHistory = .ok psbt' ∧
    Progress (psbtSummary standIn psbt) (psbtSummary standIn psbt') := by
  have hparts : samplePart.Part sampleHistory := .add _ (.left _ (.refl _))
  have hbase : ∀ input ∈ samplePsbt.inputs, DistinctSigs input := by
    intro input hin
    obtain rfl := List.mem_singleton.mp hin
    exact List.nodup_nil
  have hok : (history samplePsbt sampleHistory).isOk = true := by
    decide +kernel
  cases h : history samplePsbt sampleHistory with
  | error e =>
    rw [h] at hok
    cases hok
  | ok psbt' => exact ⟨_, psbt', rfl, rfl, summary_progress hbase hparts rfl h⟩

end Yubtc.Summary
