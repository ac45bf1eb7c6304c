import Yubtc.Finalization
import Yubtc.Canonicalisation

/-!
# Extraction

The Extractor asks whether the final field of an input is present, not whether it is empty. What it
returns is the unsigned transaction with the final fields put in.
-/
namespace Yubtc.Extraction

open Wire Errors ExceptRules Crypto Script Transaction PsbtData PsbtCodec PsbtRoles Finalizer
  QuorumPsbt Finalization

variable {P : Primitives}

theorem finalStack_eq_ok {i : Nat} {input : PsbtIn} {stack : List Bytes} :
    finalStack i input = .ok stack ↔
      ∃ witness, input.finalScriptwitness = some witness ∧
        decodeWitnessStack witness = .ok stack := by
  simp only [finalStack, bind_eq_ok, orElseThrow_eq_ok, mapError_eq_ok]

section Input

variable {psbt : Psbt} {i : Nat} {input : PsbtIn} {scriptPubkey : Bytes} {vin : PsbtTxIn}

/-- The transaction input with the script signature put in. -/
def ScriptFilled (psbt : Psbt) (i : Nat) (input : PsbtIn) (vin : PsbtTxIn) : Prop :=
  ∃ script, input.finalScriptsig = some script ∧
    ∃ old, psbt.unsignedTx.vin[i]? = some old ∧ { old with script := script } = vin

/-- The transaction input with the witness stack put in. -/
def StackFilled (psbt : Psbt) (i : Nat) (input : PsbtIn) (vin : PsbtTxIn) : Prop :=
  ∃ stack, (∃ witness, input.finalScriptwitness = some witness ∧
      decodeWitnessStack witness = .ok stack) ∧
    ∃ old, psbt.unsignedTx.vin[i]? = some old ∧ { old with script := [], witness := stack } = vin

theorem scriptFilled_iff :
    (do
      let script ← orElseThrow (.psbt .notFinalized) input.finalScriptsig
      let vin ← orElseThrow .indexError psbt.unsignedTx.vin[i]?
      return { vin with script := script } : Except Exn PsbtTxIn) = .ok vin ↔
    ScriptFilled psbt i input vin := by
  simp only [bind_eq_ok, orElseThrow_eq_ok, pure_eq_ok, Except.ok.injEq, ScriptFilled]

theorem stackFilled_iff :
    (do
      let stack ← finalStack i input
      let vin ← orElseThrow .indexError psbt.unsignedTx.vin[i]?
      return { vin with script := [], witness := stack } : Except Exn PsbtTxIn) = .ok vin ↔
    StackFilled psbt i input vin := by
  simp only [bind_eq_ok, finalStack_eq_ok, orElseThrow_eq_ok, pure_eq_ok, Except.ok.injEq,
    StackFilled]

/-- The forms whose script signature is taken, and what else they ask of the input. -/
def TakesScript (scriptPubkey : Bytes) (input : PsbtIn) : Prop :=
  (∃ hash, formOfScript scriptPubkey = some (.legacy hash)) ∨
    isP2shScript scriptPubkey = true ∧ input.finalScriptwitness = none

/-- The forms whose witness stack is taken, and what else they ask of the input. -/
def TakesStack (scriptPubkey : Bytes) (input : PsbtIn) : Prop :=
  isP2wshScript scriptPubkey = true ∧ input.finalScriptsig = none ∨
    (∃ form, formOfScript scriptPubkey = some form ∧ ∀ hash, form ≠ .legacy hash) ∧
      ¬ (input.finalScriptsig.isSome = true ∧ input.tapLeafScripts ≠ [])

/-- An input is extracted exactly from the field of its form. -/
theorem extractInput_eq_ok :
    extractInput psbt i input = .ok vin ↔ ∃ scriptPubkey amount,
      inputUtxoData psbt i = some (scriptPubkey, amount) ∧
        (TakesScript scriptPubkey input ∧ ScriptFilled psbt i input vin ∨
          TakesStack scriptPubkey input ∧ StackFilled psbt i input vin) := by
  cases hutxo : inputUtxoData psbt i with
  | none => simp [extractInput, hutxo]
  | some utxo =>
    obtain ⟨scriptPubkey, amount⟩ := utxo
    have hone : extractInput psbt i input = .ok vin ↔
        TakesScript scriptPubkey input ∧ ScriptFilled psbt i input vin ∨
          TakesStack scriptPubkey input ∧ StackFilled psbt i input vin := by
      simp only [extractInput, hutxo, orElseThrow_some, ok_bind]
      cases hform : formOfScript scriptPubkey with
      | none =>
        by_cases hp2sh : isP2shScript scriptPubkey = true
        · have hp2wsh := (forms_of_p2sh (of_decide_eq_true hp2sh)).2.2.1
          dsimp only
          rw [if_pos hp2sh, reject_bind_eq_ok, scriptFilled_iff]
          simp [TakesScript, TakesStack, hform, hp2sh, hp2wsh]
        · by_cases hp2wsh : isP2wshScript scriptPubkey = true
          · dsimp only
            rw [if_neg hp2sh, if_pos hp2wsh, reject_bind_eq_ok, stackFilled_iff]
            simp [TakesScript, TakesStack, hform, hp2sh, hp2wsh]
          · simp [hp2sh, hp2wsh, TakesScript, TakesStack, hform]
      | some form =>
        have hp2sh : ¬ isP2shScript scriptPubkey = true := by
          intro h
          cases (forms_of_p2sh (of_decide_eq_true h)).1.symm.trans hform
        have hp2wsh : ¬ isP2wshScript scriptPubkey = true := by
          intro h
          cases (forms_of_p2wsh (of_decide_eq_true h)).1.symm.trans hform
        cases form with
        | legacy hash =>
          simp only [scriptFilled_iff]
          simp [TakesScript, TakesStack, hform, hp2wsh]
        | p2wpkh hash =>
          simp only [reject_bind_eq_ok, stackFilled_iff]
          simp [TakesScript, TakesStack, hform, hp2wsh, hp2sh]
        | p2tr key =>
          simp only [reject_bind_eq_ok, stackFilled_iff]
          simp [TakesScript, TakesStack, hform, hp2wsh, hp2sh]
    rw [hone]
    constructor
    · exact fun h => ⟨scriptPubkey, amount, rfl, h⟩
    · rintro ⟨_, _, hsome, h⟩
      cases hsome
      exact h

end Input

variable (P) in
/-- Parsed, and finalized any number of times. -/
inductive Offered : Psbt → Prop
  | parsed {data : Bytes} {psbt : Psbt} (h : parsePsbt data = .ok psbt) : Offered psbt
  | finalized {psbt : Psbt} (h : Offered psbt) : Offered (leftBehind (finalizePsbt P psbt))

/-- An input map for every input of a transaction that carries no scripts and no witnesses. -/
structure Aligned (psbt : Psbt) : Prop where
  inputs_length : psbt.inputs.length = psbt.unsignedTx.vin.length
  unsigned : ∀ vin ∈ psbt.unsignedTx.vin, vin.script = [] ∧ vin.witness = []

theorem Offered.aligned {psbt : Psbt} (h : Offered P psbt) : Aligned psbt := by
  induction h with
  | parsed h =>
    have hw := Canonicalisation.parsed_writable h
    exact ⟨hw.wellFormed.inputs_length, hw.unsigned⟩
  | finalized _ ih =>
    apply leftBehind_finalizeInputs _ _ ih
    intro index s hs
    obtain ⟨htx, hlen⟩ := leftBehind_finalizePsbtInput (P := P) index s
    constructor
    · rw [hlen, htx]
      exact hs.inputs_length
    · rw [htx]
      exact hs.unsigned

/-- The transaction input carries the non-empty final field of the input map. -/
def Extracted (input : PsbtIn) (vin : PsbtTxIn) : Prop :=
  (∃ script ≠ [], input.finalScriptsig = some script ∧ vin.script = script ∧ vin.witness = []) ∨
    ∃ witness, ∃ stack ≠ [], input.finalScriptwitness = some witness ∧
      decodeWitnessStack witness = .ok stack ∧ vin.script = [] ∧ vin.witness = stack

/-- The unsigned transaction with a final field in every input. -/
structure Faithful (psbt : Psbt) (tx : PsbtTransaction) : Prop where
  version : tx.version = psbt.unsignedTx.version
  vout : tx.vout = psbt.unsignedTx.vout
  locktime : tx.locktime = psbt.unsignedTx.locktime
  vin_length : tx.vin.length = psbt.unsignedTx.vin.length
  vin : ∀ (i : Nat) vin, tx.vin[i]? = some vin → ∃ input old, psbt.inputs[i]? = some input ∧
    psbt.unsignedTx.vin[i]? = some old ∧
    (vin.txhash = old.txhash ∧ vin.n = old.n ∧ vin.sequence = old.sequence) ∧ Extracted input vin

/-- A final field that is not empty. -/
def HasFinal (input : PsbtIn) : Prop :=
  (∃ script ≠ [], input.finalScriptsig = some script) ∨
    ∃ witness, ∃ stack ≠ [], input.finalScriptwitness = some witness ∧
      decodeWitnessStack witness = .ok stack

/-- What is extracted is complete, and an input without a final field ends the extraction. -/
def Complete (psbt : Psbt) : Prop :=
  (∀ tx, extractTransaction psbt = .ok tx → Faithful psbt tx) ∧
    ∀ input ∈ psbt.inputs, ¬ HasFinal input → ∃ e, extractTransaction psbt = .error e

/-- The input has the field of its form and nothing that the form refuses. -/
def Ready (psbt : Psbt) (i : Nat) : Prop :=
  ∃ input scriptPubkey amount, psbt.inputs[i]? = some input ∧
    inputUtxoData psbt i = some (scriptPubkey, amount) ∧
    (TakesScript scriptPubkey input ∧ (∃ script, input.finalScriptsig = some script) ∨
      TakesStack scriptPubkey input ∧ ∃ witness stack, input.finalScriptwitness = some witness ∧
        decodeWitnessStack witness = .ok stack)

/-- The field of its form is there and is empty. -/
def Hollow (psbt : Psbt) (i : Nat) : Prop :=
  ∃ input scriptPubkey amount, psbt.inputs[i]? = some input ∧
    inputUtxoData psbt i = some (scriptPubkey, amount) ∧
    (TakesScript scriptPubkey input ∧ input.finalScriptsig = some [] ∨
      TakesStack scriptPubkey input ∧ ∃ witness, input.finalScriptwitness = some witness ∧
        decodeWitnessStack witness = .ok [])

section Transaction

variable {psbt : Psbt} {i : Nat} {input : PsbtIn} {vin : PsbtTxIn} {tx : PsbtTransaction}

theorem extractTransaction_eq_ok :
    extractTransaction psbt = .ok tx ↔ ∃ vin,
      (psbt.inputs.zipIdx.mapM fun x => extractInput psbt x.2 x.1) = .ok vin ∧
        { psbt.unsignedTx with vin := vin } = tx := by
  simp only [extractTransaction, bind_eq_ok, pure_eq_ok, Except.ok.injEq]

/-- The inputs of an extracted transaction, one by one. -/
theorem extracted_getElem? {vins : List PsbtTxIn}
    (h : (psbt.inputs.zipIdx.mapM fun x => extractInput psbt x.2 x.1) = .ok vins)
    (hin : psbt.inputs[i]? = some input) :
    ∃ vin, vins[i]? = some vin ∧ extractInput psbt i input = .ok vin := by
  have hlen : vins.length = psbt.inputs.length := by rw [mapM_length h, List.length_zipIdx]
  have hi : i < vins.length := hlen ▸ (List.getElem?_eq_some_iff.mp hin).1
  obtain ⟨x, hx, hextract⟩ := mapM_getElem? h i vins[i] (List.getElem?_eq_getElem hi)
  rw [List.getElem?_zipIdx, hin, Option.map_some, Option.some.injEq, Nat.zero_add] at hx
  subst hx
  exact ⟨vins[i], List.getElem?_eq_getElem hi, hextract⟩

/-- What is extracted once every input has been finalized. -/
theorem extractInput_settled {final : Psbt}
    (hs : Settles P (List.range psbt.inputs.length) psbt final) (i : Nat) (input : PsbtIn) :
    extractInput final i input = extractInput psbt i input := by
  simp only [extractInput, hs.utxos, hs.unsignedTx]

/-- An input without a final field is not extracted. -/
theorem isFinal_of_extracted (h : extractInput psbt i input = .ok vin) : IsFinal input := by
  obtain ⟨scriptPubkey, amount, -, h⟩ := extractInput_eq_ok.mp h
  cases h with
  | inl h =>
    obtain ⟨-, script, hscript, -⟩ := h
    exact .inl (Option.isSome_iff_exists.mpr ⟨script, hscript⟩)
  | inr h =>
    obtain ⟨-, stack, ⟨witness, hwitness, -⟩, -⟩ := h
    exact .inr (Option.isSome_iff_exists.mpr ⟨witness, hwitness⟩)

variable (P) in
/-- The Extractor after the Finalizer. -/
def Extracts (psbt : Psbt) (tx : PsbtTransaction) : Prop :=
  ∃ final, finalizePsbt P psbt = .ok () final ∧ extractTransaction final = .ok tx

/-- A PSBT without final fields is finalized and extracted input by input. -/
theorem extracts_iff (hopen : ∀ input ∈ psbt.inputs, ¬ IsFinal input) :
    Extracts P psbt tx ↔ tx = { psbt.unsignedTx with vin := tx.vin } ∧
      tx.vin.length = psbt.inputs.length ∧ ∀ (i : Nat) vin, tx.vin[i]? = some vin →
        ∃ r, finalOutcome P psbt i = .ok r ∧ extractInput psbt i r = .ok vin := by
  constructor
  · rintro ⟨final, hfinal, hextract⟩
    obtain ⟨result, hrun, hs⟩ := finalizePsbt_settles (finalizePsbt_passed hfinal)
    cases hrun.symm.trans hfinal
    obtain ⟨vins, hvins, rfl⟩ := extractTransaction_eq_ok.mp hextract
    have hlen : vins.length = psbt.inputs.length := by
      rw [mapM_length hvins, List.length_zipIdx, hs.inputs_length]
    refine ⟨by rw [hs.unsignedTx], hlen, ?_⟩
    intro i vin hvin
    obtain ⟨x, hx, hone⟩ := mapM_getElem? hvins i vin hvin
    rw [List.getElem?_zipIdx, Nat.zero_add, settles_inputs hs] at hx
    obtain ⟨r, hr, rfl⟩ := Option.map_eq_some_iff.mp hx
    rw [extractInput_settled hs] at hone
    rw [settled] at hr
    cases ho : finalOutcome P psbt i with
    | ok r' =>
      rw [ho] at hr
      cases hr
      exact ⟨r, rfl, hone⟩
    | error e =>
      rw [ho] at hr
      exact absurd (isFinal_of_extracted hone) (hopen r (List.mem_of_getElem? hr))
  · rintro ⟨htx, hlen, hall⟩
    have hget : ∀ i (hi : i < tx.vin.length), ∃ r, finalOutcome P psbt i = .ok r ∧
        extractInput psbt i r = .ok tx.vin[i] :=
      fun i hi => hall i _ (List.getElem?_eq_getElem hi)
    have hpassed : ∀ j < psbt.inputs.length, PassedOver (finalOutcome P psbt j) := by
      intro j hj e he
      obtain ⟨r, hr, -⟩ := hget j (hlen.symm ▸ hj)
      cases hr.symm.trans he
    obtain ⟨final, hfinal, hs⟩ := finalizePsbt_settles hpassed
    refine ⟨final, hfinal, extractTransaction_eq_ok.mpr ⟨tx.vin, ?_, ?_⟩⟩
    · rw [mapM_eq_ok, List.forall₂_iff_get]
      refine ⟨by rw [List.length_zipIdx, hs.inputs_length, hlen], ?_⟩
      intro i hi hi'
      obtain ⟨r, hr, hone⟩ := hget i hi'
      rw [List.length_zipIdx] at hi
      have hsettled := settles_inputs hs i
      rw [settled, hr, List.getElem?_eq_getElem hi, Option.some.injEq] at hsettled
      simp only [List.get_eq_getElem, List.getElem_zipIdx, Nat.zero_add, hsettled]
      rw [extractInput_settled hs]
      exact hone
    · rw [hs.unsignedTx]
      exact htx.symm

/-- An input that can be extracted is ready. -/
theorem ready_of_extracted (hin : psbt.inputs[i]? = some input)
    (h : extractInput psbt i input = .ok vin) : Ready psbt i := by
  obtain ⟨scriptPubkey, amount, hutxo, h⟩ := extractInput_eq_ok.mp h
  refine ⟨input, scriptPubkey, amount, hin, hutxo, ?_⟩
  rcases h with ⟨htakes, script, hscript, -⟩ | ⟨htakes, stack, ⟨witness, hwitness, hstack⟩, -⟩
  · exact .inl ⟨htakes, script, hscript⟩
  · exact .inr ⟨htakes, witness, stack, hwitness, hstack⟩

theorem extracted_of_ready (hal : Aligned psbt) (hin : psbt.inputs[i]? = some input)
    (h : Ready psbt i) : Succeeds (extractInput psbt i input) := by
  obtain ⟨input', scriptPubkey, amount, hin', hutxo, h⟩ := h
  cases hin.symm.trans hin'
  have hlt : i < psbt.unsignedTx.vin.length :=
    hal.inputs_length ▸ (List.getElem?_eq_some_iff.mp hin).1
  have hold := List.getElem?_eq_getElem hlt
  rcases h with ⟨htakes, script, hscript⟩ | ⟨htakes, witness, stack, hwitness, hstack⟩
  · exact ⟨_, extractInput_eq_ok.mpr ⟨scriptPubkey, amount, hutxo,
      .inl ⟨htakes, script, hscript, _, hold, rfl⟩⟩⟩
  · exact ⟨_, extractInput_eq_ok.mpr ⟨scriptPubkey, amount, hutxo,
      .inr ⟨htakes, stack, ⟨witness, hwitness, hstack⟩, _, hold, rfl⟩⟩⟩

/-- Extraction succeeds exactly when every input is ready. -/
theorem extractTransaction_succeeds (hal : Aligned psbt) :
    Succeeds (extractTransaction psbt) ↔ ∀ i < psbt.inputs.length, Ready psbt i := by
  constructor
  · rintro ⟨tx, h⟩ i hi
    obtain ⟨vins, hvins, -⟩ := extractTransaction_eq_ok.mp h
    have hin := List.getElem?_eq_getElem hi
    obtain ⟨vin, -, hvin⟩ := extracted_getElem? hvins hin
    exact ready_of_extracted hin hvin
  · intro h
    have hall : ∀ x ∈ psbt.inputs.zipIdx, Succeeds (extractInput psbt x.2 x.1) := by
      rintro ⟨input, i⟩ hx
      have hin := List.mk_mem_zipIdx_iff_getElem?.mp hx
      exact extracted_of_ready hal hin (h i (List.getElem?_eq_some_iff.mp hin).1)
    obtain ⟨vins, hvins⟩ := succeeds_mapM.mpr hall
    exact ⟨_, extractTransaction_eq_ok.mpr ⟨vins, hvins, rfl⟩⟩

/-- What an extracted input carries, unless the field is empty. -/
theorem extracted_spec (hal : Aligned psbt) (hin : psbt.inputs[i]? = some input)
    (hno : ¬ Hollow psbt i) (h : extractInput psbt i input = .ok vin) :
    ∃ old, psbt.unsignedTx.vin[i]? = some old ∧
      (vin.txhash = old.txhash ∧ vin.n = old.n ∧ vin.sequence = old.sequence) ∧
      Extracted input vin := by
  obtain ⟨scriptPubkey, amount, hutxo, h⟩ := extractInput_eq_ok.mp h
  rcases h with ⟨htakes, script, hscript, old, hold, rfl⟩ |
    ⟨htakes, stack, ⟨witness, hwitness, hstack⟩, old, hold, rfl⟩
  · have hbare := (hal.unsigned old (List.mem_of_getElem? hold)).2
    refine ⟨old, hold, ⟨rfl, rfl, rfl⟩, .inl ⟨script, ?_, hscript, rfl, hbare⟩⟩
    rintro rfl
    exact hno ⟨input, scriptPubkey, amount, hin, hutxo, .inl ⟨htakes, hscript⟩⟩
  · refine ⟨old, hold, ⟨rfl, rfl, rfl⟩, .inr ⟨witness, stack, ?_, hwitness, hstack, rfl, rfl⟩⟩
    rintro rfl
    exact hno ⟨input, scriptPubkey, amount, hin, hutxo, .inr ⟨htakes, witness, hwitness, hstack⟩⟩

theorem Extracted.hasFinal (h : Extracted input vin) : HasFinal input := by
  rcases h with ⟨script, hne, hscript, -⟩ | ⟨witness, stack, hne, hwitness, hstack, -⟩
  · exact .inl ⟨script, hne, hscript⟩
  · exact .inr ⟨witness, stack, hne, hwitness, hstack⟩

/-- An empty field gives a transaction input that carries nothing. -/
theorem extracted_hollow (hal : Aligned psbt) (hin : psbt.inputs[i]? = some input)
    (h : Hollow psbt i) :
    ∃ vin, extractInput psbt i input = .ok vin ∧ vin.script = [] ∧ vin.witness = [] := by
  obtain ⟨input', scriptPubkey, amount, hin', hutxo, h⟩ := h
  cases hin.symm.trans hin'
  have hlt : i < psbt.unsignedTx.vin.length :=
    hal.inputs_length ▸ (List.getElem?_eq_some_iff.mp hin).1
  have hold := List.getElem?_eq_getElem hlt
  rcases h with ⟨htakes, hscript⟩ | ⟨htakes, witness, hwitness, hstack⟩
  · exact ⟨_, extractInput_eq_ok.mpr ⟨scriptPubkey, amount, hutxo,
      .inl ⟨htakes, [], hscript, _, hold, rfl⟩⟩, rfl,
      (hal.unsigned _ (List.mem_of_getElem? hold)).2⟩
  · exact ⟨_, extractInput_eq_ok.mpr ⟨scriptPubkey, amount, hutxo,
      .inr ⟨htakes, [], ⟨witness, hwitness, hstack⟩, _, hold, rfl⟩⟩, rfl, rfl⟩

theorem not_extracted_of_bare (hscript : vin.script = []) (hwitness : vin.witness = []) :
    ¬ Extracted input vin := by
  rintro (⟨script, hne, -, hv, -⟩ | ⟨witness, stack, hne, -, -, -, hv⟩)
  · exact hne (hv.symm.trans hscript)
  · exact hne (hv.symm.trans hwitness)

theorem complete_iff (hal : Aligned psbt) :
    Complete psbt ↔ ((∀ i < psbt.inputs.length, Ready psbt i) → ∀ i, ¬ Hollow psbt i) := by
  constructor
  · intro hc hready i hhollow
    obtain ⟨tx, htx⟩ := (extractTransaction_succeeds hal).mpr hready
    obtain ⟨vins, hvins, hmade⟩ := extractTransaction_eq_ok.mp htx
    have hin : ∃ input, psbt.inputs[i]? = some input := by
      obtain ⟨input, -, -, hin, -⟩ := hhollow
      exact ⟨input, hin⟩
    obtain ⟨input, hin⟩ := hin
    obtain ⟨vin, hvin, hextract⟩ := extracted_getElem? hvins hin
    obtain ⟨vin', hextract', hscript, hwitness⟩ := extracted_hollow hal hin hhollow
    cases hextract.symm.trans hextract'
    obtain ⟨_, _, -, -, -, hfaithful⟩ := (hc.1 tx htx).vin i vin (by rw [← hmade]; exact hvin)
    exact not_extracted_of_bare hscript hwitness hfaithful
  · intro h
    have hfaithful : ∀ tx, extractTransaction psbt = .ok tx → Faithful psbt tx := by
      intro tx htx
      have hno := h ((extractTransaction_succeeds hal).mp ⟨tx, htx⟩)
      obtain ⟨vins, hvins, rfl⟩ := extractTransaction_eq_ok.mp htx
      have hlen : vins.length = psbt.inputs.length := by rw [mapM_length hvins, List.length_zipIdx]
      refine ⟨rfl, rfl, rfl, hlen.trans hal.inputs_length, ?_⟩
      intro i vin hvin
      have hi : i < psbt.inputs.length := hlen ▸ (List.getElem?_eq_some_iff.mp hvin).1
      have hin := List.getElem?_eq_getElem hi
      obtain ⟨vin', hvin', hextract⟩ := extracted_getElem? hvins hin
      cases hvin.symm.trans hvin'
      obtain ⟨old, hold, hsame, hex⟩ := extracted_spec hal hin (hno i) hextract
      exact ⟨_, old, hin, hold, hsame, hex⟩
    refine ⟨hfaithful, ?_⟩
    intro input hmem hnone
    rw [← not_succeeds_iff]
    rintro ⟨tx, htx⟩
    obtain ⟨i, hin⟩ := List.mem_iff_getElem?.mp hmem
    have hi : i < tx.vin.length := by
      rw [(hfaithful tx htx).vin_length, ← hal.inputs_length]
      exact (List.getElem?_eq_some_iff.mp hin).1
    obtain ⟨input', old, hin', -, -, hex⟩ :=
      (hfaithful tx htx).vin i _ (List.getElem?_eq_getElem hi)
    cases hin.symm.trans hin'
    exact hnone hex.hasFinal

end Transaction

/-- Extraction is complete and faithful unless all inputs are ready and the field of one is empty. -/
theorem extractTransaction_complete {psbt : Psbt} (h : Offered P psbt) :
    Complete psbt ↔ ((∀ i < psbt.inputs.length, Ready psbt i) → ∀ i, ¬ Hollow psbt i) :=
  complete_iff h.aligned

def hollowInput : PsbtIn :=
  { emptyInput with
    witnessUtxo := some ⟨5000, p2wpkhShape.build (List.replicate 20 0x11)⟩
    finalScriptwitness := some [0x00] }

/-- One key-hash input, finalized with a stack of no items. -/
def hollowPsbt : Psbt where
  version := 0
  unsignedTx := ⟨2, [⟨List.replicate 32 0x22, 0, [], 0xffffffff, []⟩], [⟨4000, [0x51]⟩], 0⟩
  inputs := [hollowInput]
  outputs := [⟨[]⟩]
  unknownGlobal := []

theorem hollowPsbt_offered : Offered standIn hollowPsbt :=
  .parsed (show parsePsbt (serializePsbt hollowPsbt) = .ok hollowPsbt by decide +kernel)

theorem hollow_stack_extracted : ¬ ∀ psbt, Offered standIn psbt → Complete psbt := by
  intro h
  have hextract : extractTransaction hollowPsbt = .ok hollowPsbt.unsignedTx := by decide +kernel
  obtain ⟨input, old, hin, -, -, hex⟩ :=
    ((h hollowPsbt hollowPsbt_offered).1 _ hextract).vin 0 _ rfl
  exact not_extracted_of_bare rfl rfl hex

theorem extractTransaction_complete_sample :
    Complete hollowPsbt ↔
      ((∀ i < hollowPsbt.inputs.length, Ready hollowPsbt i) → ∀ i, ¬ Hollow hollowPsbt i) :=
  extractTransaction_complete hollowPsbt_offered

end Yubtc.Extraction
