import Yubtc.PsbtRoles

/-!
# The Finalizer's loop

A finalized input keeps its UTXO records, so no input's outcome depends on whether another one
has been finalized before it: the loop gives every input its own outcome.
-/
namespace Yubtc.Finalizer

open Wire Errors ExceptRules Crypto Script Transaction PsbtData PsbtCodec PsbtRoles

variable {P : Primitives}

/-- The step writes its outcome. -/
theorem finalizePsbtInput_ok {psbt : Psbt} {index : Nat} {r : PsbtIn}
    (h : finalOutcome P psbt index = .ok r) :
    finalizePsbtInput P index psbt = .ok () (Psbt.modifyInput psbt index fun _ => r) := by
  have hchecked : checked (finalOutcome P psbt index) psbt = .ok r psbt := by
    rw [h]
    rfl
  simp only [finalizePsbtInput, bind, EStateM.bind, get, getThe, MonadStateOf.get, EStateM.get,
    hchecked]
  rfl

/-- A failing step leaves the PSBT as it was. -/
theorem finalizePsbtInput_error {psbt : Psbt} {index : Nat} {e : Exn}
    (h : finalOutcome P psbt index = .error e) :
    finalizePsbtInput P index psbt = .error e psbt := by
  have hchecked : checked (finalOutcome P psbt index) psbt = .error e psbt := by
    rw [h]
    rfl
  simp only [finalizePsbtInput, bind, EStateM.bind, get, getThe, MonadStateOf.get, EStateM.get,
    hchecked]

/-- Two input maps with the same UTXO records. -/
def SameUtxos (a b : PsbtIn) : Prop :=
  a.witnessUtxo = b.witnessUtxo ∧ a.nonWitnessUtxo = b.nonWitnessUtxo

theorem finalizeKey_utxos {index : Nat} {input r : PsbtIn} {scriptPubkey : Bytes}
    (h : finalizeKey P index input scriptPubkey = .ok r) : SameUtxos r input := by
  obtain ⟨form, -, h⟩ := bind_eq_ok.mp h
  obtain ⟨-, h⟩ := reject_bind_eq_ok.mp h
  cases form with
  | legacy committed =>
    obtain ⟨_, -, h⟩ := bind_eq_ok.mp h
    obtain ⟨_, -, h⟩ := bind_eq_ok.mp h
    cases h
    exact ⟨rfl, rfl⟩
  | p2wpkh committed =>
    obtain ⟨_, -, h⟩ := bind_eq_ok.mp h
    cases h
    exact ⟨rfl, rfl⟩
  | p2tr committed =>
    obtain ⟨_, -, h⟩ := bind_eq_ok.mp h
    cases h
    exact ⟨rfl, rfl⟩

theorem finalizeP2shMultisig_utxos {index : Nat} {input r : PsbtIn} {scriptPubkey : Bytes}
    (h : finalizeP2shMultisig P index input scriptPubkey = .ok r) : SameUtxos r input := by
  obtain ⟨_, -, h⟩ := bind_eq_ok.mp h
  obtain ⟨_, -, h⟩ := bind_eq_ok.mp h
  cases h
  exact ⟨rfl, rfl⟩

theorem finalizeP2wshMultisig_utxos {index : Nat} {input r : PsbtIn} {scriptPubkey : Bytes}
    (h : finalizeP2wshMultisig P index input scriptPubkey = .ok r) : SameUtxos r input := by
  obtain ⟨_, -, h⟩ := bind_eq_ok.mp h
  cases h
  exact ⟨rfl, rfl⟩

theorem finalizeP2trScriptpath_utxos {index : Nat} {input r : PsbtIn} {leaf : TapLeafScript}
    {scriptPubkey : Bytes} (h : finalizeP2trScriptpath P index input leaf scriptPubkey = .ok r) :
    SameUtxos r input := by
  obtain ⟨_, -, h⟩ := bind_eq_ok.mp h
  obtain ⟨-, h⟩ := reject_bind_eq_ok.mp h
  obtain ⟨_, -, h⟩ := bind_eq_ok.mp h
  obtain ⟨-, h⟩ := reject_bind_eq_ok.mp h
  cases h
  exact ⟨rfl, rfl⟩

/-- Finalization keeps the UTXO records. -/
theorem finalOutcome_utxos {psbt : Psbt} {index : Nat} {r : PsbtIn}
    (h : finalOutcome P psbt index = .ok r) :
    ∃ input, psbt.inputs[index]? = some input ∧ SameUtxos r input := by
  obtain ⟨input, hin, h⟩ := bind_eq_ok.mp h
  refine ⟨input, orElseThrow_eq_ok.mp hin, ?_⟩
  split at h
  · cases h
    exact ⟨rfl, rfl⟩
  · obtain ⟨⟨scriptPubkey, amount⟩, -, h⟩ := bind_eq_ok.mp h
    dsimp only at h
    split at h
    · exact finalizeP2shMultisig_utxos h
    · split at h
      · exact finalizeP2wshMultisig_utxos h
      · split at h
        · exact finalizeP2trScriptpath_utxos h
        · exact finalizeKey_utxos h

/-- UTXO lookup does not see which inputs are final. -/
theorem inputUtxoData_final {psbt : Psbt} {index : Nat} {r input : PsbtIn}
    (hin : psbt.inputs[index]? = some input) (h : SameUtxos r input) (j : Nat) :
    inputUtxoData (Psbt.modifyInput psbt index fun _ => r) j = inputUtxoData psbt j := by
  simp only [inputUtxoData, Psbt.modifyInput, List.getElem?_modify]
  by_cases hj : index = j
  · subst hj
    simp [hin, h.1, h.2]
  · cases psbt.inputs[j]? <;> simp [hj]

/-- Nor does the outcome of another input. -/
theorem finalOutcome_other {psbt : Psbt} {index j : Nat} {r : PsbtIn}
    (h : finalOutcome P psbt index = .ok r) (hj : j ≠ index) :
    finalOutcome P (Psbt.modifyInput psbt index fun _ => r) j = finalOutcome P psbt j := by
  obtain ⟨input, hin, hsame⟩ := finalOutcome_utxos h
  have hget : (Psbt.modifyInput psbt index fun _ => r).inputs[j]? = psbt.inputs[j]? :=
    List.getElem?_modify_ne _ _ hj.symm
  simp only [finalOutcome, hget, inputUtxoData_final hin hsame]

/-- The failures the loop passes over. -/
def PassedOver {α : Type} (x : Except Exn α) : Prop := ∀ e, x = .error e → ∃ d, e = .psbt d

/-- What the loop leaves at an index. -/
def settled (P : Primitives) (psbt : Psbt) (index : Nat) : Option PsbtIn :=
  match finalOutcome P psbt index with
  | .ok r => some r
  | .error _ => psbt.inputs[index]?

/-- The PSBT with the given indices settled. -/
structure Settles (P : Primitives) (indices : List Nat) (psbt psbt' : Psbt) : Prop where
  unsignedTx : psbt'.unsignedTx = psbt.unsignedTx
  inputs_length : psbt'.inputs.length = psbt.inputs.length
  utxos : ∀ j, inputUtxoData psbt' j = inputUtxoData psbt j
  inputs : ∀ j, psbt'.inputs[j]? = if j ∈ indices then settled P psbt j else psbt.inputs[j]?

/-- The loop settles every index, in one pass. -/
theorem finalizeInputs_settles {indices : List Nat} {psbt : Psbt} (hnd : indices.Nodup)
    (h : ∀ j ∈ indices, PassedOver (finalOutcome P psbt j)) :
    ∃ psbt', finalizeInputs P indices psbt = .ok () psbt' ∧ Settles P indices psbt psbt' := by
  induction indices generalizing psbt with
  | nil => exact ⟨psbt, rfl, rfl, rfl, fun _ => rfl, fun _ => rfl⟩
  | cons index rest ih =>
    obtain ⟨hindex, hrest⟩ := List.nodup_cons.mp hnd
    cases ho : finalOutcome P psbt index with
    | error e =>
      obtain ⟨d, rfl⟩ := h index List.mem_cons_self e ho
      obtain ⟨psbt', hloop, hs⟩ := ih hrest fun j hj => h j (List.mem_cons_of_mem _ hj)
      refine ⟨psbt', ?_, hs.unsignedTx, hs.inputs_length, hs.utxos, ?_⟩
      · simp only [finalizeInputs, finalizePsbtInput_error ho, hloop]
      · intro j
        rw [hs.inputs]
        by_cases hj : j = index
        · subst hj
          simp [hindex, settled, ho]
        · simp [hj]
    | ok r =>
      obtain ⟨input, hin, hsame⟩ := finalOutcome_utxos ho
      have hother : ∀ j ∈ rest, finalOutcome P (Psbt.modifyInput psbt index fun _ => r) j =
          finalOutcome P psbt j := by
        intro j hj
        apply finalOutcome_other ho
        rintro rfl
        exact hindex hj
      have hpass : ∀ j ∈ rest,
          PassedOver (finalOutcome P (Psbt.modifyInput psbt index fun _ => r) j) := by
        intro j hj
        rw [hother j hj]
        exact h j (List.mem_cons_of_mem _ hj)
      obtain ⟨psbt', hloop, hs⟩ := ih hrest hpass
      refine ⟨psbt', ?_, hs.unsignedTx, ?_, ?_, ?_⟩
      · simp only [finalizeInputs, finalizePsbtInput_ok ho, hloop]
      · rw [hs.inputs_length]
        exact List.length_modify _ _ _
      · intro j
        rw [hs.utxos, inputUtxoData_final hin hsame]
      · intro j
        have hget : (Psbt.modifyInput psbt index fun _ => r).inputs[j]? =
            if j = index then some r else psbt.inputs[j]? := by
          simp only [Psbt.modifyInput, List.getElem?_modify]
          by_cases hj : j = index
          · subst hj
            simp [hin]
          · simp [hj, Ne.symm hj]
        rw [hs.inputs]
        by_cases hj : j = index
        · subst hj
          simp [hindex, hget, settled, ho]
        · by_cases hm : j ∈ rest
          · simp [hm, settled, hother j hm, hget, hj]
          · simp [hm, hj, hget]

/-- Finalizing a PSBT settles every input. -/
theorem finalizePsbt_settles {psbt : Psbt}
    (h : ∀ j < psbt.inputs.length, PassedOver (finalOutcome P psbt j)) :
    ∃ psbt', finalizePsbt P psbt = .ok () psbt' ∧
      Settles P (List.range psbt.inputs.length) psbt psbt' :=
  finalizeInputs_settles List.nodup_range fun j hj => h j (List.mem_range.mp hj)

end Yubtc.Finalizer
