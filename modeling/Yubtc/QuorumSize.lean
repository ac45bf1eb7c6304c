import Yubtc.Extraction
import Yubtc.Funding
import Yubtc.LowRates
import Yubtc.PsbtReading
import Yubtc.QuorumFinal

/-!
# The size of a quorum's spend

The fee of a quorum's payment is the price of a placeholder: a transaction with room for the
signatures that are still missing. Both witness forms leave enough room. The script signature is
priced without the redeem script that it pushes last.
-/
namespace Yubtc.QuorumSize

open Wire Errors ExceptRules Crypto Script Quorum Transaction PsbtData PsbtCodec PsbtRoles Signer
  Finalizer QuorumPsbt QuorumSigning Finalization Extraction Wallet FeeLoop Payment QuorumPayment
  Sizes PsbtReading

variable {P : Primitives}

/-- An input that takes no more room than another one. -/
structure Within (i j : PsbtTxIn) : Prop where
  stripped : i.serialize.length ≤ j.serialize.length
  witness : witnessSize i.witness ≤ witnessSize j.witness
  bare : j.witness = [] → i.witness = []

theorem bare_of_within {l l' : List PsbtTxIn} (h : List.Forall₂ Within l l')
    (hbare : ∀ j ∈ l', j.witness = []) : ∀ i ∈ l, i.witness = [] := by
  induction h with
  | nil => exact fun i hi => absurd hi List.not_mem_nil
  | cons hij _ ih =>
    intro i hi
    cases List.mem_cons.mp hi with
    | inl he => exact he ▸ hij.bare (hbare _ List.mem_cons_self)
    | inr hmem => exact ih (fun j hj => hbare j (List.mem_cons_of_mem _ hj)) i hmem

theorem sum_lt_sum {l l' : List Nat} (h : List.Forall₂ (· < ·) l l') (hne : l ≠ []) :
    l.sum < l'.sum := by
  cases h with
  | nil => exact absurd rfl hne
  | cons hhead htail =>
    have hrest := (htail.imp fun _ _ => Nat.le_of_lt).sum_le_sum
    rw [List.sum_cons, List.sum_cons]
    omega

theorem not_hasWitness {tx : PsbtTransaction} :
    tx.hasWitness = false ↔ ∀ i ∈ tx.vin, i.witness = [] := by
  simp [PsbtTransaction.hasWitness]

theorem stripped_le {tx tx' : PsbtTransaction} (hvout : tx.vout = tx'.vout)
    (h : List.Forall₂ (fun i j : PsbtTxIn => i.serialize.length ≤ j.serialize.length) tx.vin
      tx'.vin) : tx.serializeStripped.length ≤ tx'.serializeStripped.length := by
  have hsum : (tx.vin.map fun i => i.serialize.length).sum ≤
      (tx'.vin.map fun i => i.serialize.length).sum := by
    apply List.Forall₂.sum_le_sum
    rw [List.forall₂_map_left_iff, List.forall₂_map_right_iff]
    exact h
  simp only [PsbtTransaction.serializeStripped, List.length_append, List.length_flatMap,
    packl_length, packL_length, h.length_eq, hvout]
  omega

theorem vsize_le_of_within {tx tx' : PsbtTransaction} (hvout : tx.vout = tx'.vout)
    (h : List.Forall₂ Within tx.vin tx'.vin) : vsize tx ≤ vsize tx' := by
  have hstripped := stripped_le hvout (h.imp fun i j hij => hij.stripped)
  have hsum : (tx.vin.map fun i => witnessSize i.witness).sum ≤
      (tx'.vin.map fun i => witnessSize i.witness).sum := by
    apply List.Forall₂.sum_le_sum
    rw [List.forall₂_map_left_iff, List.forall₂_map_right_iff]
    exact h.imp fun i j hij => hij.witness
  have hwire : tx.serializeWire.length ≤ tx'.serializeWire.length := by
    cases hwitness : tx'.hasWitness with
    | true =>
      rw [psbtWire_length hwitness]
      cases hown : tx.hasWitness with
      | true =>
        rw [psbtWire_length hown]
        omega
      | false =>
        rw [PsbtTransaction.serializeWire, hown, if_pos Bool.false_ne_true]
        omega
    | false =>
      have hown : tx.hasWitness = false :=
        not_hasWitness.mpr (bare_of_within h (not_hasWitness.mp hwitness))
      rw [PsbtTransaction.serializeWire, PsbtTransaction.serializeWire, hown, hwitness]
      exact hstripped
  rw [vsize, vsize, weight, weight]
  omega

/-- Without a witness the virtual size is the number of bytes. -/
theorem vsize_bare {tx : PsbtTransaction} (h : tx.hasWitness = false) :
    vsize tx = tx.serializeStripped.length := by
  rw [vsize, weight, PsbtTransaction.serializeWire, h, if_pos Bool.false_ne_true]
  omega

theorem vsize_lt_of_longer {tx tx' : PsbtTransaction} (hvout : tx.vout = tx'.vout)
    (hbare : tx.hasWitness = false) (hbare' : tx'.hasWitness = false) (hne : tx.vin ≠ [])
    (h : List.Forall₂ (fun i j : PsbtTxIn => i.serialize.length < j.serialize.length) tx.vin
      tx'.vin) : vsize tx < vsize tx' := by
  have hsum : (tx.vin.map fun i => i.serialize.length).sum <
      (tx'.vin.map fun i => i.serialize.length).sum := by
    apply sum_lt_sum
    · rw [List.forall₂_map_left_iff, List.forall₂_map_right_iff]
      exact h
    · exact fun hnil => hne (List.map_eq_nil_iff.mp hnil)
  rw [vsize_bare hbare, vsize_bare hbare']
  simp only [PsbtTransaction.serializeStripped, List.length_append, List.length_flatMap,
    packl_length, packL_length, h.length_eq, hvout]
  omega

theorem itemSize_mono {m n : Nat} (h : m ≤ n) : itemSize m ≤ itemSize n :=
  Nat.add_le_add (compactSizeLen_mono h) h

/-- The stacks of the sizing, by form. -/
theorem sizedWitness_p2wsh {s : QuorumSizing} (hform : s.form = .p2wsh) :
    s.sizedWitness true =
      [] :: List.replicate s.m (List.replicate msSigSizeEstimate 0) ++ [s.redeem] := by
  simp [QuorumSizing.sizedWitness, hform]

theorem sizedWitness_p2tr {s : QuorumSizing} (hform : s.form = .p2tr) :
    s.sizedWitness true = List.replicate s.m (List.replicate msSigSizeEstimateTap 0) ++
      List.replicate (s.nKeys - s.m) [] ++ [s.redeem, s.controlBlock] := by
  simp [QuorumSizing.sizedWitness, hform]

/-- ECDSA signatures fit in their placeholders. -/
theorem witnessSize_p2wsh {redeem : Bytes} {sigs : List Bytes}
    (h : ∀ sig ∈ sigs, sig.length ≤ msSigSizeEstimate) :
    witnessSize (makeMultisigWitness redeem sigs) ≤ witnessSize
      ([] :: List.replicate sigs.length (List.replicate msSigSizeEstimate 0) ++ [redeem]) := by
  have hsigs : (sigs.map fun item => itemSize item.length).sum ≤
      sigs.length * itemSize msSigSizeEstimate := by
    have hle := List.sum_le_card_nsmul (sigs.map fun item => itemSize item.length)
      (itemSize msSigSizeEstimate) (by
        intro size hsize
        obtain ⟨sig, hsig, rfl⟩ := List.mem_map.mp hsize
        exact itemSize_mono (h sig hsig))
    rwa [List.length_map, smul_eq_mul] at hle
  simp only [witnessSize, makeMultisigWitness, List.cons_append, List.length_cons,
    List.length_append, List.length_replicate, List.map_cons, List.map_append, List.sum_cons,
    List.sum_append, List.map_replicate, List.sum_replicate, smul_eq_mul]
  omega

/-- A slot takes one byte, or the 65 of a Schnorr signature with its length. -/
theorem slots_size {slots : List (Option Bytes)}
    (h : ∀ slot ∈ slots, ∀ sig ∈ slot, sig.length = 64) :
    (slots.map fun slot => itemSize (slot.getD []).length).sum =
      slots.reduceOption.length * 64 + slots.length := by
  induction slots with
  | nil => rfl
  | cons slot slots ih =>
    have hrest := ih fun slot hslot => h slot (List.mem_cons_of_mem _ hslot)
    cases slot with
    | none =>
      rw [List.map_cons, List.sum_cons, hrest, List.reduceOption_cons_of_none, List.length_cons]
      have hempty : itemSize (none.getD ([] : Bytes)).length = 1 := rfl
      omega
    | some sig =>
      have hsig : itemSize ((some sig).getD []).length = 65 := by
        rw [Option.getD_some, h _ List.mem_cons_self sig rfl]
        rfl
      rw [List.map_cons, List.sum_cons, hrest, List.reduceOption_cons_of_some, List.length_cons,
        List.length_cons]
      omega

/-- Schnorr signatures fit in their placeholders. -/
theorem witnessSize_p2tr {script controlBlock sized : Bytes} {slots : List (Option Bytes)} {m : Nat}
    (h : ∀ slot ∈ slots, ∀ sig ∈ slot, sig.length = 64) (hm : slots.reduceOption.length = m)
    (hle : m ≤ slots.length) (hsized : controlBlock.length = sized.length) :
    witnessSize (makeMultisigTapscriptWitness script controlBlock slots) ≤ witnessSize
      (List.replicate m (List.replicate msSigSizeEstimateTap 0) ++
        List.replicate (slots.length - m) [] ++ [script, sized]) := by
  have hslots := slots_size h
  have hfull : itemSize msSigSizeEstimateTap = 67 := rfl
  have hempty : itemSize 0 = 1 := rfl
  have hcount : m + (slots.length - m) + (0 + 1 + 1) = slots.length + (0 + 1 + 1) := by omega
  simp only [witnessSize, makeMultisigTapscriptWitness, List.length_append, List.length_map,
    List.length_reverse, List.length_replicate, List.length_cons, List.length_nil, hcount,
    List.map_append, List.map_map, List.map_replicate, List.sum_append, List.sum_replicate,
    smul_eq_mul, List.map_reverse, List.sum_reverse, hfull, hempty, List.map_cons, List.map_nil,
    List.sum_cons, List.sum_nil, hsized]
  have hsame : (fun item : Bytes => itemSize item.length) ∘ (fun slot : Option Bytes =>
      slot.getD []) = fun slot => itemSize (slot.getD []).length := rfl
  rw [hsame, hslots, hm]
  omega

/-- The script signature with every signature as long as its placeholder: longer than priced by
the script it pushes last. -/
theorem scriptSig_length {s : QuorumSizing} {sigs : List Bytes}
    (h : ∀ sig ∈ sigs, sig.length = msSigSizeEstimate) (hm : sigs.length = s.m) :
    (op0 :: (sigs.map pushed).flatten ++ pushed s.redeem).length =
      s.scriptSigLen + s.redeem.length := by
  have hsigs : (sigs.map pushed).flatten.length = sigs.length * (1 + msSigSizeEstimate) := by
    rw [List.length_flatten, List.map_map]
    have hone : ∀ sig ∈ sigs, (List.length ∘ pushed) sig = 1 + msSigSizeEstimate := by
      intro sig hsig
      rw [Function.comp_apply, pushed_length, h sig hsig]
      rfl
    rw [List.map_congr_left hone, List.map_const', List.sum_replicate, smul_eq_mul]
  simp only [List.cons_append, List.length_cons, List.length_append, hsigs, pushed_length,
    QuorumSizing.scriptSigLen, hm]
  omega

section Input

variable {q : MsQuorum P} {base psbt : Psbt} {i : Nat} {input r : PsbtIn} {output : PsbtTxOut}

/-- An input of a quorum before finalization, whoever has signed it. -/
structure Opened (q : MsQuorum P) (psbt : Psbt) (i : Nat) (input : PsbtIn) (output : PsbtTxOut) :
    Prop where
  get : psbt.inputs[i]? = some input
  utxo : inputUtxoData psbt i = some (output.script, output.amount)
  commits : Commits q input output.script
  sighashType : input.sighashType = none
  finalScriptsig : input.finalScriptsig = none
  finalScriptwitness : input.finalScriptwitness = none

theorem opened_of_frame (hbase : FreshPsbt q base) (hframe : stripPsbt psbt = base)
    (hin : psbt.inputs[i]? = some input) : ∃ output, Opened q psbt i input output := by
  have hown : base.inputs[i]? = some (strip input) := by
    rw [← hframe, stripPsbt, List.getElem?_map, hin, Option.map_some]
  obtain ⟨vin, output, hvin, hq⟩ := hbase.inputs i _ hown
  have hutxo : inputUtxoData psbt i = some (output.script, output.amount) := by
    rw [← inputUtxoData_strip, hframe, inputUtxoData_quorum hown hvin hq.spends]
  exact ⟨output, hin, hutxo, hq.commits, hq.sighashType, hq.finalScriptsig,
    hq.finalScriptwitness⟩

theorem Opened.notFinal (h : Opened q psbt i input output) : ¬ IsFinal input :=
  not_isFinal.mpr ⟨h.finalScriptsig, h.finalScriptwitness⟩

theorem Opened.outcome (h : Opened q psbt i input output) :
    finalOutcome P psbt i = finalBranch P i input output.script :=
  finalOutcome_of_utxo h.get h.notFinal h.utxo

/-- The signatures of a finalized script are `m` of those present. -/
theorem multisig_sigs {script : Option Bytes} {commitment : Bytes → Bytes}
    {committed redeem : Bytes} {sigs : List Bytes} (hscript : script = some q.script)
    (hquorum : quorumScript q.script = .ok (q.m, q.keys))
    (h : finalizeMultisig i input script commitment committed = .ok (redeem, sigs)) :
    redeem = q.script ∧ sigs.length = q.m ∧
      ∀ sig ∈ sigs, ∃ entry ∈ input.partialSigs, entry.2 = sig := by
  obtain ⟨m, keys, hredeem, hextract, -, -, -, hcount, rfl⟩ := finalizeMultisig_eq_ok.mp h
  cases hscript.symm.trans hredeem
  cases hextract.symm.trans (mapError_eq_ok.mp hquorum)
  refine ⟨rfl, ?_, ?_⟩
  · rw [List.length_take]
    omega
  · intro sig hsig
    obtain ⟨key, -, hfound⟩ := List.mem_filterMap.mp (List.mem_of_mem_take hsig)
    obtain ⟨entry, hentry, rfl⟩ := Option.map_eq_some_iff.mp hfound
    exact ⟨entry, List.mem_of_find?_eq_some hentry, rfl⟩

theorem p2wsh_final (hform : q.form = .p2wsh) (h : Opened q psbt i input output)
    (hr : finalOutcome P psbt i = .ok r) :
    ∃ sigs, sigs.length = q.m ∧ (∀ sig ∈ sigs, ∃ entry ∈ input.partialSigs, entry.2 = sig) ∧
      r.finalScriptwitness = some (encodeWitnessStack (makeMultisigWitness q.script sigs)) := by
  have hcommits := h.commits
  rw [Commits, hform] at hcommits
  obtain ⟨hfits, hscript, hquorum, -⟩ := hcommits
  obtain ⟨-, hp2sh, hp2wsh, -⟩ := forms_of_p2wsh hfits
  rw [h.outcome, finalBranch, hp2sh, hp2wsh] at hr
  obtain ⟨⟨redeem, sigs⟩, hmultisig, hr⟩ := bind_eq_ok.mp hr
  cases hr
  obtain ⟨rfl, hcount, hmem⟩ := multisig_sigs hscript hquorum hmultisig
  exact ⟨sigs, hcount, hmem, rfl⟩

theorem p2tr_final (hform : q.form = .p2tr) (h : Opened q psbt i input output)
    (hr : finalOutcome P psbt i = .ok r) :
    ∃ controlBlock slots, controlBlock.length = 33 ∧ slots.length = q.keys.length ∧
      slots.reduceOption.length = q.m ∧ (∀ slot ∈ slots, ∀ sig ∈ slot, sig.length = 64) ∧
      r.finalScriptwitness = some (encodeWitnessStack
        (makeMultisigTapscriptWitness q.script controlBlock slots)) := by
  have hcommits := h.commits
  rw [Commits, hform] at hcommits
  obtain ⟨hfits, -, leaf, hleaves, hleaf⟩ := hcommits
  obtain ⟨-, hp2sh, hp2wsh, hp2tr⟩ := forms_of_p2tr hfits
  rw [h.outcome, finalBranch, hp2sh, hp2wsh, hp2tr, hleaves] at hr
  obtain ⟨revealed, slots, total, hrevealed, -, hslots, henough, rfl⟩ :=
    LeafSpend.finalizeP2trScriptpath_eq_ok.mp hr
  cases hleaf.symm.trans hrevealed
  obtain ⟨hreduce, htotal, hall⟩ := LeafSpend.sigSlots_spec hslots
  refine ⟨leaf.controlBlock, slots, ?_, hall.length_eq.symm, ?_, ?_, rfl⟩
  · have hcheck := (reject_bind_eq_ok.mp hleaf).1
    push Not at hcheck
    exact hcheck.1
  · have hle : slots.reduceOption.length ≤ q.m := by
      rw [hreduce, List.length_take]
      exact Nat.min_le_left _ _
    have hge : ¬ total < q.m := henough
    omega
  · intro slot hslot sig hsig
    obtain ⟨j, hj, rfl⟩ := List.getElem_of_mem hslot
    exact (hall.get (hall.length_eq ▸ hj) hj sig hsig).2

/-- A stack of the size of a quorum's is read back. -/
theorem decode_small {items : List Bytes} (hcount : items.length ≤ 100)
    (h : ∀ item ∈ items, item.length ≤ 1000) :
    decodeWitnessStack (encodeWitnessStack items) = .ok items := by
  apply decodeWitnessStack_encodeWitnessStack
  · omega
  · intro item hitem
    have hle := h item hitem
    omega

/-- A witness form is extracted from its stack. -/
theorem extracted_stack {scriptPubkey : Bytes} {amount : UInt64} {stack : List Bytes}
    {vin : PsbtTxIn} (hspend : ¬ SpendsByScript scriptPubkey)
    (hutxo : inputUtxoData psbt i = some (scriptPubkey, amount))
    (hwitness : r.finalScriptwitness = some (encodeWitnessStack stack))
    (hdecode : decodeWitnessStack (encodeWitnessStack stack) = .ok stack)
    (h : extractInput psbt i r = .ok vin) : ∃ old, psbt.unsignedTx.vin[i]? = some old ∧
      { old with script := [], witness := stack } = vin := by
  obtain ⟨scriptPubkey', amount', hutxo', h⟩ := extractInput_eq_ok.mp h
  cases hutxo.symm.trans hutxo'
  cases h with
  | inl h =>
    cases h.1 with
    | inl hlegacy => exact absurd (.inr hlegacy) hspend
    | inr hp2sh => exact absurd (.inl hp2sh.1) hspend
  | inr h =>
    obtain ⟨-, stack', ⟨witness, hwitness', hdecode'⟩, old, hold, hvin⟩ := h
    cases hwitness.symm.trans hwitness'
    cases hdecode.symm.trans hdecode'
    exact ⟨old, hold, hvin⟩

theorem script_length (q : MsQuorum P) : q.script.length ≤ 1000 := by
  have hq := q.isQuorum_keys
  have hbound : q.keys.length ≤ 15 := hq.bound
  rw [q.script_eq]
  cases hform : q.form with
  | p2sh =>
    rw [hform] at hq
    have hlen := redeemBytes_length (m := q.m) hq.keyLength
    rw [MsForm.scriptBytes, hlen]
    omega
  | p2wsh =>
    rw [hform] at hq
    have hlen := redeemBytes_length (m := q.m) hq.keyLength
    rw [MsForm.scriptBytes, hlen]
    omega
  | p2tr =>
    rw [hform] at hq
    have hlen := tapscriptBytes_length (m := q.m) hq.keyLength
    rw [MsForm.scriptBytes, hlen]
    omega

theorem p2wsh_extracted (hform : q.form = .p2wsh) (h : Opened q psbt i input output)
    (hsigs : ∀ entry ∈ input.partialSigs, entry.2.length ≤ msSigSizeEstimate)
    (hr : finalOutcome P psbt i = .ok r) {vin : PsbtTxIn} (hvin : extractInput psbt i r = .ok vin) :
    ∃ old sigs, psbt.unsignedTx.vin[i]? = some old ∧ sigs.length = q.m ∧
      (∀ sig ∈ sigs, sig.length ≤ msSigSizeEstimate) ∧
      { old with script := [], witness := makeMultisigWitness q.script sigs } = vin := by
  obtain ⟨sigs, hcount, hmem, hwitness⟩ := p2wsh_final hform h hr
  have hsmall : ∀ sig ∈ sigs, sig.length ≤ msSigSizeEstimate := by
    intro sig hsig
    obtain ⟨entry, hentry, rfl⟩ := hmem sig hsig
    exact hsigs entry hentry
  have hcommits := h.commits
  rw [Commits, hform] at hcommits
  have hspend := not_spendsByScript_of_p2wsh hcommits.1
  have hq := q.isQuorum_keys
  have hdecode : decodeWitnessStack (encodeWitnessStack (makeMultisigWitness q.script sigs)) =
      .ok (makeMultisigWitness q.script sigs) := by
    apply decode_small
    · have hbound : q.keys.length ≤ 15 := hq.bound
      have hthreshold := hq.threshold
      simp only [makeMultisigWitness, List.cons_append, List.length_cons, List.length_append,
        List.length_nil]
      omega
    · intro item hitem
      simp only [makeMultisigWitness, List.cons_append, List.mem_cons, List.mem_append,
        List.not_mem_nil, or_false] at hitem
      rcases hitem with rfl | hsig | rfl
      · exact Nat.zero_le _
      · exact (hsmall item hsig).trans (by decide)
      · exact script_length q
  obtain ⟨old, hold, he⟩ := extracted_stack hspend h.utxo hwitness hdecode hvin
  exact ⟨old, sigs, hold, hcount, hsmall, he⟩

theorem p2tr_extracted (hform : q.form = .p2tr) (h : Opened q psbt i input output)
    (hr : finalOutcome P psbt i = .ok r) {vin : PsbtTxIn} (hvin : extractInput psbt i r = .ok vin) :
    ∃ old controlBlock slots, psbt.unsignedTx.vin[i]? = some old ∧ controlBlock.length = 33 ∧
      slots.length = q.keys.length ∧ slots.reduceOption.length = q.m ∧
      (∀ slot ∈ slots, ∀ sig ∈ slot, sig.length = 64) ∧
      { old with
        script := []
        witness := makeMultisigTapscriptWitness q.script controlBlock slots } = vin := by
  obtain ⟨controlBlock, slots, hcontrol, hcount, hm, h64, hwitness⟩ := p2tr_final hform h hr
  have hcommits := h.commits
  rw [Commits, hform] at hcommits
  have hspend := not_spendsByScript_of_p2tr hcommits.1
  have hq := q.isQuorum_keys
  have hdecode : decodeWitnessStack (encodeWitnessStack
      (makeMultisigTapscriptWitness q.script controlBlock slots)) =
        .ok (makeMultisigTapscriptWitness q.script controlBlock slots) := by
    apply decode_small
    · have hbound : q.keys.length ≤ 15 := hq.bound
      simp only [makeMultisigTapscriptWitness, List.length_append, List.length_map,
        List.length_reverse, List.length_cons, List.length_nil]
      omega
    · intro item hitem
      simp only [makeMultisigTapscriptWitness, List.mem_append, List.mem_map, List.mem_reverse,
        List.mem_cons, List.not_mem_nil, or_false] at hitem
      rcases hitem with ⟨slot, hslot, rfl⟩ | rfl | rfl
      · cases slot with
        | none => exact Nat.zero_le _
        | some sig =>
          have hlen := h64 _ hslot sig rfl
          rw [Option.getD_some]
          omega
      · exact script_length q
      · omega
  obtain ⟨old, hold, he⟩ := extracted_stack hspend h.utxo hwitness hdecode hvin
  exact ⟨old, controlBlock, slots, hold, hcontrol, hcount, hm, h64, he⟩

end Input

/-- What `ms_create_psbt` is asked for, without the quorum. -/
structure Request (P : Primitives) where
  rawTransaction : String → Except Exn String
  own : P.PrivateKey
  quorumAddr : String
  dst : String
  selected : List Utxo
  amount : Int
  feekb : Int

def Request.pricing (makeLockScript : String → Except Exn Bytes) (req : Request P)
    (prepared : Prepared) : Pricing PsbtTransaction :=
  quorumPricing makeLockScript prepared.sizing prepared.txhashes req.quorumAddr req.dst
    (amountOf req.selected) req.amount req.feekb

/-- A run of `ms_create_psbt` with the candidate that its loop returned. -/
structure PricedRun (makeLockScript : String → Except Exn Bytes) (q : MsQuorum P)
    (req : Request P) (prepared : Prepared) (best : Candidate PsbtTransaction)
    (outcome : MsPsbtOutcome) : Prop where
  prepares : prepare P q.form q.m q.script req.selected = .ok prepared
  priced : FeeLoopReturns (req.pricing makeLockScript prepared) req.feekb (.ok best)
  created : createSigned P req.rawTransaction req.own q.form q.script req.selected prepared
    (best.vout, best.fee) = .ok outcome

section Run

variable {makeLockScript : String → Except Exn Bytes} {q : MsQuorum P} {req : Request P}
  {prepared : Prepared} {best : Candidate PsbtTransaction} {outcome : MsPsbtOutcome}

/-- Without an explicit fee every run is priced by the loop. -/
theorem msCreatePsbt_iff {fee : Int} (hfee : fee ≤ 0) :
    MsCreatePsbt P makeLockScript req.rawTransaction req.own q.form q.m q.script req.quorumAddr
        req.dst req.selected req.amount req.feekb fee (.ok outcome) ↔
      ∃ prepared best, PricedRun makeLockScript q req prepared best outcome := by
  unfold MsCreatePsbt
  cases hprepared : prepare P q.form q.m q.script req.selected with
  | error e =>
    constructor
    · intro h
      cases h
    · rintro ⟨prepared, best, h⟩
      cases hprepared.symm.trans h.prepares
  | ok prepared =>
    simp only [QuorumVout, if_neg (not_lt.mpr hfee)]
    constructor
    · rintro ⟨paid, ⟨best, hloop, rfl⟩, h⟩
      cases best with
      | error e => cases h
      | ok best => exact ⟨prepared, best, hprepared, hloop, h.symm⟩
    · rintro ⟨prepared', best, h⟩
      cases hprepared.symm.trans h.prepares
      exact ⟨_, ⟨.ok best, h.priced, rfl⟩, h.created.symm⟩

/-- The previous transactions that the backend returns, which the script form is signed with, have
the selected outputs. -/
def Funded (req : Request P) (quorumScript : Bytes) : Prop :=
  ∀ u ∈ req.selected, ∀ prev, fetchPrevTx req.rawTransaction u.tx = .ok prev →
    prev.vout[u.outN]? = some ⟨UInt64.ofNat u.amount, quorumScript⟩

theorem msQuorumLockScript_fits {form : MsForm} {redeem script : Bytes}
    (h : msQuorumLockScript P form redeem = .ok script) : form.shape.Fits script := by
  have hlock : ∀ (s : Shape) (name : String) (payload : Bytes), makeLock s name payload =
      .ok script → s.Fits script := by
    intro s name payload h
    obtain ⟨hlen, h⟩ := reject_bind_eq_ok.mp h
    cases h
    exact s.build_fits payload (not_not.mp hlen)
  cases form with
  | p2sh => exact hlock _ _ _ h
  | p2wsh => exact hlock _ _ _ h
  | p2tr =>
    obtain ⟨outputKey, -, h⟩ := bind_eq_ok.mp h
    exact hlock _ _ _ h

/-- The request for a selected output pays the quorum. -/
theorem createRequest_pays {quorumScript : Bytes} {u : Utxo} {vin : PsbtTxIn}
    {create : CreateInput} (hfits : q.form.shape.Fits quorumScript)
    (hfunded : q.form = .p2sh → Funded req quorumScript) (hu : u ∈ req.selected)
    (hn : vin.n.toNat = u.outN)
    (h : createRequest q.form q.script quorumScript req.rawTransaction u = .ok create) :
    PaysQuorum q vin create := by
  obtain ⟨-, h⟩ := reject_bind_eq_ok.mp h
  unfold PaysQuorum
  cases hform : q.form with
  | p2sh =>
    rw [hform] at h hfits
    obtain ⟨prev, hprev, h⟩ := bind_eq_ok.mp h
    cases h
    refine ⟨hfits, rfl, ?_⟩
    intro prev' hsome
    cases hsome
    rw [hn]
    exact hfunded hform u hu prev hprev
  | p2wsh =>
    rw [hform] at h hfits
    cases h
    exact ⟨hfits, rfl⟩
  | p2tr =>
    rw [hform] at h hfits
    cases h
    exact ⟨hfits, rfl⟩

/-- What a run creates: a fresh PSBT of the quorum for the outputs of the candidate. -/
structure Created (q : MsQuorum P) (prepared : Prepared) (best : Candidate PsbtTransaction)
    (base : Psbt) : Prop where
  fresh : FreshPsbt q base
  tx : base.unsignedTx = prepared.sizing.transaction prepared.txhashes false best.vout.vout

theorem PricedRun.base (h : PricedRun makeLockScript q req prepared best outcome)
    (hfunded : q.form = .p2sh → Funded req prepared.quorumScript) :
    ∃ base, Created q prepared best base ∧ stripPsbt outcome.psbt = base := by
  obtain ⟨creates, hcreates, hsigned⟩ := bind_eq_ok.mp h.created
  obtain ⟨base, hbase, hsigned⟩ := bind_eq_ok.mp hsigned
  obtain ⟨psbt, hpsbt, hsigned⟩ := bind_eq_ok.mp hsigned
  cases hsigned
  obtain ⟨quorumScript, hscript, hprep⟩ := bind_eq_ok.mp h.prepares
  obtain ⟨sizing, hsizing, hprep⟩ := bind_eq_ok.mp hprep
  obtain ⟨txhashes, htxhashes, hprep⟩ := bind_eq_ok.mp hprep
  cases hprep
  have hpays : ∀ (i : Nat) vin create, (sizing.transaction txhashes false best.vout.vout).vin[i]? =
      some vin → creates[i]? = some create → PaysQuorum q vin create := by
    intro i vin create hvin hcreate
    obtain ⟨u, hu, hrequest⟩ := mapM_getElem? hcreates i create hcreate
    obtain ⟨outpoint, hget, rfl⟩ :=
      Option.map_eq_some_iff.mp ((List.getElem?_map ..).symm.trans hvin)
    obtain ⟨u', hu', houtpoint⟩ := mapM_getElem? htxhashes i outpoint hget
    cases hu.symm.trans hu'
    refine createRequest_pays (msQuorumLockScript_fits hscript) hfunded
      (List.mem_of_getElem? hu) ?_ hrequest
    obtain ⟨txhash, -, houtpoint⟩ := bind_eq_ok.mp houtpoint
    obtain ⟨hn, houtpoint⟩ := reject_bind_eq_ok.mp houtpoint
    cases houtpoint
    have hlt : u.outN < UInt32.size := Nat.lt_succ_of_le (Nat.not_lt.mp hn)
    exact UInt32.toNat_ofNat_of_lt' hlt
  have hfresh := createPsbt_quorum hbase hpays
  refine ⟨base, ⟨hfresh, (createPsbt_spec hbase).1⟩, ?_⟩
  exact (signInputs_strip P hpsbt).trans (strip_fresh hfresh)

/-- What the sizing of a run reads of the quorum. -/
structure SizesQuorum (q : MsQuorum P) (s : QuorumSizing) : Prop where
  form : s.form = q.form
  m : s.m = q.m
  redeem : s.redeem = q.script
  keys : q.form = .p2tr → s.nKeys = q.keys.length
  controlBlock : q.form = .p2tr → s.controlBlock.length = 33

theorem quorumSizing_spec {s : QuorumSizing}
    (h : quorumSizing P q.form q.m q.script = .ok s) : SizesQuorum q s := by
  have hforms : MsForm.p2sh ≠ .p2tr ∧ MsForm.p2wsh ≠ .p2tr := by decide
  cases hform : q.form with
  | p2sh =>
    rw [hform] at h
    cases h
    exact ⟨hform.symm, rfl, rfl, fun hno => absurd (hform.symm.trans hno) hforms.1,
      fun hno => absurd (hform.symm.trans hno) hforms.1⟩
  | p2wsh =>
    rw [hform] at h
    cases h
    exact ⟨hform.symm, rfl, rfl, fun hno => absurd (hform.symm.trans hno) hforms.2,
      fun hno => absurd (hform.symm.trans hno) hforms.2⟩
  | p2tr =>
    rw [hform] at h
    obtain ⟨quorum, hquorum, h⟩ := bind_eq_ok.mp h
    obtain ⟨controlBlock, hcontrol, h⟩ := bind_eq_ok.mp h
    cases h
    have hq := q.isQuorum_keys
    have hscript := q.script_eq
    rw [hform] at hq hscript
    have hextract : extractMultisigTapscript q.script = .ok (q.m, q.keys) := by
      rw [hscript]
      exact extractMultisigTapscript_tapscriptBytes hq
    cases hextract.symm.trans hquorum
    exact ⟨hform.symm, rfl, rfl, fun _ => rfl, fun _ => (tapscriptControlBlock_spec hcontrol).1⟩

theorem PricedRun.sizing (h : PricedRun makeLockScript q req prepared best outcome) :
    SizesQuorum q prepared.sizing := by
  obtain ⟨quorumScript, -, hprep⟩ := bind_eq_ok.mp h.prepares
  obtain ⟨sizing, hsizing, hprep⟩ := bind_eq_ok.mp hprep
  obtain ⟨txhashes, -, hprep⟩ := bind_eq_ok.mp hprep
  cases hprep
  exact quorumSizing_spec hsizing

theorem PricedRun.best_tx (h : PricedRun makeLockScript q req prepared best outcome) :
    best.tx = prepared.sizing.transaction prepared.txhashes true best.vout.vout := by
  obtain ⟨-, hbuild⟩ := feeLoop_sound h.priced
  obtain ⟨voutResult, -, hbuild⟩ := bind_eq_ok.mp hbuild
  obtain ⟨rfl, htx⟩ := Prod.mk.inj (Except.ok.inj hbuild)
  exact htx.symm

section Vin

variable {s : QuorumSizing} {txhashes : List (Bytes × UInt32)}

/-- The inputs of a spend with a script and a stack in each. -/
def vinWith (txhashes : List (Bytes × UInt32)) (script : Bytes) (witness : List Bytes) :
    List PsbtTxIn :=
  txhashes.map fun outpoint => ⟨outpoint.1, outpoint.2, script, 0xfffffffe, witness⟩

theorem buildVin_unsigned : s.buildVin txhashes false = vinWith txhashes [] [] := by
  simp [QuorumSizing.buildVin, QuorumSizing.sizedWitness, vinWith]

theorem buildVin_witness (h : s.form ≠ .p2sh) :
    s.buildVin txhashes true = vinWith txhashes [] (s.sizedWitness true) := by
  have hne : (s.form != .p2sh) = true := bne_iff_ne.mpr h
  simp [QuorumSizing.buildVin, vinWith, h, hne]

theorem buildVin_script (h : s.form = .p2sh) :
    s.buildVin txhashes true = vinWith txhashes (List.replicate s.scriptSigLen 0) [] := by
  simp [QuorumSizing.buildVin, QuorumSizing.sizedWitness, vinWith, h]

end Vin

section Extracted

variable {base psbt : Psbt} {tx : PsbtTransaction}

theorem Created.opened (hcreated : Created q prepared best base) (hframe : stripPsbt psbt = base) :
    ∀ input ∈ psbt.inputs, ¬ IsFinal input := by
  intro input hmem
  obtain ⟨i, hin⟩ := List.mem_iff_getElem?.mp hmem
  obtain ⟨output, hopened⟩ := opened_of_frame hcreated.fresh hframe hin
  exact hopened.notFinal

theorem Created.unsignedTx (hcreated : Created q prepared best base)
    (hframe : stripPsbt psbt = base) : psbt.unsignedTx =
      prepared.sizing.transaction prepared.txhashes false best.vout.vout := by
  rw [← hcreated.tx, ← hframe]
  rfl

theorem Created.inputs_length (hcreated : Created q prepared best base)
    (hframe : stripPsbt psbt = base) : psbt.inputs.length = prepared.txhashes.length := by
  have hcount := hcreated.fresh.count
  rw [hcreated.tx, ← hframe, stripPsbt, List.length_map] at hcount
  rw [hcount]
  exact List.length_map _

/-- The witness that replaces a placeholder takes no more room. -/
theorem witness_within (hform : q.form ≠ .p2sh) (hsizing : SizesQuorum q prepared.sizing)
    (hcreated : Created q prepared best base) (hframe : stripPsbt psbt = base)
    (hecdsa : ∀ input ∈ psbt.inputs, ∀ entry ∈ input.partialSigs,
      entry.2.length ≤ msSigSizeEstimate) (h : Extracts P psbt tx) :
    List.Forall₂ Within tx.vin (prepared.sizing.buildVin prepared.txhashes true) := by
  obtain ⟨-, hlen, hall⟩ := (extracts_iff (hcreated.opened hframe)).mp h
  rw [hcreated.inputs_length hframe] at hlen
  rw [buildVin_witness (hsizing.form ▸ hform), List.forall₂_iff_get]
  refine ⟨by rw [hlen, vinWith, List.length_map], ?_⟩
  intro i hi hi'
  obtain ⟨r, hr, hvin⟩ := hall i _ (List.getElem?_eq_getElem hi)
  have hin : i < psbt.inputs.length := by
    rw [hcreated.inputs_length hframe, ← hlen]
    exact hi
  obtain ⟨output, hopened⟩ := opened_of_frame hcreated.fresh hframe (List.getElem?_eq_getElem hin)
  have hlt : i < prepared.txhashes.length := hlen ▸ hi
  have hold : psbt.unsignedTx.vin[i]? =
      some ⟨prepared.txhashes[i].1, prepared.txhashes[i].2, [], 0xfffffffe, []⟩ := by
    rw [hcreated.unsignedTx hframe, QuorumSizing.transaction, buildVin_unsigned, vinWith,
      List.getElem?_map, List.getElem?_eq_getElem hlt]
    rfl
  simp only [List.get_eq_getElem, vinWith, List.getElem_map]
  cases hcase : q.form with
  | p2sh => exact absurd hcase hform
  | p2wsh =>
    obtain ⟨old, sigs, hget, hcount, hsmall, hvin⟩ := p2wsh_extracted hcase hopened
      (hecdsa _ (List.getElem_mem hin)) hr hvin
    cases hold.symm.trans hget
    have hsized : [] :: List.replicate sigs.length (List.replicate msSigSizeEstimate 0) ++
        [q.script] = prepared.sizing.sizedWitness true := by
      rw [sizedWitness_p2wsh (hsizing.form.trans hcase), hsizing.m, hsizing.redeem, hcount]
    have hne : prepared.sizing.sizedWitness true ≠ [] := by
      rw [← hsized]
      exact List.cons_ne_nil _ _
    have hle : witnessSize (makeMultisigWitness q.script sigs) ≤ _ := witnessSize_p2wsh hsmall
    rw [hsized] at hle
    rw [← hvin]
    exact ⟨le_rfl, hle, fun hnil => absurd hnil hne⟩
  | p2tr =>
    obtain ⟨old, controlBlock, slots, hget, hcontrol, hcount, hm, h64, hvin⟩ :=
      p2tr_extracted hcase hopened hr hvin
    cases hold.symm.trans hget
    have hsized : List.replicate q.m (List.replicate msSigSizeEstimateTap 0) ++
        List.replicate (slots.length - q.m) [] ++ [q.script, prepared.sizing.controlBlock] =
          prepared.sizing.sizedWitness true := by
      rw [sizedWitness_p2tr (hsizing.form.trans hcase), hsizing.m, hsizing.redeem,
        hsizing.keys hcase, hcount]
    have hne : prepared.sizing.sizedWitness true ≠ [] := by
      rw [← hsized]
      exact List.append_ne_nil_of_right_ne_nil _ (List.cons_ne_nil _ _)
    have hle : witnessSize (makeMultisigTapscriptWitness q.script controlBlock slots) ≤ _ :=
      witnessSize_p2tr h64 hm (hcount ▸ q.isQuorum_keys.threshold)
        (hcontrol.trans (hsizing.controlBlock hcase).symm)
    rw [hsized] at hle
    rw [← hvin]
    exact ⟨le_rfl, hle, fun hnil => absurd hnil hne⟩

/-- So the witness forms are no larger than priced. -/
theorem witness_vsize_le (hform : q.form ≠ .p2sh)
    (hrun : PricedRun makeLockScript q req prepared best outcome)
    (hcreated : Created q prepared best base) (hframe : stripPsbt psbt = base)
    (hecdsa : ∀ input ∈ psbt.inputs, ∀ entry ∈ input.partialSigs,
      entry.2.length ≤ msSigSizeEstimate) (h : Extracts P psbt tx) : vsize tx ≤ vsize best.tx := by
  obtain ⟨htx, -, -⟩ := (extracts_iff (hcreated.opened hframe)).mp h
  apply vsize_le_of_within
  · rw [htx, hcreated.unsignedTx hframe, hrun.best_tx]
    rfl
  · rw [hrun.best_tx]
    exact witness_within hform hrun.sizing hcreated hframe hecdsa h

/-- A signature as long as the estimate allows. -/
def longestSig : Bytes :=
  [0x30, 0x46, 0x02, 0x21, 0x00] ++ List.replicate 32 0xff ++ [0x02, 0x21, 0x00] ++
    List.replicate 32 0xff ++ [sighashAll]

theorem longestSig_length : longestSig.length = msSigSizeEstimate := rfl

/-- The input with a signature of every member. -/
def fullInput (q : MsQuorum P) (input : PsbtIn) : PsbtIn :=
  { input with partialSigs := q.keys.map fun key => (key, longestSig) }

def fullPsbt (q : MsQuorum P) (base : Psbt) : Psbt :=
  { base with inputs := base.inputs.map (fullInput q) }

theorem fullPsbt_frame (hbase : FreshPsbt q base) : stripPsbt (fullPsbt q base) = base := by
  have hstrip : strip ∘ fullInput q = strip := by
    funext input
    rfl
  have hsame : stripPsbt (fullPsbt q base) = stripPsbt base := by
    simp only [stripPsbt, fullPsbt, List.map_map, hstrip]
  rw [hsame, strip_fresh hbase]

theorem memberSigs_full (q : MsQuorum P) (input : PsbtIn) :
    memberSigs (fullInput q input) q.keys = List.replicate q.keys.length longestSig := by
  have hfound : ∀ key ∈ q.keys, ((fullInput q input).partialSigs.find? fun p => p.1 = key).map
      Prod.snd = some longestSig := by
    intro key hkey
    cases hfind : (fullInput q input).partialSigs.find? fun p => p.1 = key with
    | none =>
      have hno := List.find?_eq_none.mp hfind (key, longestSig) (List.mem_map_of_mem hkey)
      exact absurd (decide_eq_true rfl) hno
    | some entry =>
      obtain ⟨key', -, rfl⟩ := List.mem_map.mp (List.mem_of_find?_eq_some hfind)
      rfl
  rw [memberSigs, List.filterMap_congr hfound, ← List.map_const', List.filterMap_eq_map']

/-- The script signature of the full input. -/
def fullScript (q : MsQuorum P) : Bytes :=
  op0 :: ((List.replicate q.m longestSig).map pushed).flatten ++ pushed q.script

theorem fullInput_final (hform : q.form = .p2sh) {i : Nat} {input : PsbtIn} {output : PsbtTxOut}
    (h : Opened q psbt i (fullInput q input) output) :
    finalOutcome P psbt i = .ok (clearIntermediates
      { fullInput q input with finalScriptsig := some (fullScript q) }) := by
  have hcommits := h.commits
  rw [Commits, hform] at hcommits
  obtain ⟨hfits, hscript, hquorum, hcommit⟩ := hcommits
  obtain ⟨-, hp2sh, -, -⟩ := forms_of_p2sh hfits
  have hsigs := memberSigs_full q input
  have hblocked : ¬ blockedSighash (fullInput q input) psbtSighashAll := by
    rintro ⟨t, ht, -⟩
    cases h.sighashType.symm.trans ht
  have hmultisig : finalizeMultisig i (fullInput q input) (fullInput q input).redeemScript
      (hash160 P) (slice output.script 2 22) = .ok (q.script, List.replicate q.m longestSig) := by
    refine finalizeMultisig_eq_ok.mpr ⟨q.m, q.keys, hscript, mapError_eq_ok.mp hquorum, hcommit,
      hblocked, ?_, ?_, ?_⟩
    · intro sig hsig
      rw [hsigs] at hsig
      rw [List.eq_of_mem_replicate hsig]
      rfl
    · rw [hsigs, List.length_replicate]
      exact q.isQuorum_keys.threshold
    · rw [hsigs, List.take_replicate, Nat.min_eq_left q.isQuorum_keys.threshold]
  have hpush : makeMultisigScriptSig q.script (List.replicate q.m longestSig) =
      .ok (fullScript q) := by
    apply QuorumFinal.makeMultisigScriptSig_ok hform
    intro sig hsig
    rw [List.eq_of_mem_replicate hsig]
    decide
  rw [h.outcome, finalBranch, hp2sh, if_pos rfl, finalizeP2shMultisig, hmultisig, ok_bind]
  dsimp only
  rw [hpush, ok_bind]
  rfl

theorem full_extracts (hform : q.form = .p2sh) (hcreated : Created q prepared best base) :
    Extracts P (fullPsbt q base) { (fullPsbt q base).unsignedTx with
      vin := vinWith prepared.txhashes (fullScript q) [] } := by
  have hframe := fullPsbt_frame hcreated.fresh
  have hlen := hcreated.inputs_length hframe
  apply (extracts_iff (hcreated.opened hframe)).mpr
  refine ⟨rfl, by rw [hlen]; exact List.length_map _, ?_⟩
  intro i vin hvin
  obtain ⟨outpoint, houtpoint, rfl⟩ := Option.map_eq_some_iff.mp
    ((List.getElem?_map ..).symm.trans hvin)
  have hin : i < base.inputs.length := by
    rw [fullPsbt, List.length_map] at hlen
    rw [hlen]
    exact (List.getElem?_eq_some_iff.mp houtpoint).1
  have hget : (fullPsbt q base).inputs[i]? = some (fullInput q base.inputs[i]) := by
    rw [fullPsbt, List.getElem?_map, List.getElem?_eq_getElem hin]
    rfl
  obtain ⟨output, hopened⟩ := opened_of_frame hcreated.fresh hframe hget
  have hold : (fullPsbt q base).unsignedTx.vin[i]? =
      some ⟨outpoint.1, outpoint.2, [], 0xfffffffe, []⟩ := by
    rw [hcreated.unsignedTx hframe, QuorumSizing.transaction, buildVin_unsigned, vinWith,
      List.getElem?_map, houtpoint]
    rfl
  have hcommits := hopened.commits
  rw [Commits, hform] at hcommits
  have hp2sh := (forms_of_p2sh hcommits.1).2.1
  refine ⟨_, fullInput_final hform hopened, extractInput_eq_ok.mpr ⟨_, _, hopened.utxo, .inl ?_⟩⟩
  exact ⟨.inr ⟨hp2sh, hopened.finalScriptwitness⟩, fullScript q, rfl, _, hold, rfl⟩

/-- The script form is larger than priced. -/
theorem full_vsize_gt (hform : q.form = .p2sh) (hne : prepared.txhashes ≠ [])
    (hrun : PricedRun makeLockScript q req prepared best outcome)
    (hcreated : Created q prepared best base) :
    vsize best.tx < vsize { (fullPsbt q base).unsignedTx with
      vin := vinWith prepared.txhashes (fullScript q) [] } := by
  have hframe := fullPsbt_frame hcreated.fresh
  have hsizing := hrun.sizing
  have hsized : best.tx.vin =
      vinWith prepared.txhashes (List.replicate prepared.sizing.scriptSigLen 0) [] := by
    rw [hrun.best_tx]
    exact buildVin_script (hsizing.form.trans hform)
  have hbare : ∀ script, ∀ i ∈ vinWith prepared.txhashes script [], i.witness = [] := by
    intro script i hi
    obtain ⟨outpoint, -, rfl⟩ := List.mem_map.mp hi
    rfl
  have hscript : (fullScript q).length = prepared.sizing.scriptSigLen + q.script.length := by
    have hsigs : ∀ sig ∈ List.replicate q.m longestSig, sig.length = msSigSizeEstimate := by
      intro sig hsig
      rw [List.eq_of_mem_replicate hsig, longestSig_length]
    have hlen := scriptSig_length (s := prepared.sizing) hsigs
      (List.length_replicate.trans hsizing.m.symm)
    rw [hsizing.redeem] at hlen
    exact hlen
  have hpos : 0 < q.script.length := by
    have hq := q.isQuorum_keys
    rw [hform] at hq
    rw [q.script_eq, hform, MsForm.scriptBytes, redeemBytes_length hq.keyLength]
    omega
  apply vsize_lt_of_longer
  · rw [hrun.best_tx, hcreated.unsignedTx hframe]
    rfl
  · exact not_hasWitness.mpr (hsized ▸ hbare _)
  · exact not_hasWitness.mpr (hbare _)
  · rw [hsized, vinWith]
    exact fun hnil => hne (List.map_eq_nil_iff.mp hnil)
  · rw [hsized, vinWith, vinWith, List.forall₂_map_left_iff, List.forall₂_map_right_iff,
      List.forall₂_same]
    intro outpoint _
    have hcompact := compactSizeLen_mono (Nat.le_add_right prepared.sizing.scriptSigLen
      q.script.length)
    simp only [PsbtTxIn.serialize, List.length_append, packL_length, compactSize_length,
      List.length_replicate, hscript]
    omega

end Extracted

/-- Signatures of every kind on what a run created, no longer than the estimate allows. -/
structure FullySigned (created psbt : Psbt) : Prop where
  frame : stripPsbt psbt = stripPsbt created
  ecdsa : ∀ input ∈ psbt.inputs, ∀ entry ∈ input.partialSigs,
    entry.2.length ≤ msSigSizeEstimate
  schnorr : ∀ input ∈ psbt.inputs, ∀ entry ∈ input.tapScriptSigs, entry.sig.length = 64

/-- What is extracted is no larger than the candidate was priced for, and pays the rate whenever
the loop could meet it. -/
structure Covered (p : Pricing PsbtTransaction) (feekb : Int) (best : Candidate PsbtTransaction)
    (tx : PsbtTransaction) : Prop where
  vsize_le : vsize tx ≤ vsize best.tx
  rate : 0 < feekb → minRelayTxFee ≤ feekb ∨ LowRates.RateMet p feekb →
    vsize tx * feekb / 1000 ≤ best.fee

theorem covered_of_le (hrun : PricedRun makeLockScript q req prepared best outcome)
    {tx : PsbtTransaction} (h : vsize tx ≤ vsize best.tx) :
    Covered (req.pricing makeLockScript prepared) req.feekb best tx := by
  refine ⟨h, fun hrate hcase => ?_⟩
  have hexact : LowRates.Exact (req.pricing makeLockScript prepared) req.feekb := fun _ _ _ => rfl
  have hmet : LowRates.RateMet (req.pricing makeLockScript prepared) req.feekb := by
    cases hcase with
    | inl hordinary => exact LowRates.rateMet_of_ordinary hordinary hexact hrun.priced
    | inr hmet => exact hmet
  have hpaid : vsize best.tx * req.feekb / 1000 ≤ best.fee :=
    (LowRates.loop_rate_iff hrate hexact hrun.priced).mpr hmet
  have hmul : (vsize tx : Int) * req.feekb ≤ vsize best.tx * req.feekb :=
    Int.mul_le_mul_of_nonneg_right (by exact_mod_cast h) hrate.le
  have hdiv := Int.ediv_le_ediv (by decide : (0 : Int) < 1000) hmul
  omega

theorem PricedRun.txhashes_nil (hrun : PricedRun makeLockScript q req prepared best outcome) :
    prepared.txhashes = [] ↔ req.selected = [] := by
  obtain ⟨quorumScript, -, hprep⟩ := bind_eq_ok.mp hrun.prepares
  obtain ⟨sizing, -, hprep⟩ := bind_eq_ok.mp hprep
  obtain ⟨txhashes, htxhashes, hprep⟩ := bind_eq_ok.mp hprep
  cases hprep
  have hlen := mapM_length htxhashes
  rw [← List.length_eq_zero_iff, ← List.length_eq_zero_iff, hlen]

/-- The witness forms are covered, and so is a spend of nothing. -/
theorem covered_of_witness (hrun : PricedRun makeLockScript q req prepared best outcome)
    (hfunded : q.form = .p2sh → Funded req prepared.quorumScript)
    (hok : q.form ≠ .p2sh ∨ req.selected = []) {psbt : Psbt} {tx : PsbtTransaction}
    (hsigned : FullySigned outcome.psbt psbt) (h : Extracts P psbt tx) :
    Covered (req.pricing makeLockScript prepared) req.feekb best tx := by
  obtain ⟨base, hcreated, hstrip⟩ := hrun.base hfunded
  have hframe := hsigned.frame.trans hstrip
  apply covered_of_le hrun
  by_cases hform : q.form = .p2sh
  · have hnil := hrun.txhashes_nil.mpr (hok.resolve_left (not_not.mpr hform))
    obtain ⟨htx, hlen, -⟩ := (extracts_iff (hcreated.opened hframe)).mp h
    rw [hcreated.inputs_length hframe, hnil, List.length_nil] at hlen
    apply vsize_le_of_within
    · rw [htx, hcreated.unsignedTx hframe, hrun.best_tx]
      rfl
    · rw [List.length_eq_zero_iff.mp hlen, hrun.best_tx, QuorumSizing.transaction, hnil]
      exact .nil
  · exact witness_vsize_le hform hrun hcreated hframe hsigned.ecdsa h

/-- A spend by script is not covered. -/
theorem not_covered_of_script (hrun : PricedRun makeLockScript q req prepared best outcome)
    (hfunded : Funded req prepared.quorumScript) (hform : q.form = .p2sh)
    (hne : req.selected ≠ []) : ∃ psbt tx, FullySigned outcome.psbt psbt ∧ Extracts P psbt tx ∧
      vsize best.tx < vsize tx := by
  obtain ⟨base, hcreated, hstrip⟩ := hrun.base fun _ => hfunded
  have hframe := fullPsbt_frame hcreated.fresh
  have hsome : prepared.txhashes ≠ [] := fun hnil => hne (hrun.txhashes_nil.mp hnil)
  refine ⟨fullPsbt q base, _, ⟨hframe.trans hstrip.symm, ?_, ?_⟩, full_extracts hform hcreated,
    full_vsize_gt hform hsome hrun hcreated⟩
  · intro input hinput entry hentry
    obtain ⟨old, -, rfl⟩ := List.mem_map.mp hinput
    obtain ⟨key, -, rfl⟩ := List.mem_map.mp hentry
    exact longestSig_length.le
  · intro input hinput entry hentry
    obtain ⟨old, hold, rfl⟩ := List.mem_map.mp hinput
    obtain ⟨i, hi⟩ := List.mem_iff_getElem?.mp hold
    obtain ⟨vin, output, -, hq⟩ := hcreated.fresh.inputs i old hi
    have hnone : (fullInput q old).tapScriptSigs = [] := hq.tapScriptSigs
    rw [hnone] at hentry
    cases hentry

end Run

/-- `ms_create_psbt` without an explicit fee is a run priced by the loop, and the loop prices
enough for every set of signatures exactly when the form is a witness form or nothing is spent. -/
theorem estimate_covers_iff (makeLockScript : String → Except Exn Bytes) (q : MsQuorum P)
    (req : Request P) (outcome : MsPsbtOutcome) {fee : Int} (hfee : fee ≤ 0) :
    (MsCreatePsbt P makeLockScript req.rawTransaction req.own q.form q.m q.script req.quorumAddr
        req.dst req.selected req.amount req.feekb fee (.ok outcome) ↔
      ∃ prepared best, PricedRun makeLockScript q req prepared best outcome) ∧
    ∀ prepared best, PricedRun makeLockScript q req prepared best outcome →
      (q.form = .p2sh → Funded req prepared.quorumScript) →
      ((∀ psbt tx, FullySigned outcome.psbt psbt → Extracts P psbt tx →
          Covered (req.pricing makeLockScript prepared) req.feekb best tx) ↔
        q.form ≠ .p2sh ∨ req.selected = []) := by
  refine ⟨msCreatePsbt_iff hfee, ?_⟩
  intro prepared best hrun hfunded
  constructor
  · intro h
    by_contra hno
    rw [not_or, not_not] at hno
    obtain ⟨hform, hne⟩ := hno
    obtain ⟨psbt, tx, hsigned, hextracts, hgt⟩ :=
      not_covered_of_script hrun (hfunded hform) hform hne
    exact absurd (h psbt tx hsigned hextracts).vsize_le (Nat.not_le.mpr hgt)
  · intro hok psbt tx hsigned hextracts
    exact covered_of_witness hrun hfunded hok hsigned hextracts

def scriptQuorum : MsQuorum standIn where
  form := .p2sh
  m := 2
  members := Confluence.sampleQuorum.members
  script := Confluence.sampleQuorum.script
  built := Confluence.sampleQuorum.built

def scriptLock : Bytes := p2shShape.build (hash160 standIn scriptQuorum.script)

def fundingTx : PsbtTransaction :=
  ⟨2, [⟨List.replicate 32 0x44, 0, [], 0xffffffff, []⟩], [⟨100000, scriptLock⟩], 0⟩

def fundingUtxo : Utxo := ⟨Net.hex (fundingTx.id standIn), 0, 100000, "", 6⟩

def scriptRequest : Request standIn where
  rawTransaction := fun _ => .ok (Net.hex fundingTx.serializeWire)
  own := Confluence.sampleKey 7
  quorumAddr := "quorum"
  dst := "dst"
  selected := [fundingUtxo]
  amount := 5000
  feekb := 1000

def scriptPrepared : Prepared :=
  ⟨scriptLock, ⟨.p2sh, 2, scriptQuorum.script, 0, []⟩, [(fundingTx.id standIn, 0)]⟩

theorem fundingTx_fetched (txid : String) :
    fetchPrevTx scriptRequest.rawTransaction txid = .ok fundingTx := by
  have hparse : parseTx fundingTx.serializeWire true = .ok fundingTx := by decide +kernel
  have hraw : scriptRequest.rawTransaction txid = .ok (Net.hex fundingTx.serializeWire) := rfl
  rw [fetchPrevTx, hraw, ok_bind, Net.strip_hex, Hex.decode_encode]
  dsimp only
  rw [hparse]
  rfl

theorem scriptPrepared_ok : prepare standIn scriptQuorum.form scriptQuorum.m scriptQuorum.script
    scriptRequest.selected = .ok scriptPrepared := by
  have hlock : msQuorumLockScript standIn scriptQuorum.form scriptQuorum.script =
      .ok scriptLock := by decide +kernel
  have houtpoint : [fundingUtxo].mapM outpointOf = .ok [(fundingTx.id standIn, 0)] := by
    rw [List.mapM_cons, fundingUtxo, Funding.outpointOf_hex]
    rfl
  have hselected : scriptRequest.selected = [fundingUtxo] := rfl
  rw [prepare, hlock, ok_bind, hselected, houtpoint]
  rfl

/-- The outputs at the price of 264 bytes. -/
def scriptVout : VoutResult :=
  ⟨[⟨94736, sampleScript⟩, ⟨5000, sampleScript⟩], 94736, 5000⟩

def scriptBest : Candidate PsbtTransaction :=
  ⟨264, scriptVout, scriptPrepared.sizing.transaction scriptPrepared.txhashes true scriptVout.vout⟩

theorem scriptRequest_priced :
    FeeLoopReturns (scriptRequest.pricing sampleLockScript scriptPrepared) scriptRequest.feekb
      (.ok scriptBest) := by
  obtain ⟨first, hfirst, hsize⟩ := @LowRates.built_of_sizeAt _
    (scriptRequest.pricing sampleLockScript scriptPrepared) 0 264 (by decide +kernel) (by decide)
  have hvout : makeVout sampleLockScript scriptRequest.quorumAddr scriptRequest.dst
      (amountOf scriptRequest.selected) (some scriptRequest.amount) 264 = .ok scriptVout := by
    have hback : COut.make 94736 sampleScript = .ok ⟨94736, sampleScript⟩ := by decide +kernel
    have hpay : COut.make 5000 sampleScript = .ok ⟨5000, sampleScript⟩ := by decide +kernel
    simp [makeVout, scriptRequest, fundingUtxo, amountOf, reject, sampleLockScript, ok_bind, hback,
      hpay, scriptVout]
  have hpriced : (scriptRequest.pricing sampleLockScript scriptPrepared).build 264 =
      .ok (scriptVout, scriptBest.tx) := bind_eq_ok.mpr ⟨scriptVout, hvout, rfl⟩
  have hsame : (scriptRequest.pricing sampleLockScript scriptPrepared).vsize scriptBest.tx =
      264 := by decide +kernel
  apply feeLoop_oneSize_priced hfirst (hsize ▸ rfl) hpriced (hsame.trans hsize.symm)
  · rw [hsize]
    decide
  · rw [hsize]
    decide

def scriptCreate : CreateInput :=
  { amount := 100000, scriptPubkey := scriptLock, prevTx := some fundingTx
    redeemScript := some scriptQuorum.script }

theorem scriptRequest_created : ∃ outcome, createSigned standIn scriptRequest.rawTransaction
    scriptRequest.own scriptQuorum.form scriptQuorum.script scriptRequest.selected scriptPrepared
      (scriptBest.vout, scriptBest.fee) = .ok outcome := by
  have hcreate : createRequest scriptQuorum.form scriptQuorum.script scriptPrepared.quorumScript
      scriptRequest.rawTransaction fundingUtxo = .ok scriptCreate := by
    have hfits : ¬ fundingUtxo.amount > 0xffffffffffffffff := by decide
    rw [createRequest, reject_false _ hfits, ok_bind]
    exact bind_eq_ok.mpr ⟨fundingTx, fundingTx_fetched _, rfl⟩
  have hcreates : scriptRequest.selected.mapM (createRequest scriptQuorum.form scriptQuorum.script
      scriptPrepared.quorumScript scriptRequest.rawTransaction) = .ok [scriptCreate] := by
    have hselected : scriptRequest.selected = [fundingUtxo] := rfl
    rw [hselected, List.mapM_cons, hcreate]
    rfl
  have hsigned : ((createPsbt standIn (scriptPrepared.sizing.transaction scriptPrepared.txhashes
      false scriptVout.vout) [scriptCreate] >>=
        signInputs standIn scriptRequest.own).toBool) = true := by decide +kernel
  cases hrun : createPsbt standIn (scriptPrepared.sizing.transaction scriptPrepared.txhashes
      false scriptVout.vout) [scriptCreate] >>= signInputs standIn scriptRequest.own with
  | error e =>
    rw [hrun] at hsigned
    cases hsigned
  | ok psbt =>
    obtain ⟨base, hbase, hpsbt⟩ := bind_eq_ok.mp hrun
    refine ⟨⟨psbt, 264, scriptVout.cashback, scriptVout.amount⟩, ?_⟩
    refine bind_eq_ok.mpr ⟨_, hcreates, bind_eq_ok.mpr ⟨base, hbase, ?_⟩⟩
    exact bind_eq_ok.mpr ⟨psbt, hpsbt, rfl⟩

theorem scriptRequest_run : ∃ outcome,
    PricedRun sampleLockScript scriptQuorum scriptRequest scriptPrepared scriptBest outcome := by
  obtain ⟨outcome, hcreated⟩ := scriptRequest_created
  exact ⟨outcome, scriptPrepared_ok, scriptRequest_priced, hcreated⟩

theorem scriptRequest_funded : Funded scriptRequest scriptPrepared.quorumScript := by
  intro u hu prev hprev
  obtain rfl := List.mem_singleton.mp hu
  rw [fundingTx_fetched, Except.ok.injEq] at hprev
  subst hprev
  rfl

/-- Two signatures of 73 bytes make the transaction larger than what its fee was the price of. -/
theorem script_underestimated : ¬ ∀ (q : MsQuorum standIn) (req : Request standIn) prepared best
    outcome, PricedRun sampleLockScript q req prepared best outcome →
      (q.form = .p2sh → Funded req prepared.quorumScript) →
      ∀ psbt tx, FullySigned outcome.psbt psbt → Extracts standIn psbt tx →
        vsize tx ≤ vsize best.tx := by
  intro h
  obtain ⟨outcome, hrun⟩ := scriptRequest_run
  obtain ⟨psbt, tx, hsigned, hextracts, hgt⟩ :=
    not_covered_of_script hrun scriptRequest_funded rfl (List.cons_ne_nil _ _)
  exact absurd (h _ _ _ _ _ hrun (fun _ => scriptRequest_funded) psbt tx hsigned hextracts)
    (Nat.not_le.mpr hgt)

theorem estimate_covers_sample : ∃ outcome,
    MsCreatePsbt standIn sampleLockScript scriptRequest.rawTransaction scriptRequest.own
        scriptQuorum.form scriptQuorum.m scriptQuorum.script scriptRequest.quorumAddr
        scriptRequest.dst scriptRequest.selected scriptRequest.amount scriptRequest.feekb 0
        (.ok outcome) ∧
      ((∀ psbt tx, FullySigned outcome.psbt psbt → Extracts standIn psbt tx →
          Covered (scriptRequest.pricing sampleLockScript scriptPrepared) scriptRequest.feekb
            scriptBest tx) ↔
        scriptQuorum.form ≠ .p2sh ∨ scriptRequest.selected = []) := by
  obtain ⟨outcome, hrun⟩ := scriptRequest_run
  have hzero : (0 : Int) ≤ 0 := le_rfl
  obtain ⟨hmade, hcovers⟩ :=
    estimate_covers_iff sampleLockScript scriptQuorum scriptRequest outcome hzero
  have hsome : ∃ prepared best,
      PricedRun sampleLockScript scriptQuorum scriptRequest prepared best outcome :=
    ⟨scriptPrepared, scriptBest, hrun⟩
  refine ⟨outcome, ?_, ?_⟩
  · rw [hmade]
    exact hsome
  · exact hcovers scriptPrepared scriptBest hrun (fun _ => scriptRequest_funded)

end Yubtc.QuorumSize
