import Yubtc.PsbtRoles
import Yubtc.QuorumExecution

/-!
# Spending a quorum leaf

The slots the script-path finalizer fills, and what the leaf does with the witness it
assembles. The byte that ends the leaf verifies the comparison and pushes nothing, so the
stack is empty after a complete and valid witness.
-/
namespace Yubtc.LeafSpend

open Wire Errors ExceptRules Crypto Script Quorum QuorumExecution PsbtData PsbtCodec PsbtRoles
open ScriptVm (Offered Succeeds run)

section Slots

variable {index m : Nat} {sigOf : Bytes → Option Bytes} {keys : List Bytes}

/-- The slots hold the first signatures in script order, each under its key. -/
theorem sigSlots_spec {taken total : Nat} {slots : List (Option Bytes)}
    (h : sigSlots index m sigOf keys taken = .ok (slots, total)) :
    slots.reduceOption = (keys.filterMap sigOf).take (m - taken) ∧
      total = taken + slots.reduceOption.length ∧
      List.Forall₂ (fun key slot => ∀ sig ∈ slot, sigOf key = some sig ∧ sig.length = 64)
        keys slots := by
  induction keys generalizing taken slots with
  | nil =>
    cases h
    simp
  | cons key keys ih =>
    simp only [sigSlots] at h
    split at h
    · -- The slot is filled: there is a signature and room for it.
      next sig hsig hroom =>
      have hlt : taken < m := of_decide_eq_true hroom
      obtain ⟨h64, h⟩ := reject_bind_eq_ok.mp h
      obtain ⟨⟨rest, restTotal⟩, hrest, he⟩ := bind_eq_ok.mp h
      cases he
      obtain ⟨hfilter, htotal, hall⟩ := ih hrest
      replace htotal : restTotal = taken + 1 + rest.reduceOption.length := htotal
      refine ⟨?_, ?_, .cons ?_ hall⟩
      · rw [List.reduceOption_cons_of_some, List.filterMap_cons_some hsig, hfilter,
          show m - taken = (m - (taken + 1)) + 1 by omega, List.take_succ_cons]
      · show restTotal = taken + (some sig :: rest).reduceOption.length
        rw [List.reduceOption_cons_of_some, List.length_cons]
        omega
      · intro sig' hsig'
        cases hsig'
        exact ⟨hsig, not_not.mp h64⟩
    · next hskip =>
      obtain ⟨⟨rest, restTotal⟩, hrest, he⟩ := bind_eq_ok.mp h
      cases he
      obtain ⟨hfilter, htotal, hall⟩ := ih hrest
      refine ⟨?_, htotal, .cons (fun sig' hsig' => nomatch hsig') hall⟩
      rw [List.reduceOption_cons_of_none, hfilter]
      cases hsig : sigOf key with
      | none => rw [List.filterMap_cons_none hsig]
      | some sig =>
        have hfull : ¬ taken < m := fun hlt => hskip sig hsig (decide_eq_true hlt)
        rw [show m - taken = 0 by omega, List.take_zero, List.take_zero]

/-- Signatures of the right length never stop the loop. -/
theorem sigSlots_ok (h : ∀ key ∈ keys, ∀ sig ∈ sigOf key, sig.length = 64) (taken : Nat) :
    ∃ r, sigSlots index m sigOf keys taken = .ok r := by
  induction keys generalizing taken with
  | nil => exact ⟨_, rfl⟩
  | cons key keys ih =>
    have ih := ih fun key hk => h key (List.mem_cons_of_mem _ hk)
    simp only [sigSlots]
    split
    · next sig hsig _ =>
      obtain ⟨r, hr⟩ := ih (taken + 1)
      have h64 : sig.length = 64 := h key List.mem_cons_self sig hsig
      rw [reject_false _ (not_not.mpr h64), ok_bind, hr]
      exact ⟨_, rfl⟩
    · obtain ⟨r, hr⟩ := ih taken
      rw [hr]
      exact ⟨_, rfl⟩

theorem countP_isSome (slots : List (Option Bytes)) :
    slots.countP Option.isSome = slots.reduceOption.length :=
  List.length_filterMap_eq_countP.symm

end Slots

section Finalizer

variable {P : Primitives} {index : Nat} {input : PsbtIn} {leaf : TapLeafScript}
  {scriptPubkey : Bytes}

/-- A finalized script path carries the slots, the leaf and the control block. -/
theorem finalizeP2trScriptpath_eq_ok {r : PsbtIn} :
    finalizeP2trScriptpath P index input leaf scriptPubkey = .ok r ↔
      ∃ revealed slots total, revealedLeaf P input leaf scriptPubkey = .ok revealed ∧
        ¬ blockedSighash input psbtSighashDefault ∧
        sigSlots index revealed.m (tapSigOf input revealed.leafHash) revealed.keys 0 =
          .ok (slots, total) ∧
        ¬ total < revealed.m ∧
        { clearIntermediates { input with
            finalScriptwitness := some (encodeWitnessStack
              (makeMultisigTapscriptWitness revealed.script revealed.controlBlock slots)) }
          with tapScriptSigs := [], tapLeafScripts := [], tapInternalKey := none,
               tapMerkleRoot := none } = r := by
  simp only [finalizeP2trScriptpath, bind_eq_ok, reject_eq_ok, pure_eq_ok, Except.ok.injEq,
    exists_const, Prod.exists]
  constructor
  · rintro ⟨revealed, hleaf, hblocked, slots, total, hslots, hm, hr⟩
    exact ⟨revealed, slots, total, hleaf, hblocked, hslots, hm, hr⟩
  · rintro ⟨revealed, slots, total, hleaf, hblocked, hslots, hm, hr⟩
    exact ⟨revealed, hleaf, hblocked, slots, total, hslots, hm, hr⟩

/-- What a revealed leaf is: the canonical script of an admissible quorum. -/
theorem revealedLeaf_spec {revealed : RevealedLeaf}
    (h : revealedLeaf P input leaf scriptPubkey = .ok revealed) :
    IsQuorum 32 revealed.m revealed.keys ∧
      revealed.script = tapscriptBytes revealed.m revealed.keys ∧
      revealed.leafHash = tapscriptLeafHash P revealed.script ∧
      revealed.controlBlock = leaf.controlBlock := by
  obtain ⟨-, h⟩ := reject_bind_eq_ok.mp h
  obtain ⟨⟨script, m, keys⟩, hscript, h⟩ := bind_eq_ok.mp h
  obtain ⟨key, -, h⟩ := bind_eq_ok.mp h
  obtain ⟨-, h⟩ := reject_bind_eq_ok.mp h
  obtain ⟨-, h⟩ := reject_bind_eq_ok.mp h
  cases h
  obtain ⟨-, hscript⟩ := reject_bind_eq_ok.mp hscript
  obtain ⟨⟨m', keys'⟩, hextract, he⟩ := bind_eq_ok.mp hscript
  cases he
  obtain ⟨hq, hbytes⟩ := extractMultisigTapscript_eq_ok.mp (mapError_eq_ok.mp hextract)
  exact ⟨hq, hbytes, rfl, rfl⟩

/-- The signature found for a key is the one its signer added. -/
theorem tapSigOf_eq {signers : List Bytes} {sigOf : Bytes → Bytes} {leafHash : Bytes}
    (hsigs : ∀ s, s ∈ input.tapScriptSigs ↔ ∃ key ∈ signers, s = ⟨key, leafHash, sigOf key⟩)
    (key : Bytes) :
    tapSigOf input leafHash key = if key ∈ signers then some (sigOf key) else none := by
  cases hfind : input.tapScriptSigs.find? (fun s => s.xOnly = key && s.leafHash = leafHash) with
  | none =>
    have hnone : key ∉ signers := by
      intro hk
      have hmem := (hsigs ⟨key, leafHash, sigOf key⟩).mpr ⟨key, hk, rfl⟩
      have habsent := List.find?_eq_none.mp hfind _ hmem
      simp at habsent
    rw [tapSigOf, hfind, if_neg hnone, Option.map_none]
  | some s =>
    obtain ⟨key', hk, he⟩ := (hsigs s).mp (List.mem_of_find?_eq_some hfind)
    have hkey := List.find?_some hfind
    subst he
    simp only [decide_true, Bool.and_true, decide_eq_true_eq] at hkey
    rw [tapSigOf, hfind, ← hkey, if_pos hk, Option.map_some]

/-- The number of signatures found is the number of signers. -/
theorem length_filterMap_members {keys signers : List Bytes} (hnd : signers.Nodup)
    (hsub : signers ⊆ keys) (sigOf : Bytes → Bytes) :
    signers.length ≤
      (keys.filterMap fun key => if key ∈ signers then some (sigOf key) else none).length := by
  have hsome : (fun key => (if key ∈ signers then some (sigOf key) else none).isSome) =
      fun key => decide (key ∈ signers) := by
    funext key
    by_cases hk : key ∈ signers <;> simp [hk]
  rw [List.length_filterMap_eq_countP, hsome, List.countP_eq_length_filter]
  apply (List.subperm_of_subset hnd _).length_le
  intro key hk
  exact List.mem_filter.mpr ⟨hsub hk, decide_eq_true hk⟩

end Finalizer

section Spend

variable {P : Primitives} {m : Nat} {keys signers : List Bytes} {script : Bytes} {index : Nat}
  {input : PsbtIn} {leaf : TapLeafScript} {scriptPubkey : Bytes} {revealed : RevealedLeaf}
  {sigOf : Bytes → Bytes} {valid : Bytes → Bytes → Bool}

/-- For every quorum and every sufficient set of signers the finalizer assembles a complete
and valid witness, and the leaf ends on it with an empty stack: it is never spendable. -/
theorem finalized_leaf_never_succeeds (hq : IsQuorum 32 m keys)
    (hscript : makeMultisigTapscript m keys = .ok script)
    (hleaf : revealedLeaf P input leaf scriptPubkey = .ok revealed)
    (hrevealed : revealed.script = script)
    (hblocked : ¬ blockedSighash input psbtSighashDefault)
    (hnd : signers.Nodup) (hsub : signers ⊆ keys) (hm : m ≤ signers.length)
    (hsigs : ∀ s, s ∈ input.tapScriptSigs ↔
      ∃ key ∈ signers, s = ⟨key, revealed.leafHash, sigOf key⟩)
    (hlen : ∀ key ∈ signers, (sigOf key).length = 64)
    (hvalid : ∀ key ∈ signers, valid (sigOf key) key = true) :
    ∃ r items, finalizeP2trScriptpath P index input leaf scriptPubkey = .ok r ∧
      r.finalScriptwitness =
        some (encodeWitnessStack (items ++ [script, revealed.controlBlock])) ∧
      run (scriptContext valid) script items.reverse = some [] ∧
      ¬ Succeeds (scriptContext valid) script items.reverse := by
  obtain ⟨hrq, hbytes, -, -⟩ := revealedLeaf_spec hleaf
  -- Both the builder and the strict extractor speak of the same canonical bytes.
  have hcanon := (makeMultisigTapscript_ok hq).symm.trans hscript
  cases hcanon
  have hextract := extractMultisigTapscript_tapscriptBytes hrq
  rw [← hbytes, hrevealed, extractMultisigTapscript_tapscriptBytes hq.sorted] at hextract
  simp only [Except.ok.injEq, Prod.mk.injEq] at hextract
  obtain ⟨hmEq, hkeysEq⟩ := hextract
  have hfound : tapSigOf input revealed.leafHash =
      fun key => if key ∈ signers then some (sigOf key) else none :=
    funext (tapSigOf_eq hsigs)
  have h64 : ∀ key ∈ revealed.keys, ∀ sig ∈ tapSigOf input revealed.leafHash key,
      sig.length = 64 := by
    intro key _ sig hsig
    rw [hfound] at hsig
    by_cases hk : key ∈ signers
    · obtain rfl : sigOf key = sig := by simpa [hk] using hsig
      exact hlen key hk
    · simp [hk] at hsig
  obtain ⟨⟨slots, total⟩, hslots⟩ :
      ∃ r, sigSlots index revealed.m (tapSigOf input revealed.leafHash) revealed.keys 0 = .ok r :=
    sigSlots_ok h64 0
  obtain ⟨hfilter, htotal, hall⟩ := sigSlots_spec hslots
  have hcount : slots.countP Option.isSome = revealed.m := by
    have hmembers : signers ⊆ revealed.keys := fun key hk => by
      simpa [← hkeysEq] using hsub hk
    have hle := length_filterMap_members hnd hmembers sigOf
    rw [countP_isSome, hfilter, hfound, Nat.sub_zero, List.length_take]
    omega
  have htaken : ¬ total < revealed.m := by
    rw [htotal, ← countP_isSome, hcount]
    omega
  have hoffered : List.Forall₂ (Offered (scriptContext valid)) revealed.keys slots := by
    refine hall.imp fun key slot h sig hsig => ?_
    obtain ⟨hfind, h64⟩ := h sig hsig
    rw [hfound] at hfind
    by_cases hk : key ∈ signers
    · obtain rfl : sigOf key = sig := by simpa [hk] using hfind
      refine ⟨?_, hvalid key hk⟩
      intro hnil
      rw [hnil] at h64
      exact absurd h64 (by decide)
    · simp [hk] at hfind
  have hrun := run_tapscriptBytes_verify hrq hoffered hcount
  rw [hbytes] at hrevealed
  refine ⟨_, slots.reverse.map fun slot => slot.getD [],
    finalizeP2trScriptpath_eq_ok.mpr ⟨revealed, slots, total, hleaf, hblocked, hslots, htaken, rfl⟩,
    ?_, ?_, ?_⟩
  · rw [← hrevealed, ← hbytes]
    rfl
  · rwa [← List.map_reverse, List.reverse_reverse, ← hrevealed]
  · rintro ⟨top, htop, -⟩
    rw [← List.map_reverse, List.reverse_reverse, ← hrevealed, hrun] at htop
    cases htop

end Spend

/-- The x-only key of a stand-in private key. -/
def leafKey (k : Nat) : Bytes := slice (privkey2pubkey standIn k) 1 33

/-- A stand-in signature names its key. -/
def standInValid (sig key : Bytes) : Bool := sig.take 32 = key

def leafSignature (k : Nat) : Bytes := taprootSignSighashUntweaked standIn k [0x05]

/-- The one-of-two leaf over the keys of 7 and 9, and an input that the holder of 9 signed. -/
def exampleLeaf : Bytes := tapscriptBytes 1 (sortedKeys [leafKey 9, leafKey 7])

def exampleControlBlock : Bytes :=
  match tapscriptControlBlock standIn msTapscriptInternalKey (tapscriptLeafHash standIn exampleLeaf) with
  | .ok controlBlock => controlBlock
  | .error _ => []

def exampleLockScript : Bytes :=
  match tapscriptOutputKey standIn msTapscriptInternalKey (tapscriptLeafHash standIn exampleLeaf) with
  | .ok outputKey => p2trShape.build outputKey
  | .error _ => []

def exampleLeafScript : TapLeafScript := ⟨exampleControlBlock, exampleLeaf ++ [0xc0]⟩

def exampleLeafInput : PsbtIn :=
  { emptyInput with
    witnessUtxo := some ⟨1000, exampleLockScript⟩
    tapScriptSigs := [⟨leafKey 9, tapscriptLeafHash standIn exampleLeaf, leafSignature 9⟩]
    tapLeafScripts := [exampleLeafScript]
    tapInternalKey := some msTapscriptInternalKey }

def exampleRevealed : RevealedLeaf :=
  ⟨exampleControlBlock, exampleLeaf, 1, sortedKeys [leafKey 9, leafKey 7],
    tapscriptLeafHash standIn exampleLeaf⟩

theorem exampleLeaf_quorum : IsQuorum 32 1 [leafKey 9, leafKey 7] where
  pos := by decide
  threshold := by decide
  bound := by decide
  keyLength := by decide +kernel
  nodup := by decide +kernel

/-- The finalizer's witness for the one-of-two leaf is complete and its signature valid, and
the leaf ends with an empty stack. -/
theorem one_of_two_leaf_fails :
    makeMultisigTapscript 1 [leafKey 9, leafKey 7] = .ok exampleLeaf ∧
      standInValid (leafSignature 9) (leafKey 9) = true ∧
      (finalizeP2trScriptpath standIn 0 exampleLeafInput exampleLeafScript
          exampleLockScript).map PsbtIn.finalScriptwitness =
        .ok (some (encodeWitnessStack
          ([leafSignature 9, []] ++ [exampleLeaf, exampleControlBlock]))) ∧
      ¬ Succeeds (scriptContext standInValid) exampleLeaf [[], leafSignature 9] := by
  refine ⟨by decide +kernel, by decide +kernel, by decide +kernel, ?_⟩
  have hrun : run (scriptContext standInValid) exampleLeaf [[], leafSignature 9] = some [] := by
    decide +kernel
  rintro ⟨top, htop, -⟩
  rw [hrun] at htop
  cases htop

theorem finalized_leaf_never_succeeds_one_of_two :
    ∃ r items,
      finalizeP2trScriptpath standIn 0 exampleLeafInput exampleLeafScript exampleLockScript =
        .ok r ∧
      r.finalScriptwitness =
        some (encodeWitnessStack (items ++ [exampleLeaf, exampleControlBlock])) ∧
      run (scriptContext standInValid) exampleLeaf items.reverse = some [] ∧
      ¬ Succeeds (scriptContext standInValid) exampleLeaf items.reverse := by
  have hscript : makeMultisigTapscript (1 : Nat) [leafKey 9, leafKey 7] = .ok exampleLeaf := by
    decide +kernel
  have hleaf : revealedLeaf standIn exampleLeafInput exampleLeafScript exampleLockScript =
      .ok exampleRevealed := by decide +kernel
  have hsub : [leafKey 9] ⊆ [leafKey 9, leafKey 7] := List.cons_subset_cons _ (List.nil_subset _)
  have hsigs : ∀ s, s ∈ exampleLeafInput.tapScriptSigs ↔
      ∃ key ∈ [leafKey 9], s = ⟨key, exampleRevealed.leafHash, leafSignature 9⟩ := by
    intro s
    rw [exampleLeafInput, List.mem_singleton, List.exists_mem_cons_iff]
    simp only [List.not_mem_nil, false_and, exists_false, or_false]
    exact Iff.rfl
  have hlen : ∀ key ∈ [leafKey 9], (leafSignature 9).length = 64 := by decide +kernel
  have hvalid : ∀ key ∈ [leafKey 9], standInValid (leafSignature 9) key = true := by
    decide +kernel
  have hblocked : ¬ blockedSighash exampleLeafInput psbtSighashDefault := by decide +kernel
  have hscript' : exampleRevealed.script = exampleLeaf := rfl
  have hcontrol : exampleRevealed.controlBlock = exampleControlBlock := by
    simp only [exampleRevealed]
  rw [← hcontrol]
  exact finalized_leaf_never_succeeds exampleLeaf_quorum hscript hleaf hscript' hblocked
    (List.nodup_singleton _) hsub (le_refl _) hsigs hlen hvalid

end Yubtc.LeafSpend
