import Yubtc.SignedState
import Yubtc.Finalizer
import Yubtc.LeafSpend

/-!
# Finalizing a quorum

What the Finalizer makes of a signed PSBT: with enough signers the input carries the signatures
of the first of them in script order, with fewer it is refused.
-/
namespace Yubtc.QuorumFinal

open Wire Errors ExceptRules Crypto Script Quorum Transaction PsbtData PsbtCodec PsbtRoles
  QuorumPsbt QuorumSigning SignedState

variable {P : Primitives}

section Order

variable {q : MsQuorum P} {A : Set P.PrivateKey}

/-- The members in the order of their keys in the script. -/
def ordered (q : MsQuorum P) : List P.PrivateKey :=
  q.members.insertionSort fun k k' => memberKey q.form k ≤ memberKey q.form k'

theorem ordered_map (q : MsQuorum P) : (ordered q).map (memberKey q.form) = q.keys := by
  apply List.map_insertionSort
  intro k _ k' _
  rfl

theorem mem_ordered {k : P.PrivateKey} : k ∈ ordered q ↔ k ∈ q.members :=
  List.mem_insertionSort _

theorem ordered_nodup (q : MsQuorum P) : (ordered q).Nodup :=
  ((List.perm_insertionSort _ _).nodup_iff).mpr q.isQuorum.nodup.of_map

open Classical in
/-- The members of a set, in script order. -/
noncomputable def inOrder (q : MsQuorum P) (A : Set P.PrivateKey) : List P.PrivateKey :=
  (ordered q).filter (· ∈ A)

theorem mem_inOrder {k : P.PrivateKey} : k ∈ inOrder q A ↔ k ∈ q.members ∧ k ∈ A := by
  simp [inOrder, mem_ordered]

/-- A set of members has as many elements as its list. -/
theorem length_inOrder (hA : ∀ k ∈ A, k ∈ q.members) : (inOrder q A).length = A.ncard := by
  classical
  have hset : A = ((inOrder q A).toFinset : Set P.PrivateKey) := by
    ext k
    simp only [List.coe_toFinset, Set.mem_ofPred_eq, mem_inOrder]
    exact ⟨fun hk => ⟨hA k hk, hk⟩, And.right⟩
  have hnd : (inOrder q A).Nodup := (ordered_nodup q).filter _
  conv_rhs => rw [hset]
  rw [Set.ncard_coe_finset, List.toFinset_card_of_nodup hnd]

theorem filterMap_if {α β : Type} (l : List α) (p : α → Prop) [DecidablePred p] (f : α → β) :
    l.filterMap (fun a => if p a then some (f a) else none) = (l.filter p).map f := by
  induction l with
  | nil => rfl
  | cons a l ih =>
    by_cases ha : p a
    · simp [ha, ih]
    · simp [ha, ih]

open Classical in
/-- What is found for the script's keys is what the signers made, in script order. -/
theorem filterMap_keys {find : Bytes → Option Bytes} {sig : P.PrivateKey → Bytes}
    (h : ∀ k ∈ q.members, find (memberKey q.form k) = if k ∈ A then some (sig k) else none) :
    q.keys.filterMap find = (inOrder q A).map sig := by
  rw [← ordered_map, List.filterMap_map, inOrder, ← filterMap_if]
  apply List.filterMap_congr
  intro k hk
  exact h k (mem_ordered.mp hk)

end Order

section Found

variable {q : MsQuorum P} {base psbt : Psbt} {S : Set (Nat × P.PrivateKey)} {i : Nat}
  {input : PsbtIn}

open Classical in
/-- The signature stored under a member's key. -/
theorem find_keyed (h : Signed q base S psbt) (hS : ∀ step ∈ S, Allowed q base step)
    (hin : psbt.inputs[i]? = some input) (hform : q.form ≠ .p2tr) {k : P.PrivateKey}
    (hk : k ∈ q.members) :
    (input.partialSigs.find? fun p => p.1 = memberKey q.form k).map Prod.snd =
      if k ∈ signersAt S i then some (sigOf q base i k) else none := by
  have hmem := (h.partialSigs i input hin).mem
  cases hfind : input.partialSigs.find? fun p => p.1 = memberKey q.form k with
  | none =>
    have hnot : k ∉ signersAt S i := by
      intro hks
      have hx := (hmem _).mpr ⟨k, hks, partialEntry_eq_some.mpr ⟨hform, rfl⟩⟩
      exact of_decide_eq_false (Bool.eq_false_iff.mpr (List.find?_eq_none.mp hfind _ hx)) rfl
    rw [if_neg hnot, Option.map_none]
  | some x =>
    have hkey : x.1 = memberKey q.form k := by simpa using List.find?_some hfind
    obtain ⟨k', hk', he⟩ := (hmem x).mp (List.mem_of_find?_eq_some hfind)
    obtain ⟨-, rfl⟩ := partialEntry_eq_some.mp he
    obtain rfl := q.memberKey_inj (hS _ hk').2 hk hkey
    rw [if_pos hk', Option.map_some]

open Classical in
/-- The signature stored under a member's key and the quorum's leaf. -/
theorem find_tap (h : Signed q base S psbt) (hS : ∀ step ∈ S, Allowed q base step)
    (hin : psbt.inputs[i]? = some input) (hform : q.form = .p2tr) {k : P.PrivateKey}
    (hk : k ∈ q.members) :
    tapSigOf input (tapscriptLeafHash P q.script) (memberKey q.form k) =
      if k ∈ signersAt S i then some (sigOf q base i k) else none := by
  have hmem := (h.tapScriptSigs i input hin).mem
  rw [tapSigOf]
  cases hfind : input.tapScriptSigs.find? fun s =>
      s.xOnly = memberKey q.form k && s.leafHash = tapscriptLeafHash P q.script with
  | none =>
    have hnot : k ∉ signersAt S i := by
      intro hks
      have hx := (hmem _).mpr ⟨k, hks, tapEntry_eq_some.mpr ⟨hform, rfl⟩⟩
      have habsent := List.find?_eq_none.mp hfind _ hx
      simp at habsent
    rw [if_neg hnot, Option.map_none]
  | some x =>
    have hkey : x.xOnly = memberKey q.form k := by
      have hfound := List.find?_some hfind
      simp only [Bool.and_eq_true, decide_eq_true_eq] at hfound
      exact hfound.1
    obtain ⟨k', hk', he⟩ := (hmem x).mp (List.mem_of_find?_eq_some hfind)
    obtain ⟨-, rfl⟩ := tapEntry_eq_some.mp he
    obtain rfl := q.memberKey_inj (hS _ hk').2 hk hkey
    rw [if_pos hk', Option.map_some]

end Found

/-- A final input of a quorum with the signatures of the given members, in the layout of the
form. On the script path every signature stands in its member's slot. -/
def Carries (q : MsQuorum P) (sig : P.PrivateKey → Bytes) (chosen : List P.PrivateKey)
    (input : PsbtIn) : Prop :=
  match q.form with
  | .p2sh => input.finalScriptwitness = none ∧
      ∃ script, makeMultisigScriptSig q.script (chosen.map sig) = .ok script ∧
        input.finalScriptsig = some script
  | .p2wsh => input.finalScriptsig = none ∧ input.finalScriptwitness =
      some (encodeWitnessStack (makeMultisigWitness q.script (chosen.map sig)))
  | .p2tr => input.finalScriptsig = none ∧ ∃ (controlBlock : Bytes) (slots : List (Option Bytes)),
      controlBlock.length = 33 ∧ input.finalScriptwitness =
        some (encodeWitnessStack (makeMultisigTapscriptWitness q.script controlBlock slots)) ∧
      slots.reduceOption = chosen.map sig ∧
      List.Forall₂ (fun k slot => ∀ s ∈ slot, s = sig k) (ordered q) slots

/-- The signers whose signatures are used. -/
noncomputable def firstSigners (q : MsQuorum P) (A : Set P.PrivateKey) : List P.PrivateKey :=
  (inOrder q A).take q.m

theorem makeMultisigScriptSig_ok {q : MsQuorum P} (hform : q.form = .p2sh) {sigs : List Bytes}
    (h : ∀ sig ∈ sigs, sig.length ≤ 73) :
    makeMultisigScriptSig q.script sigs =
      .ok (op0 :: (sigs.map pushed).flatten ++ pushed q.script) := by
  have hpush : ∀ {data : Bytes}, data.length ≤ 0xffff → pushData data = .ok (pushed data) :=
    fun hd => pushData_eq_ok.mpr ⟨hd, rfl⟩
  have hsigs : sigs.mapM pushData = .ok (sigs.map pushed) := by
    rw [mapM_eq_ok, List.forall₂_map_right_iff, List.forall₂_same]
    intro sig hs
    have hlen := h sig hs
    exact hpush (by omega)
  have hq := q.isQuorum_keys
  have hbytes := q.script_eq
  rw [hform] at hq hbytes
  have hlen : q.script.length = q.keys.length * 34 + 3 := by
    rw [hbytes]
    exact redeemBytes_length hq.keyLength
  have hbound : q.keys.length ≤ 15 := hq.bound
  rw [makeMultisigScriptSig, hsigs, ok_bind, hpush (by omega), ok_bind, pure_eq_ok]

section Outcome

variable {q : MsQuorum P} {base psbt : Psbt} {S : Set (Nat × P.PrivateKey)} {i : Nat}
  {input : PsbtIn}

/-- A finalized quorum input, when there are enough signers. -/
def Settled (q : MsQuorum P) (base : Psbt) (A : Set P.PrivateKey) (i : Nat)
    (outcome : Except Exn PsbtIn) : Prop :=
  (q.m ≤ A.ncard → ∃ r, outcome = .ok r ∧ Carries q (sigOf q base i) (firstSigners q A) r) ∧
    (¬ q.m ≤ A.ncard → outcome = .error (incomplete i))

theorem finalizeMultisig_signed (hbase : FreshPsbt q base) (h : Signed q base S psbt)
    (hS : ∀ step ∈ S, Allowed q base step) (hin : psbt.inputs[i]? = some input)
    (hsighash : input.sighashType = none) (hform : q.form ≠ .p2tr) {script : Option Bytes}
    {commitment : Bytes → Bytes} {committed : Bytes} (hscript : script = some q.script)
    (hquorum : quorumScript q.script = .ok (q.m, q.keys))
    (hcommit : commitment q.script = committed) :
    finalizeMultisig i input script commitment committed =
      if q.m ≤ (signersAt S i).ncard then
        .ok (q.script, (firstSigners q (signersAt S i)).map (sigOf q base i))
      else .error (incomplete i) := by
  have hsigs : memberSigs input q.keys = (inOrder q (signersAt S i)).map (sigOf q base i) :=
    filterMap_keys fun k hk => find_keyed h hS hin hform hk
  have hlast : ¬ ∃ sig ∈ (inOrder q (signersAt S i)).map (sigOf q base i),
      sig.getLast? ≠ some sighashAll := by
    rintro ⟨sig, hs, hne⟩
    obtain ⟨k, -, rfl⟩ := List.mem_map.mp hs
    obtain ⟨digest, hsig⟩ := sigOf_ecdsa hbase (h.input hin) hform k
    rw [hsig, List.getLast?_concat] at hne
    exact hne rfl
  have hblocked : ¬ blockedSighash input psbtSighashAll := by
    simp [blockedSighash, hsighash]
  have hcount : (inOrder q (signersAt S i)).length = (signersAt S i).ncard :=
    length_inOrder fun k hk => (hS _ hk).2
  simp only [finalizeMultisig, hscript, orElseThrow_some, ok_bind, hquorum,
    reject_false _ (not_not.mpr hcommit), reject_false _ hblocked, hsigs, reject_false _ hlast,
    List.length_map, hcount]
  by_cases hm : q.m ≤ (signersAt S i).ncard
  · rw [reject_false _ (Nat.not_lt.mpr hm), if_pos hm, ok_bind, firstSigners, List.map_take]
    rfl
  · rw [reject_true _ (Nat.lt_of_not_le hm), if_neg hm]
    rfl

theorem finalizeP2sh_signed (hP : P.Lawful) (hbase : FreshPsbt q base) (h : Signed q base S psbt)
    (hS : ∀ step ∈ S, Allowed q base step) (hin : psbt.inputs[i]? = some input)
    (hsighash : input.sighashType = none) (hfinal : input.finalScriptwitness = none)
    (hform : q.form = .p2sh) {scriptPubkey : Bytes} (hscript : input.redeemScript = some q.script)
    (hquorum : quorumScript q.script = .ok (q.m, q.keys))
    (hcommit : hash160 P q.script = slice scriptPubkey 2 22) :
    Settled q base (signersAt S i) i (finalizeP2shMultisig P i input scriptPubkey) := by
  have hne : q.form ≠ .p2tr := by simp [hform]
  have hmultisig := finalizeMultisig_signed hbase h hS hin hsighash hne hscript hquorum hcommit
  constructor
  · intro hm
    rw [if_pos hm] at hmultisig
    have hsizes : ∀ sig ∈ (firstSigners q (signersAt S i)).map (sigOf q base i),
        sig.length ≤ 73 := by
      intro sig hs
      obtain ⟨k, -, rfl⟩ := List.mem_map.mp hs
      obtain ⟨digest, hsig⟩ := sigOf_ecdsa hbase (h.input hin) hne k
      have hder := hP.sign_length k digest
      rw [hsig, List.length_append, List.length_singleton]
      omega
    have hmake := makeMultisigScriptSig_ok hform hsizes
    refine ⟨_, bind_eq_ok.mpr ⟨_, hmultisig, bind_eq_ok.mpr ⟨_, hmake, rfl⟩⟩, ?_⟩
    rw [Carries, hform]
    exact ⟨hfinal, _, hmake, rfl⟩
  · intro hm
    rw [if_neg hm] at hmultisig
    rw [finalizeP2shMultisig, hmultisig]
    rfl

theorem finalizeP2wsh_signed (hbase : FreshPsbt q base) (h : Signed q base S psbt)
    (hS : ∀ step ∈ S, Allowed q base step) (hin : psbt.inputs[i]? = some input)
    (hsighash : input.sighashType = none) (hfinal : input.finalScriptsig = none)
    (hform : q.form = .p2wsh) {scriptPubkey : Bytes} (hscript : input.witnessScript = some q.script)
    (hquorum : quorumScript q.script = .ok (q.m, q.keys))
    (hcommit : P.sha256 q.script = slice scriptPubkey 2 34) :
    Settled q base (signersAt S i) i (finalizeP2wshMultisig P i input scriptPubkey) := by
  have hne : q.form ≠ .p2tr := by simp [hform]
  have hmultisig := finalizeMultisig_signed hbase h hS hin hsighash hne hscript hquorum hcommit
  constructor
  · intro hm
    rw [if_pos hm] at hmultisig
    refine ⟨_, bind_eq_ok.mpr ⟨_, hmultisig, rfl⟩, ?_⟩
    rw [Carries, hform]
    exact ⟨hfinal, rfl⟩
  · intro hm
    rw [if_neg hm] at hmultisig
    rw [finalizeP2wshMultisig, hmultisig]
    rfl

theorem finalizeP2tr_signed (hP : P.Lawful) (hbase : FreshPsbt q base) (h : Signed q base S psbt)
    (hS : ∀ step ∈ S, Allowed q base step) (hin : psbt.inputs[i]? = some input)
    (hsighash : input.sighashType = none) (hfinal : input.finalScriptsig = none)
    (hform : q.form = .p2tr) {leaf : TapLeafScript} {scriptPubkey : Bytes}
    (hleaf : revealedLeaf P input leaf scriptPubkey = .ok (q.revealed leaf.controlBlock)) :
    Settled q base (signersAt S i) i (finalizeP2trScriptpath P i input leaf scriptPubkey) := by
  have hfind := fun k hk => find_tap h hS hin hform (k := k) hk
  have hfound : q.keys.filterMap (tapSigOf input (tapscriptLeafHash P q.script)) =
      (inOrder q (signersAt S i)).map (sigOf q base i) := filterMap_keys hfind
  have hcount : (inOrder q (signersAt S i)).length = (signersAt S i).ncard :=
    length_inOrder fun k hk => (hS _ hk).2
  have hsizes : ∀ key ∈ q.keys, ∀ sig ∈ tapSigOf input (tapscriptLeafHash P q.script) key,
      sig.length = 64 := by
    intro key hkey sig hs
    rw [← ordered_map] at hkey
    obtain ⟨k, hk, rfl⟩ := List.mem_map.mp hkey
    rw [hfind k (mem_ordered.mp hk)] at hs
    obtain ⟨digest, hsig⟩ := sigOf_schnorr hbase (h.input hin) hform k
    split at hs
    · cases hs
      rw [hsig]
      exact hP.signSchnorr_length k digest
    · cases hs
  have hblocked : ¬ blockedSighash input psbtSighashDefault := by
    simp [blockedSighash, hsighash]
  have hslots : ∃ r, sigSlots i q.m (tapSigOf input (tapscriptLeafHash P q.script)) q.keys 0 =
      .ok r := LeafSpend.sigSlots_ok hsizes 0
  obtain ⟨⟨slots, total⟩, hslots⟩ := hslots
  obtain ⟨hreduce, htotal, hall⟩ := LeafSpend.sigSlots_spec hslots
  rw [hfound, Nat.sub_zero, ← List.map_take] at hreduce
  rw [hreduce, List.length_map, List.length_take, hcount, Nat.zero_add] at htotal
  constructor
  · intro hm
    have hfull : ¬ total < q.m := by omega
    refine ⟨_, LeafSpend.finalizeP2trScriptpath_eq_ok.mpr
      ⟨q.revealed leaf.controlBlock, slots, total, hleaf, hblocked, hslots, hfull, rfl⟩, ?_⟩
    rw [Carries, hform]
    refine ⟨hfinal, leaf.controlBlock, slots, ?_, rfl, hreduce, ?_⟩
    · obtain ⟨hshape, -⟩ := reject_bind_eq_ok.mp hleaf
      simp only [not_or, not_not, ne_eq] at hshape
      exact hshape.1
    · rw [← ordered_map, List.forall₂_map_left_iff] at hall
      have hmembers : ∀ k ∈ ordered q, k ∈ q.members := fun k hk => mem_ordered.mp hk
      apply ((List.forall₂_and_left _ _).mpr ⟨hmembers, hall⟩).imp
      rintro k slot ⟨hk, hslot⟩ sig hsig
      have hown := (hslot sig hsig).1
      rw [hfind k hk] at hown
      split at hown
      · exact (Option.some.inj hown).symm
      · cases hown
  · intro hm
    have hshort : total < q.m := by omega
    have hslots' : sigSlots i (q.revealed leaf.controlBlock).m
        (tapSigOf input (q.revealed leaf.controlBlock).leafHash)
        (q.revealed leaf.controlBlock).keys 0 = .ok (slots, total) := hslots
    rw [finalizeP2trScriptpath, hleaf, ok_bind, reject_false _ hblocked, ok_bind, hslots', ok_bind]
    exact congrArg (fun x => x >>= _) (reject_true _ hshort)

/-- Finalizing an input of a signed PSBT. -/
theorem finalOutcome_signed (hP : P.Lawful) (hbase : FreshPsbt q base)
    (h : Signed q base S psbt) (hS : ∀ step ∈ S, Allowed q base step)
    (hi : i < base.unsignedTx.vin.length) :
    Settled q base (signersAt S i) i (finalOutcome P psbt i) := by
  have hlt : i < psbt.inputs.length := by rwa [h.inputs_length, hbase.count]
  have hin : psbt.inputs[i]? = some psbt.inputs[i] := List.getElem?_eq_getElem hlt
  generalize psbt.inputs[i] = input at hin
  obtain ⟨vin, output, hvin, hq⟩ := hbase.inputs i _ (h.input hin)
  have hsighash : input.sighashType = none := hq.sighashType
  have hscriptsig : input.finalScriptsig = none := hq.finalScriptsig
  have hwitness : input.finalScriptwitness = none := hq.finalScriptwitness
  have hutxo : inputUtxoData psbt i = some (output.script, output.amount) := by
    rw [h.inputUtxoData, inputUtxoData_quorum (h.input hin) hvin hq.spends]
  have hopen : ¬ (input.finalScriptsig.isSome = true ∨ input.finalScriptwitness.isSome = true) := by
    simp [hscriptsig, hwitness]
  simp only [finalOutcome, hin, orElseThrow_some, ok_bind, hopen, if_false, hutxo]
  have hcommits := hq.commits
  cases hform : q.form with
  | p2sh =>
    rw [Commits, hform] at hcommits
    obtain ⟨hfits, hscript, hquorum, hcommit⟩ := hcommits
    obtain ⟨-, hsh, -, -⟩ := forms_of_p2sh hfits
    rw [if_pos hsh]
    exact finalizeP2sh_signed hP hbase h hS hin hsighash hwitness hform hscript hquorum hcommit
  | p2wsh =>
    rw [Commits, hform] at hcommits
    obtain ⟨hfits, hscript, hquorum, hcommit⟩ := hcommits
    obtain ⟨-, hsh, hwsh, -⟩ := forms_of_p2wsh hfits
    rw [if_neg (Bool.eq_false_iff.mp hsh), if_pos hwsh]
    exact finalizeP2wsh_signed hbase h hS hin hsighash hscriptsig hform hscript hquorum hcommit
  | p2tr =>
    rw [Commits, hform] at hcommits
    obtain ⟨hfits, -, leaf, hleaves, hleaf⟩ := hcommits
    obtain ⟨-, hsh, hwsh, htr⟩ := forms_of_p2tr hfits
    have hleaves : input.tapLeafScripts = [leaf] := hleaves
    rw [if_neg (Bool.eq_false_iff.mp hsh), if_neg (Bool.eq_false_iff.mp hwsh), htr, hleaves]
    exact finalizeP2tr_signed hP hbase h hS hin hsighash hscriptsig hform hleaf

/-- The loop settles every input of a signed PSBT. -/
theorem finalizePsbt_signed (hP : P.Lawful) (hbase : FreshPsbt q base)
    (h : Signed q base S psbt) (hS : ∀ step ∈ S, Allowed q base step) :
    ∃ psbt', finalizePsbt P psbt = .ok () psbt' ∧
      Finalizer.Settles P (List.range psbt.inputs.length) psbt psbt' := by
  apply Finalizer.finalizePsbt_settles
  intro i hi e he
  rw [h.inputs_length, hbase.count] at hi
  obtain ⟨henough, hfew⟩ := finalOutcome_signed hP hbase h hS hi
  by_cases hm : q.m ≤ (signersAt S i).ncard
  · obtain ⟨r, hr, -⟩ := henough hm
    rw [hr] at he
    cases he
  · rw [hfew hm] at he
    cases he
    exact ⟨_, rfl⟩

end Outcome

end Yubtc.QuorumFinal
