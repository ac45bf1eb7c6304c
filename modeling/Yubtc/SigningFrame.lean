import Yubtc.SignWalk

/-!
# What a signature leaves alone

A call of the signer fails and leaves the PSBT as it was, or files at most one entry under the key
of the caller, and that entry stands where the order of its list wants it.
-/
namespace Yubtc.SigningFrame

open Wire Errors ExceptRules Crypto Script Transaction PsbtData PsbtCodec PsbtRoles Signer SignWalk

variable {P : Primitives}

/-- Partial signatures in the order of their keys, no key twice. -/
def OrderedSigs (sigs : List (Bytes × Bytes)) : Prop := sigs.Pairwise fun a b => a.1 < b.1

/-- The strict order of `(x_only, leaf_hash)` pairs. -/
def KeyLt (a b : TapScriptSig) : Prop :=
  a.xOnly < b.xOnly ∨ a.xOnly = b.xOnly ∧ a.leafHash < b.leafHash

/-- Script-path signatures in the order of their keys, no key twice. -/
def OrderedTapSigs (sigs : List TapScriptSig) : Prop := sigs.Pairwise KeyLt

theorem keyLt_trans (a b c : TapScriptSig) (hab : KeyLt a b) (hbc : KeyLt b c) : KeyLt a c := by
  rcases hab with hab | ⟨hx, hab⟩
  · rcases hbc with hbc | ⟨hy, -⟩
    · exact .inl (List.lt_trans hab hbc)
    · exact .inl (hy ▸ hab)
  · rcases hbc with hbc | ⟨hy, hbc⟩
    · exact .inl (hx ▸ hbc)
    · exact .inr ⟨hx.trans hy, List.lt_trans hab hbc⟩

theorem keyLt_of_keyLe {a b : TapScriptSig} (h : TapScriptSig.keyLe a b = true)
    (hne : ¬ (a.xOnly = b.xOnly ∧ a.leafHash = b.leafHash)) : KeyLt a b := by
  simp only [TapScriptSig.keyLe, Bool.or_eq_true, decide_eq_true_eq, Bool.and_eq_true] at h
  rcases h with h | ⟨hx, h⟩
  · exact .inl h
  · exact .inr ⟨hx, Std.lt_of_le_of_ne h fun hl => hne ⟨hx, hl⟩⟩

theorem keyLt_of_not_keyLe {a b : TapScriptSig} (h : ¬ TapScriptSig.keyLe a b = true) :
    KeyLt b a := by
  simp only [TapScriptSig.keyLe, Bool.or_eq_true, decide_eq_true_eq, Bool.and_eq_true, not_or,
    not_and] at h
  rcases Std.lt_trichotomy b.xOnly a.xOnly with hlt | heq | hgt
  · exact .inl hlt
  · exact .inr ⟨heq, List.not_le.mp (h.2 heq.symm)⟩
  · exact absurd hgt h.1

theorem insertPartialSig_ordered {input : PsbtIn} {pubkey sig : Bytes}
    (hnew : pubkey ∉ input.partialSigs.map Prod.fst) (h : OrderedSigs input.partialSigs) :
    OrderedSigs (insertPartialSig input pubkey sig).partialSigs := by
  have htrans : ∀ a b c : Bytes × Bytes, a.1 < b.1 → b.1 < c.1 → a.1 < c.1 := by
    intro a b c
    exact List.lt_trans
  apply KeyedList.pairwise_insert htrans h
  · intro y hy hle
    apply Std.lt_of_le_of_ne (of_decide_eq_true hle)
    intro heq
    exact hnew (heq ▸ List.mem_map_of_mem hy)
  · intro y _ hle
    exact List.not_le.mp fun hle' => hle (decide_eq_true hle')

theorem insertTapScriptSig_ordered {input : PsbtIn} {entry : TapScriptSig}
    (hnew : ¬ ∃ s ∈ input.tapScriptSigs, s.xOnly = entry.xOnly ∧ s.leafHash = entry.leafHash)
    (h : OrderedTapSigs input.tapScriptSigs) :
    OrderedTapSigs (insertTapScriptSig input entry).tapScriptSigs := by
  apply KeyedList.pairwise_insert keyLt_trans h
  · intro y hy hle
    exact keyLt_of_keyLe hle fun heq => hnew ⟨y, hy, heq⟩
  · intro y _ hle
    exact keyLt_of_not_keyLe hle

variable (P) in
/-- What a key can add to an input: a signature under its own public key, or under its x-only key
and the hash of the first leaf, that was not there. -/
inductive OwnEntry (input : PsbtIn) (privkey : P.PrivateKey) : SignOutcome → Prop
  | partialSig (sig : Bytes) (hnew : privkey2pubkey P privkey ∉ input.partialSigs.map Prod.fst) :
    OwnEntry input privkey (.partialSig (privkey2pubkey P privkey) sig)
  | tapScriptSig (leaf : TapLeafScript) (sig : Bytes) (hleaf : input.tapLeafScripts.head? = some leaf)
    (hnew : ¬ ∃ s ∈ input.tapScriptSigs, s.xOnly = slice (privkey2pubkey P privkey) 1 33 ∧
      s.leafHash = tapscriptLeafHash P leaf.scriptWithVersion.dropLast) :
    OwnEntry input privkey (.tapScriptSig ⟨slice (privkey2pubkey P privkey) 1 33,
      tapscriptLeafHash P leaf.scriptWithVersion.dropLast, sig⟩)

section Own

variable {psbt : Psbt} {index : Nat} {input : PsbtIn} {scriptPubkey : Bytes} {amount : UInt64}
  {privkey : P.PrivateKey} {o : SignOutcome}

theorem signKey_own (h : signKey P psbt index input scriptPubkey amount privkey = .ok o)
    (ho : Adds o) : OwnEntry P input privkey o := by
  obtain ⟨own, -, h⟩ := bind_eq_ok.mp h
  cases own with
  | none =>
    cases h
    exact ho.elim
  | some form =>
    obtain ⟨_, -, h⟩ := bind_eq_ok.mp h
    obtain ⟨_, -, h⟩ := bind_eq_ok.mp h
    rcases ite_eq_ok.mp h with ⟨-, h⟩ | ⟨hnew, h⟩
    · cases h
      exact ho.elim
    · obtain ⟨sig, -, h⟩ := bind_eq_ok.mp h
      cases sig with
      | none =>
        cases h
        exact ho.elim
      | some sig =>
        cases h
        exact .partialSig sig hnew

theorem signMultisig_own {script : Option Bytes} {commitment : Bytes → Bytes} {committed : Bytes}
    {signature : Bytes → Except Exn Bytes}
    (h : signMultisig P script commitment committed signature psbt index input privkey = .ok o)
    (ho : Adds o) : OwnEntry P input privkey o := by
  obtain ⟨redeem, -, h⟩ := bind_eq_ok.mp h
  obtain ⟨quorum, -, h⟩ := bind_eq_ok.mp h
  obtain ⟨-, h⟩ := reject_bind_eq_ok.mp h
  rcases ite_eq_ok.mp h with ⟨-, h⟩ | ⟨-, h⟩
  · cases h
    exact ho.elim
  · obtain ⟨_, -, h⟩ := bind_eq_ok.mp h
    obtain ⟨_, -, h⟩ := bind_eq_ok.mp h
    rcases ite_eq_ok.mp h with ⟨-, h⟩ | ⟨hnew, h⟩
    · cases h
      exact ho.elim
    · obtain ⟨sig, -, h⟩ := bind_eq_ok.mp h
      cases h
      exact .partialSig sig hnew

theorem revealedLeaf_leafHash {leaf : TapLeafScript} {revealed : RevealedLeaf}
    (h : revealedLeaf P input leaf scriptPubkey = .ok revealed) :
    revealed.leafHash = tapscriptLeafHash P leaf.scriptWithVersion.dropLast := by
  obtain ⟨-, h⟩ := reject_bind_eq_ok.mp h
  obtain ⟨parts, hparts, h⟩ := bind_eq_ok.mp h
  obtain ⟨-, hparts⟩ := reject_bind_eq_ok.mp hparts
  obtain ⟨quorum, -, hparts⟩ := bind_eq_ok.mp hparts
  cases hparts
  obtain ⟨outputKey, -, h⟩ := bind_eq_ok.mp h
  obtain ⟨-, h⟩ := reject_bind_eq_ok.mp h
  obtain ⟨-, h⟩ := reject_bind_eq_ok.mp h
  cases h
  rfl

theorem signP2trScriptpath_own {leaf : TapLeafScript} (hhead : input.tapLeafScripts.head? = some leaf)
    (h : signP2trScriptpath P psbt index input leaf scriptPubkey privkey = .ok o) (ho : Adds o) :
    OwnEntry P input privkey o := by
  obtain ⟨revealed, hleaf, h⟩ := bind_eq_ok.mp h
  rcases ite_eq_ok.mp h with ⟨-, h⟩ | ⟨-, h⟩
  · cases h
    exact ho.elim
  · obtain ⟨_, -, h⟩ := bind_eq_ok.mp h
    obtain ⟨_, -, h⟩ := bind_eq_ok.mp h
    rw [revealedLeaf_leafHash hleaf] at h
    rcases ite_eq_ok.mp h with ⟨-, h⟩ | ⟨hnew, h⟩
    · cases h
      exact ho.elim
    · cases hspend : spendContext psbt with
      | none =>
        rw [hspend] at h
        cases h
        exact ho.elim
      | some spend =>
        rw [hspend] at h
        obtain ⟨sighash, -, h⟩ := bind_eq_ok.mp h
        cases h
        exact .tapScriptSig leaf _ hhead hnew

/-- A signature is filed under the key of the signer. -/
theorem signOutcome_own (h : signOutcome P psbt index privkey = .ok o) (ho : Adds o) :
    ∃ input, psbt.inputs[index]? = some input ∧ OwnEntry P input privkey o := by
  obtain ⟨input, scriptPubkey, amount, hin, hutxo, -⟩ := signOutcome_adds h ho
  rw [signOutcome_of_utxo hin hutxo] at h
  refine ⟨input, hin, ?_⟩
  unfold signBranch at h
  split at h
  · exact signMultisig_own h ho
  · split at h
    · exact signMultisig_own h ho
    · split at h
      · next hleaves => exact signP2trScriptpath_own (by rw [hleaves]; rfl) h ho
      · exact signKey_own h ho

end Own

/-- The input with one entry more. Every other field is as it was. -/
inductive Gains (P : Primitives) (privkey : P.PrivateKey) (input : PsbtIn) : PsbtIn → Prop
  | partialSig (before after : List (Bytes × Bytes)) (sig : Bytes)
    (hsigs : input.partialSigs = before ++ after)
    (hnew : privkey2pubkey P privkey ∉ input.partialSigs.map Prod.fst) :
    Gains P privkey input
      { input with partialSigs := before ++ (privkey2pubkey P privkey, sig) :: after }
  | tapScriptSig (before after : List TapScriptSig) (leaf : TapLeafScript) (sig : Bytes)
    (hsigs : input.tapScriptSigs = before ++ after) (hleaf : input.tapLeafScripts.head? = some leaf)
    (hnew : ¬ ∃ s ∈ input.tapScriptSigs, s.xOnly = slice (privkey2pubkey P privkey) 1 33 ∧
      s.leafHash = tapscriptLeafHash P leaf.scriptWithVersion.dropLast) :
    Gains P privkey input
      { input with
        tapScriptSigs := before ++ ⟨slice (privkey2pubkey P privkey) 1 33,
          tapscriptLeafHash P leaf.scriptWithVersion.dropLast, sig⟩ :: after }

theorem gains_of_own {input : PsbtIn} {privkey : P.PrivateKey} {o : SignOutcome}
    (h : OwnEntry P input privkey o) : Gains P privkey input (addOutcome input o) := by
  cases h with
  | partialSig sig hnew =>
    exact .partialSig _ _ sig List.takeWhile_append_dropWhile.symm hnew
  | tapScriptSig leaf sig hleaf hnew =>
    exact .tapScriptSig _ _ leaf sig List.takeWhile_append_dropWhile.symm hleaf hnew

theorem ordered_of_own {input : PsbtIn} {privkey : P.PrivateKey} {o : SignOutcome}
    (h : OwnEntry P input privkey o) :
    (OrderedSigs input.partialSigs → OrderedSigs (addOutcome input o).partialSigs) ∧
      (OrderedTapSigs input.tapScriptSigs → OrderedTapSigs (addOutcome input o).tapScriptSigs) := by
  cases h with
  | partialSig sig hnew => exact ⟨insertPartialSig_ordered hnew, id⟩
  | tapScriptSig leaf sig hleaf hnew => exact ⟨id, insertTapScriptSig_ordered hnew⟩

/-- The PSBT with one input that has gained an entry of the key, its lists as ordered as before. -/
def SignedInput (P : Primitives) (privkey : P.PrivateKey) (index : Nat) (psbt psbt' : Psbt) : Prop :=
  ∃ input input', psbt.inputs[index]? = some input ∧
    psbt' = Psbt.modifyInput psbt index (fun _ => input') ∧ Gains P privkey input input' ∧
    (OrderedSigs input.partialSigs → OrderedSigs input'.partialSigs) ∧
    (OrderedTapSigs input.tapScriptSigs → OrderedTapSigs input'.tapScriptSigs)

theorem modifyInput_const {psbt : Psbt} {index : Nat} {input : PsbtIn}
    (hin : psbt.inputs[index]? = some input) (f : PsbtIn → PsbtIn) :
    Psbt.modifyInput psbt index f = Psbt.modifyInput psbt index fun _ => f input := by
  refine congrArg (fun inputs => { psbt with inputs := inputs }) ?_
  apply List.ext_getElem?
  intro k
  rw [List.getElem?_modify, List.getElem?_modify]
  by_cases hk : index = k
  · subst hk
    rw [hin]
    rfl
  · simp only [hk, if_false]

/-- A call of the signer fails and changes nothing, or succeeds, adds at most its own entry to its
own input, and finds that entry in place when it is repeated. -/
theorem signPsbtInput_frame (psbt : Psbt) (index : Nat) (privkey : P.PrivateKey) :
    (∃ e, signPsbtInput P index privkey psbt = .error e psbt) ∨
      ∃ b psbt', signPsbtInput P index privkey psbt = .ok b psbt' ∧
        (psbt' = psbt ∨ SignedInput P privkey index psbt psbt') ∧
        signPsbtInput P index privkey psbt' = .ok b psbt' := by
  cases ho : signOutcome P psbt index privkey with
  | error e => exact .inl ⟨e, signPsbtInput_error ho⟩
  | ok o =>
    right
    have hcall := signPsbtInput_ok ho
    by_cases hadds : Adds o
    · have hagain := signPsbtInput_ok (signOutcome_present ho hadds)
      obtain ⟨input, hin, hown⟩ := signOutcome_own ho hadds
      have hskip : o ≠ .skip := by
        rintro rfl
        exact hadds
      rw [decide_eq_true hskip] at hcall
      refine ⟨true, _, hcall, .inr ⟨input, addOutcome input o, hin, ?_, gains_of_own hown,
        ordered_of_own hown⟩, hagain⟩
      rw [applyOutcome_eq]
      exact modifyInput_const hin fun input => addOutcome input o
    · have hsame : applyOutcome psbt index o = psbt := by
        cases o with
        | skip => rfl
        | present => rfl
        | partialSig pubkey sig => exact absurd trivial hadds
        | tapScriptSig entry => exact absurd trivial hadds
      rw [hsame] at hcall
      exact ⟨_, psbt, hcall, .inl rfl, hcall⟩

end Yubtc.SigningFrame
