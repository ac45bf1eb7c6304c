import Yubtc.Confluence
import Yubtc.Wallet
import Yubtc.Lib.StateRules

/-!
# The walk of the signer

A wallet without a map from outputs to keys tries every key it can derive on every input. An input
is marked as soon as one key has signed it, and no later key is tried there.
-/
namespace Yubtc.SignWalk

open Wire Errors ExceptRules Crypto Script Transaction PsbtData PsbtCodec PsbtRoles Signer
  QuorumSigning
open Wallet (AddrType addrTypes)

section Walk

variable (P : Primitives)

/-- One pass of the loop over inputs. A pinned sighash of another form leaves the input unsigned,
every other error ends the walk. -/
def signWalkInput (key : P.PrivateKey) (signed : List Bool) (i : Nat) : Role (List Bool) :=
  fun psbt =>
    if signed.getD i false then .ok signed psbt
    else
      match signPsbtInput P i key psbt with
      | .ok true psbt => .ok (signed.set i true) psbt
      | .ok false psbt => .ok signed psbt
      | .error (.psbt (.unsupportedSighashType _)) psbt => .ok signed psbt
      | .error e psbt => .error e psbt

/-- The loop over address forms: derive the key, and try it on every input. -/
def signWalkForm (derive : Nat → AddrType → Except Exn P.PrivateKey) (nInputs nonce : Nat)
    (signed : List Bool) (form : AddrType) : Role (List Bool) := do
  let key ← checked (derive nonce form)
  (List.range nInputs).foldlM (signWalkInput P key) signed

/-- The loop over nonces, with what is left of its bound. -/
def signWalk (derive : Nat → AddrType → Except Exn P.PrivateKey) (nInputs : Nat) :
    Nat → Nat → List Bool → Role (List Bool)
  | 0, _, signed => return signed
  | left + 1, nonce, signed =>
    if signed.all id then return signed
    else do
      let signed ← addrTypes.foldlM (signWalkForm P derive nInputs nonce) signed
      signWalk derive nInputs left (nonce + 1) signed

def psbtSignMaxNonce : Nat := 1000

/-- Sign what the derived keys can sign, and return the indices of the rest. The derivation stands
for a seed, a passphrase and a KDF. -/
def signPsbt (derive : Nat → AddrType → Except Exn P.PrivateKey) : Role (List Nat) := do
  let psbt ← get
  let nInputs := psbt.inputs.length
  let signed ← signWalk P derive nInputs psbtSignMaxNonce 0 (List.replicate nInputs false)
  return (List.range nInputs).filter fun i => ¬ signed.getD i false

end Walk

theorem checked_eq_ok {α : Type} {x : Except Exn α} {psbt s : Psbt} {a : α} :
    checked x psbt = .ok a s ↔ x = .ok a ∧ psbt = s := by
  cases x <;> simp [checked]

theorem checked_eq_error {α : Type} {x : Except Exn α} {psbt s : Psbt} {e : Exn} :
    checked x psbt = .error e s ↔ x = .error e ∧ psbt = s := by
  cases x <;> simp [checked]

variable {P : Primitives}

variable (P) in
/-- The branches of the signer for an input and the output it spends. -/
def signBranch (psbt : Psbt) (i : Nat) (input : PsbtIn) (scriptPubkey : Bytes) (amount : UInt64)
    (key : P.PrivateKey) : Except Exn SignOutcome :=
  if isP2wshScript scriptPubkey then signP2wshMultisig P psbt i input scriptPubkey amount key
  else if isP2shScript scriptPubkey then signP2shMultisig P psbt i input scriptPubkey key
  else
    match isP2trScript scriptPubkey, input.tapLeafScripts with
    | true, leaf :: _ => signP2trScriptpath P psbt i input leaf scriptPubkey key
    | _, _ => signKey P psbt i input scriptPubkey amount key

theorem signOutcome_of_utxo {psbt : Psbt} {i : Nat} {input : PsbtIn} {scriptPubkey : Bytes}
    {amount : UInt64} (hin : psbt.inputs[i]? = some input)
    (hutxo : inputUtxoData psbt i = some (scriptPubkey, amount)) (key : P.PrivateKey) :
    signOutcome P psbt i key = signBranch P psbt i input scriptPubkey amount key := by
  simp only [signOutcome, hin, hutxo]
  rfl

theorem inputUtxoData_eq_none {psbt : Psbt} {i : Nat} (h : psbt.inputs[i]? = none) :
    inputUtxoData psbt i = none := by
  simp only [inputUtxoData, h]

theorem signOutcome_of_none {psbt : Psbt} {i : Nat} (h : inputUtxoData psbt i = none)
    (key : P.PrivateKey) : signOutcome P psbt i key = .ok .skip := by
  simp only [signOutcome, h]
  cases psbt.inputs[i]? <;> rfl

section Congr

variable {psbt psbt' : Psbt} (hstrip : stripPsbt psbt' = stripPsbt psbt)

include hstrip

theorem inputUtxoData_congr (i : Nat) : inputUtxoData psbt' i = inputUtxoData psbt i := by
  rw [← inputUtxoData_strip, hstrip, inputUtxoData_strip]

/-- The branches read nothing of the other inputs' signatures. -/
theorem signBranch_congr (i : Nat) (input : PsbtIn) (scriptPubkey : Bytes) (amount : UInt64)
    (key : P.PrivateKey) :
    signBranch P psbt' i input scriptPubkey amount key =
      signBranch P psbt i input scriptPubkey amount key := by
  have htx : (stripPsbt psbt').unsignedTx = (stripPsbt psbt).unsignedTx := by rw [hstrip]
  replace htx : psbt'.unsignedTx = psbt.unsignedTx := htx
  have hspend : spendContext psbt' = spendContext psbt := by
    rw [← spendContext_strip, hstrip, spendContext_strip]
  have hp2sh : p2shSignature P psbt' i key = p2shSignature P psbt i key := by
    funext redeem
    rw [p2shSignature, p2shSignature, htx]
  have hp2wsh : p2wshSignature P psbt' i amount key = p2wshSignature P psbt i amount key := by
    funext redeem
    rw [p2wshSignature, p2wshSignature, htx]
  have hcheck : checkNonWitnessUtxo P psbt' i input = checkNonWitnessUtxo P psbt i input := by
    simp only [checkNonWitnessUtxo, htx]
  have hkey : ∀ form, keySignature P psbt' i scriptPubkey amount form key =
      keySignature P psbt i scriptPubkey amount form key := by
    intro form
    simp only [keySignature, htx, hspend]
  simp only [signBranch, signP2wshMultisig, signP2shMultisig, signMultisig, signP2trScriptpath,
    signKey, hspend, hp2sh, hp2wsh, hcheck, hkey, htx]

/-- Another PSBT that differs in signatures elsewhere is signed the same way. -/
theorem signOutcome_congr {i : Nat} (hin : psbt'.inputs[i]? = psbt.inputs[i]?)
    (key : P.PrivateKey) : signOutcome P psbt' i key = signOutcome P psbt i key := by
  cases hutxo : inputUtxoData psbt i with
  | none =>
    rw [signOutcome_of_none hutxo,
      signOutcome_of_none ((inputUtxoData_congr hstrip i).trans hutxo)]
  | some utxo =>
    cases h : psbt.inputs[i]? with
    | none => rw [inputUtxoData_eq_none h] at hutxo; cases hutxo
    | some input =>
      rw [signOutcome_of_utxo h hutxo, signOutcome_of_utxo (hin.trans h)
        ((inputUtxoData_congr hstrip i).trans hutxo), signBranch_congr hstrip]

end Congr

/-- What a signature adds to its input. -/
def addOutcome (input : PsbtIn) : SignOutcome → PsbtIn
  | .skip | .present => input
  | .partialSig pubkey sig => insertPartialSig input pubkey sig
  | .tapScriptSig entry => insertTapScriptSig input entry

theorem applyOutcome_eq (psbt : Psbt) (i : Nat) (o : SignOutcome) :
    applyOutcome psbt i o = Psbt.modifyInput psbt i fun input => addOutcome input o := by
  cases o with
  | skip => exact congrArg (fun inputs => { psbt with inputs := inputs }) (List.modify_id i _).symm
  | present => exact congrArg (fun inputs => { psbt with inputs := inputs }) (List.modify_id i _).symm
  | partialSig pubkey sig => rfl
  | tapScriptSig entry => rfl

theorem strip_addOutcome (input : PsbtIn) (o : SignOutcome) :
    strip (addOutcome input o) = strip input := by
  cases o <;> rfl

variable (P) in
/-- How a key signs an input, if it can. -/
def outcomeAt (psbt : Psbt) (i : Nat) (key : P.PrivateKey) : Option SignOutcome :=
  match signOutcome P psbt i key with
  | .ok .skip => none
  | .ok o => some o
  | .error _ => none

variable (P) in
/-- How the first key that can sign an input signs it. -/
def firstOutcome (psbt : Psbt) (keys : List P.PrivateKey) (i : Nat) : Option SignOutcome :=
  keys.findSome? (outcomeAt P psbt i)

variable (P) in
/-- The PSBT after some keys have been tried on each input. -/
def walked (psbt : Psbt) (keys : Nat → List P.PrivateKey) : Psbt :=
  { psbt with
    inputs := psbt.inputs.mapIdx fun i input =>
      (firstOutcome P psbt (keys i) i).elim input (addOutcome input) }

variable (P) in
/-- The marks after some keys have been tried on each input. -/
def marks (psbt : Psbt) (keys : Nat → List P.PrivateKey) : List Bool :=
  (List.range psbt.inputs.length).map fun i => (firstOutcome P psbt (keys i) i).isSome

/-- The next key is tried on input `j`. -/
def tried (keys : Nat → List P.PrivateKey) (j : Nat) (key : P.PrivateKey) (i : Nat) :
    List P.PrivateKey :=
  if i = j then keys i ++ [key] else keys i

section Tried

variable {psbt : Psbt} {keys : Nat → List P.PrivateKey} {key : P.PrivateKey} {i j : Nat}

theorem firstOutcome_append (keys : List P.PrivateKey) (key : P.PrivateKey) :
    firstOutcome P psbt (keys ++ [key]) i = (firstOutcome P psbt keys i).or (outcomeAt P psbt i key) := by
  simp only [firstOutcome, List.findSome?_append, List.findSome?_singleton]

theorem marks_getD (h : j < psbt.inputs.length) :
    (marks P psbt keys).getD j false = (firstOutcome P psbt (keys j) j).isSome := by
  simp [marks, h]

theorem walked_strip : stripPsbt (walked P psbt keys) = stripPsbt psbt := by
  have hinputs : (walked P psbt keys).inputs.map strip = psbt.inputs.map strip := by
    apply List.ext_getElem (by simp [walked])
    intro k hk hk'
    simp only [walked, List.getElem_map, List.getElem_mapIdx]
    cases firstOutcome P psbt (keys k) k with
    | none => rfl
    | some o => exact strip_addOutcome _ o
  rw [stripPsbt, hinputs]
  rfl

/-- Where no key could sign, a key finds the input it would have found at the start. -/
theorem walked_outcome (hnone : firstOutcome P psbt (keys j) j = none) (key : P.PrivateKey) :
    signOutcome P (walked P psbt keys) j key = signOutcome P psbt j key := by
  apply signOutcome_congr walked_strip
  rw [walked, List.getElem?_mapIdx, hnone]
  cases psbt.inputs[j]? <;> rfl

/-- A key that does not change the first outcome leaves the marks and the PSBT. -/
theorem tried_same (h : firstOutcome P psbt (keys j ++ [key]) j = firstOutcome P psbt (keys j) j) :
    marks P psbt (tried keys j key) = marks P psbt keys ∧
      walked P psbt (tried keys j key) = walked P psbt keys := by
  have hsame : ∀ i, firstOutcome P psbt (tried keys j key i) i = firstOutcome P psbt (keys i) i := by
    intro i
    unfold tried
    split
    · next hij => rw [hij, h]
    · rfl
  simp only [marks, walked, hsame, and_self]

/-- A key that signs first is marked, and its signature is added. -/
theorem tried_first {o : SignOutcome} (hnone : firstOutcome P psbt (keys j) j = none)
    (ho : outcomeAt P psbt j key = some o) (hj : j < psbt.inputs.length) :
    marks P psbt (tried keys j key) = (marks P psbt keys).set j true ∧
      walked P psbt (tried keys j key) = applyOutcome (walked P psbt keys) j o := by
  have hfirst : firstOutcome P psbt (keys j ++ [key]) j = some o := by
    rw [firstOutcome_append, hnone, ho, Option.none_or]
  constructor
  · apply List.ext_getElem (by simp [marks])
    intro k hk hk'
    simp only [marks, List.getElem_map, List.getElem_range, List.getElem_set, tried]
    by_cases hkj : k = j
    · subst hkj
      rw [if_pos rfl, if_pos rfl, hfirst, Option.isSome_some]
    · rw [if_neg hkj, if_neg (Ne.symm hkj)]
  · rw [applyOutcome_eq, Psbt.modifyInput]
    refine congrArg (fun inputs => { psbt with inputs := inputs }) ?_
    apply List.ext_getElem (by simp [walked])
    intro k hk hk'
    simp only [walked, List.getElem_mapIdx, List.getElem_modify, tried]
    by_cases hkj : k = j
    · subst hkj
      rw [if_pos rfl, if_pos rfl, hfirst, hnone]
      rfl
    · rw [if_neg hkj, if_neg (Ne.symm hkj)]

end Tried

/-- The error the walk passes over. -/
def PinnedElsewhere (e : Exn) : Prop := ∃ t, e = .psbt (.unsupportedSighashType t)

section Loops

variable {psbt : Psbt} {keys : Nat → List P.PrivateKey} {key : P.PrivateKey} {j : Nat}

/-- A pass tries the key on one input, or stops with the error of the signer. -/
theorem signWalkInput_spec (hj : j < psbt.inputs.length) :
    signWalkInput P key (marks P psbt keys) j (walked P psbt keys) =
        .ok (marks P psbt (tried keys j key)) (walked P psbt (tried keys j key)) ∨
      ∃ e, signWalkInput P key (marks P psbt keys) j (walked P psbt keys) =
          .error e (walked P psbt keys) ∧
        signOutcome P psbt j key = .error e ∧ ¬ PinnedElsewhere e := by
  cases hfirst : firstOutcome P psbt (keys j) j with
  | some o =>
    left
    obtain ⟨hmarks, hwalked⟩ := @tried_same P psbt keys key j
      (by rw [firstOutcome_append, hfirst, Option.some_or])
    rw [hmarks, hwalked, signWalkInput, if_pos (by rw [marks_getD hj, hfirst, Option.isSome_some])]
  | none =>
    have hmark : ¬ (marks P psbt keys).getD j false = true := by
      rw [marks_getD hj, hfirst]
      exact Bool.false_ne_true
    have houtcome := @walked_outcome P psbt keys j hfirst key
    have hsame : outcomeAt P psbt j key = none →
        marks P psbt (tried keys j key) = marks P psbt keys ∧
          walked P psbt (tried keys j key) = walked P psbt keys := fun hnone =>
      tried_same (by rw [firstOutcome_append, hfirst, hnone, Option.none_or])
    cases ho : signOutcome P psbt j key with
    | error e =>
      have hcall := signPsbtInput_error (houtcome.trans ho)
      obtain ⟨hmarks, hwalked⟩ := hsame (by rw [outcomeAt, ho])
      by_cases hpinned : PinnedElsewhere e
      · left
        obtain ⟨t, rfl⟩ := hpinned
        rw [hmarks, hwalked, signWalkInput, if_neg hmark, hcall]
      · right
        refine ⟨e, ?_, rfl, hpinned⟩
        rw [signWalkInput, if_neg hmark, hcall]
        split
        · next h => cases h
        · next h => cases h
        · next h =>
          cases h
          exact absurd ⟨_, rfl⟩ hpinned
        · next h =>
          cases h
          rfl
    | ok o =>
      left
      have hcall := signPsbtInput_ok (houtcome.trans ho)
      by_cases hskip : o = .skip
      · subst hskip
        obtain ⟨hmarks, hwalked⟩ := hsame (by rw [outcomeAt, ho])
        rw [hmarks, hwalked, signWalkInput, if_neg hmark, hcall]
        rfl
      · have hsome : outcomeAt P psbt j key = some o := by
          rw [outcomeAt, ho]
          cases o with
          | skip => exact absurd rfl hskip
          | present => rfl
          | partialSig pubkey sig => rfl
          | tapScriptSig entry => rfl
        obtain ⟨hmarks, hwalked⟩ := tried_first hfirst hsome hj
        rw [hmarks, hwalked, signWalkInput, if_neg hmark, hcall, decide_eq_true hskip]

/-- The element at which a range is split. -/
theorem range_split {n a : Nat} {done rest : List Nat} (h : done ++ a :: rest = List.range n) :
    a = done.length ∧ done.length < n := by
  have hlen := congrArg List.length h
  have hget := congrArg (fun l : List Nat => l[done.length]?) h
  simp only [List.length_append, List.length_cons, List.length_range] at hlen
  simp only [List.getElem?_append_right (le_refl done.length), Nat.sub_self,
    List.getElem?_cons_zero, List.getElem?_range (show done.length < n by omega),
    Option.some.injEq] at hget
  exact ⟨hget, by omega⟩

/-- The keys tried on each input when the loop stands at input `m`. -/
def triedTo (keys : List P.PrivateKey) (key : P.PrivateKey) (m i : Nat) : List P.PrivateKey :=
  if i < m then keys ++ [key] else keys

theorem tried_triedTo (keys : List P.PrivateKey) (key : P.PrivateKey) (m : Nat) :
    tried (triedTo keys key m) m key = triedTo keys key (m + 1) := by
  funext i
  unfold tried triedTo
  by_cases him : i = m
  · rw [if_pos him, if_neg (by omega), if_pos (by omega)]
  · rw [if_neg him]
    exact if_congr (by omega) rfl rfl

/-- Marks and PSBT are those of the keys tried so far. -/
def Stands (psbt : Psbt) (keys : Nat → List P.PrivateKey) (signed : List Bool) (psbt' : Psbt) :
    Prop :=
  signed = marks P psbt keys ∧ psbt' = walked P psbt keys

theorem stands_congr {keys keys' : Nat → List P.PrivateKey}
    (h : ∀ i < psbt.inputs.length, firstOutcome P psbt (keys i) i = firstOutcome P psbt (keys' i) i)
    {signed : List Bool} {psbt' : Psbt} (hs : Stands psbt keys signed psbt') :
    Stands psbt keys' signed psbt' := by
  obtain ⟨rfl, rfl⟩ := hs
  constructor
  · exact List.map_congr_left fun i hi => by rw [h i (List.mem_range.mp hi)]
  · refine congrArg (fun inputs => { psbt with inputs := inputs }) ?_
    apply List.ext_getElem (by simp)
    intro k hk hk'
    rw [List.length_mapIdx] at hk
    simp only [List.getElem_mapIdx, h k hk]

/-- A pass goes on to the next input. -/
theorem signWalkInput_step {keys : List P.PrivateKey} {done rest : List Nat} {a : Nat}
    {signed signed' : List Bool} {s s' : Psbt}
    (hl : done ++ a :: rest = List.range psbt.inputs.length)
    (hs : Stands psbt (triedTo keys key done.length) signed s)
    (h : signWalkInput P key signed a s = .ok signed' s') :
    Stands psbt (triedTo keys key (done ++ [a]).length) signed' s' := by
  obtain ⟨rfl, ha⟩ := range_split hl
  obtain ⟨rfl, rfl⟩ := hs
  rw [List.length_append, List.length_singleton, ← tried_triedTo]
  rcases signWalkInput_spec ha with hok | ⟨e, herror, -⟩
  · rw [hok] at h
    cases h
    exact ⟨rfl, rfl⟩
  · rw [herror] at h
    cases h

theorem stands_start {keys : List P.PrivateKey} {signed : List Bool} {s : Psbt} :
    Stands psbt (fun _ => keys) signed s → Stands psbt (triedTo keys key 0) signed s :=
  stands_congr fun i _ => by rw [triedTo, if_neg (Nat.not_lt_zero i)]

/-- The loop over inputs tries the key on each of them. -/
theorem signWalkInputs_ok {keys : List P.PrivateKey} {signed signed' : List Bool} {s s' : Psbt}
    (hs : Stands psbt (fun _ => keys) signed s)
    (h : (List.range psbt.inputs.length).foldlM (signWalkInput P key) signed s = .ok signed' s') :
    Stands psbt (fun _ => keys ++ [key]) signed' s' := by
  have hend := StateRules.foldlM_ok
    (motive := fun done signed s => Stands psbt (triedTo keys key done.length) signed s)
    (stands_start hs) (fun done a rest _ _ _ _ hl hs h => signWalkInput_step hl hs h) h
  rw [List.length_range] at hend
  exact stands_congr (fun i hi => by rw [triedTo, if_pos hi]) hend

theorem signWalkInputs_error {keys : List P.PrivateKey} {signed : List Bool} {s s' : Psbt} {e : Exn}
    (hs : Stands psbt (fun _ => keys) signed s)
    (h : (List.range psbt.inputs.length).foldlM (signWalkInput P key) signed s = .error e s') :
    ∃ j, signOutcome P psbt j key = .error e ∧ ¬ PinnedElsewhere e := by
  obtain ⟨done, a, rest, signed, t, hl, ht, h⟩ := StateRules.foldlM_error
    (motive := fun done signed s => Stands psbt (triedTo keys key done.length) signed s)
    (stands_start hs) (fun done a rest _ _ _ _ hl hs h => signWalkInput_step hl hs h) h
  obtain ⟨rfl, ha⟩ := range_split hl
  obtain ⟨rfl, rfl⟩ := ht
  rcases signWalkInput_spec ha with hok | ⟨d, herror, hout, hpinned⟩
  · rw [hok] at h
    cases h
  · rw [herror] at h
    cases h
    exact ⟨_, hout, hpinned⟩

variable {derive : Nat → AddrType → Except Exn P.PrivateKey}

/-- The keys of some nonces, in the order of the walk. -/
def walletKeys (derive : Nat → AddrType → Except Exn P.PrivateKey) (nonce count : Nat) :
    List P.PrivateKey :=
  (List.range' nonce count).flatMap fun nonce => addrTypes.filterMap fun form =>
    (derive nonce form).toOption

/-- A derivation or a call of the signer fails with this error. -/
def Fails (psbt : Psbt) (derive : Nat → AddrType → Except Exn P.PrivateKey) (nonce : Nat)
    (e : Exn) : Prop :=
  ∃ form, derive nonce form = .error e ∨
    ∃ key j, derive nonce form = .ok key ∧ signOutcome P psbt j key = .error e ∧ ¬ PinnedElsewhere e

/-- The loop over forms, up to some form. -/
theorem signWalkForm_step {keys : List P.PrivateKey} {nonce : Nat} {done : List AddrType}
    {form : AddrType} {signed signed' : List Bool} {s s' : Psbt}
    (hs : Stands psbt
      (fun _ => keys ++ done.filterMap fun form => (derive nonce form).toOption) signed s)
    (h : signWalkForm P derive psbt.inputs.length nonce signed form s = .ok signed' s') :
    Stands psbt
      (fun _ => keys ++ (done ++ [form]).filterMap fun form => (derive nonce form).toOption)
      signed' s' := by
  obtain ⟨key, t, hkey, h⟩ := StateRules.bind_eq_ok.mp h
  obtain ⟨hderive, rfl⟩ := checked_eq_ok.mp hkey
  have hnext := signWalkInputs_ok hs h
  have hone : [form].filterMap (fun form => (derive nonce form).toOption) = [key] := by
    simp [hderive, Except.toOption]
  rwa [List.filterMap_append, hone, ← List.append_assoc]

theorem signWalkForms_ok {keys : List P.PrivateKey} {nonce : Nat} {signed signed' : List Bool}
    {s s' : Psbt} (hs : Stands psbt (fun _ => keys) signed s)
    (h : addrTypes.foldlM (signWalkForm P derive psbt.inputs.length nonce) signed s =
      .ok signed' s') :
    Stands psbt (fun _ => keys ++ addrTypes.filterMap fun form => (derive nonce form).toOption)
      signed' s' :=
  StateRules.foldlM_ok
    (motive := fun done signed s => Stands psbt
      (fun _ => keys ++ done.filterMap fun form => (derive nonce form).toOption) signed s)
    (by simpa using hs) (fun _ _ _ _ _ _ _ _ hs h => signWalkForm_step hs h) h

theorem signWalkForms_error {keys : List P.PrivateKey} {nonce : Nat} {signed : List Bool}
    {s s' : Psbt} {e : Exn} (hs : Stands psbt (fun _ => keys) signed s)
    (h : addrTypes.foldlM (signWalkForm P derive psbt.inputs.length nonce) signed s = .error e s') :
    Fails psbt derive nonce e := by
  obtain ⟨done, form, rest, signed, t, -, ht, h⟩ := StateRules.foldlM_error
    (motive := fun done signed s => Stands psbt
      (fun _ => keys ++ done.filterMap fun form => (derive nonce form).toOption) signed s)
    (by simpa using hs) (fun _ _ _ _ _ _ _ _ hs h => signWalkForm_step hs h) h
  refine ⟨form, ?_⟩
  rcases StateRules.bind_eq_error.mp h with h | ⟨key, u, hkey, h⟩
  · exact .inl (checked_eq_error.mp h).1
  · obtain ⟨hderive, rfl⟩ := checked_eq_ok.mp hkey
    obtain ⟨j, hout, hpinned⟩ := signWalkInputs_error ht h
    exact .inr ⟨key, j, hderive, hout, hpinned⟩

/-- When every input is marked, no further key has anything to sign. -/
theorem stands_complete {keys more : List P.PrivateKey} {signed : List Bool} {s : Psbt}
    (hs : Stands psbt (fun _ => keys) signed s) (hall : signed.all id = true) :
    Stands psbt (fun _ => keys ++ more) signed s := by
  apply stands_congr _ hs
  intro i hi
  obtain ⟨rfl, -⟩ := hs
  have hsome : (firstOutcome P psbt keys i).isSome = true :=
    List.all_eq_true.mp hall _ (List.mem_map_of_mem (List.mem_range.mpr hi))
  obtain ⟨o, ho⟩ := Option.isSome_iff_exists.mp hsome
  have hsplit : firstOutcome P psbt (keys ++ more) i =
      (firstOutcome P psbt keys i).or (firstOutcome P psbt more i) := List.findSome?_append
  rw [hsplit, ho, Option.some_or]

/-- The walk tries every key of its nonces, or ends early with nothing left to sign. -/
theorem signWalk_ok {keys : List P.PrivateKey} {left nonce : Nat} {signed signed' : List Bool}
    {s s' : Psbt} (hs : Stands psbt (fun _ => keys) signed s)
    (h : signWalk P derive psbt.inputs.length left nonce signed s = .ok signed' s') :
    Stands psbt (fun _ => keys ++ walletKeys derive nonce left) signed' s' := by
  induction left generalizing keys nonce signed s with
  | zero =>
    cases h
    rwa [walletKeys, List.range'_zero, List.flatMap_nil, List.append_nil]
  | succ left ih =>
    rw [signWalk] at h
    split at h
    · next hall =>
      cases h
      exact stands_complete hs hall
    · obtain ⟨next, t, hforms, h⟩ := StateRules.bind_eq_ok.mp h
      have hrest := ih (signWalkForms_ok hs hforms) h
      rwa [List.append_assoc] at hrest

theorem signWalk_error {keys : List P.PrivateKey} {left nonce : Nat} {signed : List Bool}
    {s s' : Psbt} {e : Exn} (hs : Stands psbt (fun _ => keys) signed s)
    (h : signWalk P derive psbt.inputs.length left nonce signed s = .error e s') :
    ∃ n, nonce ≤ n ∧ n < nonce + left ∧ Fails psbt derive n e := by
  induction left generalizing keys nonce signed s with
  | zero => cases h
  | succ left ih =>
    rw [signWalk] at h
    split at h
    · cases h
    · rcases StateRules.bind_eq_error.mp h with h | ⟨next, t, hforms, h⟩
      · exact ⟨nonce, le_refl _, by omega, signWalkForms_error hs h⟩
      · obtain ⟨n, hle, hlt, hfails⟩ := ih (signWalkForms_ok hs hforms) h
        exact ⟨n, by omega, by omega, hfails⟩

end Loops

section Present

variable {psbt : Psbt} {i : Nat} {input : PsbtIn} {scriptPubkey : Bytes} {amount : UInt64}
  {key : P.PrivateKey} {o : SignOutcome}

theorem mem_insertPartialSig (input : PsbtIn) (pubkey sig : Bytes) :
    pubkey ∈ (insertPartialSig input pubkey sig).partialSigs.map Prod.fst := by
  simp [insertPartialSig]

theorem mem_insertTapScriptSig (input : PsbtIn) (entry : TapScriptSig) :
    entry ∈ (insertTapScriptSig input entry).tapScriptSigs := by
  simp [insertTapScriptSig]

theorem signKey_present (h : signKey P psbt i input scriptPubkey amount key = .ok o) (ho : Adds o) :
    signKey P psbt i (addOutcome input o) scriptPubkey amount key = .ok .present := by
  obtain ⟨own, hown, h⟩ := bind_eq_ok.mp h
  cases own with
  | none =>
    cases h
    exact ho.elim
  | some form =>
    obtain ⟨_, hsighash, h⟩ := bind_eq_ok.mp h
    obtain ⟨_, hcheck, h⟩ := bind_eq_ok.mp h
    rcases ite_eq_ok.mp h with ⟨-, h⟩ | ⟨-, h⟩
    · cases h
      exact ho.elim
    · obtain ⟨sig, -, h⟩ := bind_eq_ok.mp h
      cases sig with
      | none =>
        cases h
        exact ho.elim
      | some sig =>
        cases h
        refine bind_eq_ok.mpr ⟨some form, hown, bind_eq_ok.mpr ⟨_, hsighash, bind_eq_ok.mpr
          ⟨_, hcheck, ?_⟩⟩⟩
        exact if_pos (mem_insertPartialSig input _ sig)

theorem signMultisig_present {script : Option Bytes} {commitment : Bytes → Bytes}
    {committed : Bytes} {signature : Bytes → Except Exn Bytes}
    (h : signMultisig P script commitment committed signature psbt i input key = .ok o)
    (ho : Adds o) :
    signMultisig P script commitment committed signature psbt i (addOutcome input o) key =
      .ok .present := by
  obtain ⟨redeem, hscript, h⟩ := bind_eq_ok.mp h
  obtain ⟨⟨m, keys⟩, hquorum, h⟩ := bind_eq_ok.mp h
  obtain ⟨hcommit, h⟩ := reject_bind_eq_ok.mp h
  rcases ite_eq_ok.mp h with ⟨-, h⟩ | ⟨hmember, h⟩
  · cases h
    exact ho.elim
  · obtain ⟨_, hsighash, h⟩ := bind_eq_ok.mp h
    obtain ⟨_, hcheck, h⟩ := bind_eq_ok.mp h
    rcases ite_eq_ok.mp h with ⟨-, h⟩ | ⟨-, h⟩
    · cases h
      exact ho.elim
    · obtain ⟨sig, -, h⟩ := bind_eq_ok.mp h
      cases h
      refine bind_eq_ok.mpr ⟨redeem, hscript, bind_eq_ok.mpr ⟨(m, keys), hquorum,
        reject_bind_eq_ok.mpr ⟨hcommit, ?_⟩⟩⟩
      refine (if_neg hmember).trans (bind_eq_ok.mpr ⟨_, hsighash, bind_eq_ok.mpr ⟨_, hcheck, ?_⟩⟩)
      exact if_pos (mem_insertPartialSig input _ sig)

theorem signP2trScriptpath_present {leaf : TapLeafScript}
    (h : signP2trScriptpath P psbt i input leaf scriptPubkey key = .ok o) (ho : Adds o) :
    signP2trScriptpath P psbt i (addOutcome input o) leaf scriptPubkey key = .ok .present := by
  obtain ⟨revealed, hleaf, h⟩ := bind_eq_ok.mp h
  rcases ite_eq_ok.mp h with ⟨-, h⟩ | ⟨hmember, h⟩
  · cases h
    exact ho.elim
  · obtain ⟨_, hsighash, h⟩ := bind_eq_ok.mp h
    obtain ⟨_, hcheck, h⟩ := bind_eq_ok.mp h
    rcases ite_eq_ok.mp h with ⟨-, h⟩ | ⟨-, h⟩
    · cases h
      exact ho.elim
    · cases hspend : spendContext psbt with
      | none =>
        rw [hspend] at h
        cases h
        exact ho.elim
      | some spend =>
        rw [hspend] at h
        obtain ⟨sighash, -, h⟩ := bind_eq_ok.mp h
        cases h
        refine bind_eq_ok.mpr ⟨revealed, hleaf, (if_neg hmember).trans (bind_eq_ok.mpr
          ⟨_, hsighash, bind_eq_ok.mpr ⟨_, hcheck, ?_⟩⟩)⟩
        exact if_pos ⟨_, mem_insertTapScriptSig input _, rfl, rfl⟩

theorem signBranch_present
    (h : signBranch P psbt i input scriptPubkey amount key = .ok o) (ho : Adds o) :
    signBranch P psbt i (addOutcome input o) scriptPubkey amount key = .ok .present := by
  have hsame : (addOutcome input o).redeemScript = input.redeemScript ∧
      (addOutcome input o).witnessScript = input.witnessScript ∧
      (addOutcome input o).tapLeafScripts = input.tapLeafScripts := by
    cases o <;> exact ⟨rfl, rfl, rfl⟩
  obtain ⟨hredeem, hwitness, hleaves⟩ := hsame
  unfold signBranch at h ⊢
  split at h
  · next hp2wsh =>
    rw [if_pos hp2wsh, signP2wshMultisig, hwitness]
    exact signMultisig_present h ho
  · next hp2wsh =>
    rw [if_neg hp2wsh]
    split at h
    · next hp2sh =>
      rw [if_pos hp2sh, signP2shMultisig, hredeem]
      exact signMultisig_present h ho
    · next hp2sh =>
      rw [if_neg hp2sh, hleaves]
      split at h
      · exact signP2trScriptpath_present h ho
      · exact signKey_present h ho

/-- A key whose signature was added finds it in place. -/
theorem signOutcome_present (h : signOutcome P psbt i key = .ok o) (ho : Adds o) :
    signOutcome P (applyOutcome psbt i o) i key = .ok .present := by
  have hstrip := applyOutcome_strip psbt i o
  obtain ⟨input, scriptPubkey, amount, hin, hutxo, -⟩ := signOutcome_adds h ho
  have hin' : (applyOutcome psbt i o).inputs[i]? = some (addOutcome input o) := by
    rw [applyOutcome_eq, Psbt.modifyInput, List.getElem?_modify_eq, hin]
    rfl
  rw [signOutcome_of_utxo hin hutxo] at h
  rw [signOutcome_of_utxo hin' ((inputUtxoData_congr hstrip i).trans hutxo),
    signBranch_congr hstrip]
  exact signBranch_present h ho

end Present

variable (P) in
/-- Whether the signer signs an input with a key, or finds its signature there. -/
def canSign (psbt : Psbt) (i : Nat) (key : P.PrivateKey) : Bool := (outcomeAt P psbt i key).isSome

theorem outcomeAt_eq_some {psbt : Psbt} {i : Nat} {key : P.PrivateKey} {o : SignOutcome}
    (h : outcomeAt P psbt i key = some o) :
    signOutcome P psbt i key = .ok o ∧ (Adds o ∨ o = .present) := by
  cases hout : signOutcome P psbt i key with
  | error e =>
    rw [outcomeAt, hout] at h
    cases h
  | ok o' =>
    rw [outcomeAt, hout] at h
    cases o' with
    | skip => cases h
    | present =>
      cases h
      exact ⟨rfl, .inr rfl⟩
    | partialSig pubkey sig =>
      cases h
      exact ⟨rfl, .inl trivial⟩
    | tapScriptSig entry =>
      cases h
      exact ⟨rfl, .inl trivial⟩

/-- The first key that can sign an input gives its first outcome. -/
theorem firstOutcome_of_find {psbt : Psbt} {i : Nat} {keys : List P.PrivateKey} {key : P.PrivateKey}
    (h : keys.find? (canSign P psbt i) = some key) :
    ∃ o, outcomeAt P psbt i key = some o ∧ firstOutcome P psbt keys i = some o := by
  obtain ⟨hkey, before, after, rfl, hbefore⟩ := List.find?_eq_some_iff_append.mp h
  obtain ⟨o, ho⟩ := Option.isSome_iff_exists.mp hkey
  refine ⟨o, ho, List.findSome?_eq_some_iff.mpr ⟨before, key, after, rfl, ho, ?_⟩⟩
  intro k hk
  have hnot := hbefore k hk
  rwa [Bool.not_eq_true', canSign, Option.isSome_eq_false_iff, Option.isNone_iff_eq_none] at hnot

theorem firstOutcome_isSome {psbt : Psbt} {i : Nat} {keys : List P.PrivateKey} :
    (firstOutcome P psbt keys i).isSome = keys.any (canSign P psbt i) := by
  rw [firstOutcome, List.isSome_findSome?]
  rfl

theorem stands_nil (psbt : Psbt) :
    Stands (P := P) psbt (fun _ => []) (List.replicate psbt.inputs.length false) psbt := by
  constructor
  · apply List.ext_getElem (by simp [marks])
    intro k hk hk'
    simp [marks, firstOutcome]
  · refine congrArg (fun inputs => { psbt with inputs := inputs }) ?_
    apply List.ext_getElem (by simp)
    intro k hk hk'
    simp [firstOutcome]

/-- The first key that can sign an input finds its signature there after the walk. -/
theorem walked_present {psbt : Psbt} {keys : List P.PrivateKey} {i : Nat} {key : P.PrivateKey}
    (h : keys.find? (canSign P psbt i) = some key) :
    signOutcome P (walked P psbt fun _ => keys) i key = .ok .present := by
  obtain ⟨o, ho, hfirst⟩ := firstOutcome_of_find h
  obtain ⟨hout, hkind⟩ := outcomeAt_eq_some ho
  have hstrip : stripPsbt (walked P psbt fun _ => keys) = stripPsbt (applyOutcome psbt i o) := by
    rw [walked_strip, applyOutcome_strip]
  have hin : (walked P psbt fun _ => keys).inputs[i]? = (applyOutcome psbt i o).inputs[i]? := by
    rw [applyOutcome_eq, Psbt.modifyInput, List.getElem?_modify_eq, walked, List.getElem?_mapIdx,
      hfirst]
    rfl
  rw [signOutcome_congr hstrip hin]
  rcases hkind with hadds | rfl
  · exact signOutcome_present hout hadds
  · exact hout

/-- Where the walk ends, every input carries the signature of the first wallet key that can sign
it, nothing else was added, and the inputs that no wallet key can sign are returned. Where it does
not end, a derivation or a call of the signer has failed with an error other than a pinned
sighash. -/
theorem signPsbt_walk (derive : Nat → AddrType → Except Exn P.PrivateKey) (psbt : Psbt) :
    (∀ unsigned psbt', signPsbt P derive psbt = .ok unsigned psbt' →
      (∀ i key, (walletKeys derive 0 psbtSignMaxNonce).find? (canSign P psbt i) = some key →
        signOutcome P psbt' i key = .ok .present) ∧
      psbt' = walked P psbt (fun _ => walletKeys derive 0 psbtSignMaxNonce) ∧
      unsigned = (List.range psbt.inputs.length).filter fun i =>
        ¬ (walletKeys derive 0 psbtSignMaxNonce).any (canSign P psbt i)) ∧
    ∀ e psbt', signPsbt P derive psbt = .error e psbt' →
      ∃ nonce < psbtSignMaxNonce, Fails psbt derive nonce e := by
  constructor
  · intro unsigned psbt' h
    obtain ⟨_, _, hget, h⟩ := StateRules.bind_eq_ok.mp h
    cases hget
    obtain ⟨signed, s, hwalk, h⟩ := StateRules.bind_eq_ok.mp h
    cases h
    obtain ⟨rfl, rfl⟩ := signWalk_ok (stands_nil psbt) hwalk
    refine ⟨fun i key => walked_present, rfl, ?_⟩
    apply List.filter_congr
    intro i hi
    rw [marks_getD (List.mem_range.mp hi), firstOutcome_isSome]
    rfl
  · intro e psbt' h
    rcases StateRules.bind_eq_error.mp h with hget | ⟨_, _, hget, h⟩
    · cases hget
    · cases hget
      rcases StateRules.bind_eq_error.mp h with hwalk | ⟨signed, s, hwalk, h⟩
      · obtain ⟨n, -, hlt, hfails⟩ := signWalk_error (stands_nil psbt) hwalk
        exact ⟨n, (by rwa [Nat.zero_add] at hlt), hfails⟩
      · cases h

/-- What a walk returns, where it ends. -/
def returned : EStateM.Result Exn Psbt (List Nat) → Option (List Nat × Psbt)
  | .ok unsigned psbt => some (unsigned, psbt)
  | .error _ _ => none

theorem returned_eq_some {r : EStateM.Result Exn Psbt (List Nat)} {unsigned : List Nat} {psbt : Psbt}
    (h : returned r = some (unsigned, psbt)) : r = .ok unsigned psbt := by
  cases r with
  | ok u p =>
    cases h
    rfl
  | error e p => cases h

/-- A wallet whose keys are the members of the sample quorum. -/
def sampleDerive (nonce : Nat) (_ : AddrType) : Except Exn standIn.PrivateKey :=
  .ok (Confluence.sampleKey (2 * nonce + 7))

def walkedSample : Psbt := walked standIn Confluence.samplePsbt fun _ => [Confluence.sampleKey 7]

/-- A wallet with several members of a quorum signs the input of the quorum once. -/
theorem second_member_left_out :
    signPsbt standIn sampleDerive Confluence.samplePsbt = .ok [] walkedSample ∧
      sampleDerive 1 .legacy = .ok (Confluence.sampleKey 9) ∧
      canSign standIn Confluence.samplePsbt 0 (Confluence.sampleKey 9) = true ∧
      signOutcome standIn walkedSample 0 (Confluence.sampleKey 9) ≠ .ok .present := by
  refine ⟨returned_eq_some ?_, rfl, ?_, ?_⟩
  · decide +kernel
  · decide +kernel
  · decide +kernel

end Yubtc.SignWalk
