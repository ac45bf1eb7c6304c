import Yubtc.Scan

/-!
# The balance command

The total is counted in satoshi; the figure printed is this number over `10 ^ 8`.
-/
namespace Yubtc.Balance

open Wallet Scan

variable {κ : Type}

/-- One key of the wallet: a key that is skipped or was never paid adds nothing. -/
def addKey (chain : ChainState) (confirmations : Int) (empty : Bool) (total : Nat)
    (key : TPrivKey κ) : Nat :=
  let inAmount := amountOf (key.getUnspent chain confirmations)
  if !empty && inAmount == 0 && !key.isUnused chain then total
  else if key.isUnused chain then total
  else total + inAmount

/-- The `Total` of the balance command. -/
def balanceTotal (chain : ChainState) (confirmations : Int) (empty : Bool)
    (privkeys : List (TPrivKey κ)) : Nat :=
  privkeys.foldl (addKey chain confirmations empty) 0

/-- What the forms `t` of some nonces hold with enough confirmations. -/
def funds (chain : ChainState) (ring : Keyring κ) (confirmations : Int) (nonces : List Nat)
    (t : AddrType) : Nat :=
  (nonces.map fun n => amountOf ((TPrivKey.make ring n t).getUnspent chain confirmations)).sum

/-- What all forms of some nonces hold with enough confirmations. -/
def allFunds (chain : ChainState) (ring : Keyring κ) (confirmations : Int) (nonces : List Nat) :
    Nat :=
  (nonces.map fun n =>
    ((nonceAddressForms ring n).map fun form =>
      amountOf (form.getUnspent chain confirmations)).sum).sum

/-- A key that was never paid holds nothing, so no key is left out. -/
theorem addKey_eq (chain : ChainState) (confirmations : Int) (empty : Bool) (total : Nat)
    (key : TPrivKey κ) :
    addKey chain confirmations empty total key =
      total + amountOf (key.getUnspent chain confirmations) := by
  unfold addKey
  by_cases hunused : key.isUnused chain = true
  · have hnil := chain.unspent_nil key.address (by simpa [TPrivKey.isUnused] using hunused)
    simp [hunused, TPrivKey.getUnspent, hnil, amountOf]
  · simp only [hunused, Bool.not_false, Bool.and_true]
    split
    · simp_all
    · simp

theorem balanceTotal_eq (chain : ChainState) (confirmations : Int) (empty : Bool)
    (privkeys : List (TPrivKey κ)) :
    balanceTotal chain confirmations empty privkeys =
      (privkeys.map fun key => amountOf (key.getUnspent chain confirmations)).sum := by
  have hfold : ∀ total, privkeys.foldl (addKey chain confirmations empty) total = total +
      (privkeys.map fun key => amountOf (key.getUnspent chain confirmations)).sum := by
    induction privkeys with
    | nil => simp
    | cons key keys ih =>
      intro total
      rw [List.foldl_cons, ih, addKey_eq, List.map_cons, List.sum_cons, Nat.add_assoc]
  simp [balanceTotal, hfold]

theorem allFunds_eq (chain : ChainState) (ring : Keyring κ) (confirmations : Int)
    (nonces : List Nat) :
    allFunds chain ring confirmations nonces = funds chain ring confirmations nonces .legacy +
      funds chain ring confirmations nonces .native +
      funds chain ring confirmations nonces .taproot := by
  induction nonces with
  | nil => rfl
  | cons n nonces ih =>
    simp only [allFunds, funds, List.map_cons, List.sum_cons] at ih ⊢
    rw [ih]
    simp only [nonceAddressForms, addrTypes, List.map_cons, List.map_nil, List.sum_cons,
      List.sum_nil]
    omega

/-- The same nonces in another form. -/
def inForm (ring : Keyring κ) (t : AddrType) (keys : List (TPrivKey κ)) : List (TPrivKey κ) :=
  keys.map fun key => TPrivKey.make ring key.nonce t

/-- A walk in one form, round by round beside the same walk in another. -/
theorem run_inForm (chain : ChainState) (ring : Keyring κ) (t t' : AddrType) (fuel : Nat)
    (s walked : WalkState κ) (h : Loop.run (walkRound chain ring t) fuel s = some walked) :
    Loop.run (walkRound chain ring t') fuel ⟨s.nonce, inForm ring t' s.privkeys⟩ =
      some ⟨walked.nonce, inForm ring t' walked.privkeys⟩ := by
  induction fuel generalizing s with
  | zero => simp [Loop.run] at h
  | succ fuel ih =>
    cases hused : nonceIsUsed chain (nonceAddressForms ring s.nonce) with
    | false =>
      simp only [Loop.run, walkRound, hused, Bool.false_eq_true, if_false, Option.some.injEq] at h ⊢
      rw [h]
    | true =>
      simp only [Loop.run, walkRound, hused, if_true] at h ⊢
      have hnext := ih _ h
      simpa [inForm, TPrivKey.make] using hnext

theorem returns_inForm {chain : ChainState} {ring : Keyring κ} {t : AddrType} {nonce : Nat}
    {walked : WalkState κ} (h : Loop.Returns (walkRound chain ring t) ⟨nonce, []⟩ walked)
    (t' : AddrType) :
    Loop.Returns (walkRound chain ring t') ⟨nonce, []⟩
      ⟨walked.nonce, inForm ring t' walked.privkeys⟩ := by
  obtain ⟨fuel, hrun⟩ := h
  exact ⟨fuel, run_inForm chain ring t t' fuel ⟨nonce, []⟩ walked hrun⟩

/-- A wallet opened in another form has the same nonces. -/
theorem opens_inForm {chain : ChainState} {ring : Keyring κ} {t t' : AddrType}
    {nonce newAddresses : Nat} {keys keys' : List (TPrivKey κ)}
    (h : Opens chain ring t nonce newAddresses keys)
    (h' : Opens chain ring t' nonce newAddresses keys') : keys' = inForm ring t' keys := by
  obtain ⟨walked, hwalked, rfl⟩ := h
  obtain ⟨walked', hwalked', rfl⟩ := h'
  rw [hwalked'.unique (returns_inForm hwalked t')]
  simp [inForm, TPrivKey.make]

theorem balanceTotal_inForm (chain : ChainState) (ring : Keyring κ) (confirmations : Int)
    (empty : Bool) (t : AddrType) (keys : List (TPrivKey κ)) :
    balanceTotal chain confirmations empty (inForm ring t keys) =
      funds chain ring confirmations (keys.map TPrivKey.nonce) t := by
  simp [balanceTotal_eq, inForm, funds, Function.comp_def]

/-- Two of three amounts equal each other and the sum of all exactly when the rest is nothing. -/
theorem shown_iff (held : AddrType → Nat) (t t' : AddrType) :
    (held t = held t' ∧ held t = held .legacy + held .native + held .taproot) ↔
      ∀ other, other ≠ t ∨ other ≠ t' → held other = 0 := by
  have hall : ∀ p : AddrType → Prop, (∀ other, p other) ↔ p .legacy ∧ p .native ∧ p .taproot :=
    fun p => ⟨fun h => ⟨h _, h _, h _⟩, fun h other => by cases other <;> simp [h]⟩
  rw [hall]
  cases t <;> cases t' <;> simp <;> omega

/-- The totals of two displayed forms agree, and with the sum over all forms, exactly when the
other forms of each hold no sufficiently confirmed funds on the walked nonces. -/
theorem balance_iff (chain : ChainState) (ring : Keyring κ) (nonce newAddresses : Nat)
    (confirmations : Int) (empty : Bool) (t t' : AddrType) (keys keys' : List (TPrivKey κ))
    (h : Opens chain ring t nonce newAddresses keys)
    (h' : Opens chain ring t' nonce newAddresses keys') :
    (balanceTotal chain confirmations empty keys = balanceTotal chain confirmations empty keys' ∧
        balanceTotal chain confirmations empty keys =
          allFunds chain ring confirmations (keys.map TPrivKey.nonce)) ↔
      ∀ other, other ≠ t ∨ other ≠ t' →
        funds chain ring confirmations (keys.map TPrivKey.nonce) other = 0 := by
  have hown := opens_inForm h h
  have hother := opens_inForm h h'
  rw [hother]
  rw [show balanceTotal chain confirmations empty keys =
    balanceTotal chain confirmations empty (inForm ring t keys) by rw [← hown]]
  rw [balanceTotal_inForm, balanceTotal_inForm, allFunds_eq]
  exact shown_iff _ t t'

/-- A wallet paid on two forms of one nonce shows a different balance in each. -/
theorem balance_sample : ¬∀ (chain : ChainState) (ring : Keyring Nat) (nonce newAddresses : Nat)
    (confirmations : Int) (empty : Bool) (t t' : AddrType) (keys keys' : List (TPrivKey Nat)),
    Opens chain ring t nonce newAddresses keys → Opens chain ring t' nonce newAddresses keys' →
      balanceTotal chain confirmations empty keys = balanceTotal chain confirmations empty keys' ∧
        balanceTotal chain confirmations empty keys =
          allFunds chain ring confirmations (keys.map TPrivKey.nonce) := by
  intro h
  have hopens : ∀ t, Opens sampleChain sampleRing t 0 1
      [TPrivKey.make sampleRing 0 t, TPrivKey.make sampleRing 1 t] := fun t =>
    ⟨⟨1, [TPrivKey.make sampleRing 0 t]⟩, ⟨2, rfl⟩, rfl⟩
  have hsame := (h sampleChain sampleRing 0 1 0 false .native .taproot _ _ (hopens _) (hopens _)).1
  exact absurd hsame (by decide)

theorem balance_iff_sample :
    (balanceTotal sampleChain 1 false
          [TPrivKey.make sampleRing 0 .native, TPrivKey.make sampleRing 1 .native] =
        balanceTotal sampleChain 1 false
          [TPrivKey.make sampleRing 0 .native, TPrivKey.make sampleRing 1 .native] ∧
      balanceTotal sampleChain 1 false
          [TPrivKey.make sampleRing 0 .native, TPrivKey.make sampleRing 1 .native] =
        allFunds sampleChain sampleRing 1 [0, 1]) ↔
      ∀ other, other ≠ AddrType.native ∨ other ≠ AddrType.native →
        funds sampleChain sampleRing 1 [0, 1] other = 0 :=
  balance_iff sampleChain sampleRing 0 1 1 false .native .native _ _
    ⟨⟨1, [TPrivKey.make sampleRing 0 .native]⟩, ⟨2, rfl⟩, rfl⟩
    ⟨⟨1, [TPrivKey.make sampleRing 0 .native]⟩, ⟨2, rfl⟩, rfl⟩

end Yubtc.Balance
