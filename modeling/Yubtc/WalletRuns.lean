import Yubtc.Deposits

/-!
# The life of a wallet

Outputs come in at the addresses of the wallet, and payments spend some of them and send the change
back. Whatever the order, no value is lost between what came in, what was paid and the fees, and
what is left can always be paid out.
-/
namespace Yubtc.WalletRuns

open Wire Errors ExceptRules Crypto Script Transaction Wallet Scan FeeLoop Payment Conservation
  Addresses KeySpends TaprootKeys Deposits

/-- The outputs of the wallet, each with its key, and the totals of what has come in, what was paid
and what was left as fees. -/
structure Ledger (P : Primitives) where
  holds : List (P.PrivateKey × Utxo)
  received : Int
  paid : Int
  fees : Int

def value {κ : Type} (utxos : List (κ × Utxo)) : Nat := (utxos.map fun o => o.2.amount).sum

section

variable (P : Primitives)

def emptyLedger : Ledger P := ⟨[], 0, 0, 0⟩

/-- An output of a transaction, as the chain lists it. -/
def listed (tx : CTransaction) (confirmations : Nat) (out : COut) (n : Nat) : Utxo :=
  ⟨Net.hex (dsha256 P tx.serializeStripped), n, out.amount.toNat, Net.hex out.script, confirmations⟩

/-- The outputs before the payment go back to the key. -/
def changeOf (key : P.PrivateKey) (tx : CTransaction) (confirmations : Nat) :
    List (P.PrivateKey × Utxo) :=
  tx.vout.dropLast.zipIdx.map fun o => (key, listed P tx confirmations o.1 o.2)

/-- Somebody pays to an address of the wallet, or the wallet pays from some of its outputs with
change to an address of one of its keys. -/
inductive Step : Ledger P → Ledger P → Prop
  | receive (ledger : Ledger P) {key : P.PrivateKey} {u : Utxo} (hkey : FromScalar P key)
    (hdeposit : Deposit P key u) :
    Step ledger { ledger with
      holds := (key, u) :: ledger.holds
      received := ledger.received + u.amount }
  | pay (ledger : Ledger P) {sources : List (Source P.PrivateKey)}
    {rest : List (P.PrivateKey × Utxo)} {key : P.PrivateKey} {src dst : String}
    {amount : Option Int} {feekb fee : Int} {result : TxResult} (confirmations : Nat)
    (hselect : ledger.holds.Perm (owned sources ++ rest)) (hkey : FromScalar P key)
    (hsrc : IsAddress P key src) (hfee : 0 ≤ fee) (hrate : 0 ≤ feekb)
    (hmade : MakeTransaction P (lockScript P) sources src dst amount feekb fee (.ok result)) :
    Step ledger
      { holds := rest ++ changeOf P key result.tx confirmations
        received := ledger.received
        paid := ledger.paid + result.amount
        fees := ledger.fees + result.fee }

/-- What a wallet that begins with nothing can come to. -/
def Reaches : Ledger P → Prop := Relation.ReflTransGen (Step P) (emptyLedger P)

/-- Every output can be spent with its key, and the totals agree. -/
structure Sound (ledger : Ledger P) : Prop where
  deposits : ∀ o ∈ ledger.holds, Deposit P o.1 o.2
  keys : ∀ o ∈ ledger.holds, FromScalar P o.1
  conserved : ledger.received = value ledger.holds + ledger.paid + ledger.fees
  paid_nonneg : 0 ≤ ledger.paid
  fees_nonneg : 0 ≤ ledger.fees

end

variable {P : Primitives} {κ : Type}

@[simp] theorem value_nil : value ([] : List (κ × Utxo)) = 0 := rfl

@[simp] theorem value_cons (o : κ × Utxo) (utxos : List (κ × Utxo)) :
    value (o :: utxos) = o.2.amount + value utxos := by
  simp [value]

@[simp] theorem value_append (a b : List (κ × Utxo)) : value (a ++ b) = value a + value b := by
  simp [value]

theorem value_perm {a b : List (κ × Utxo)} (h : a.Perm b) : value a = value b :=
  (h.map _).sum_eq

theorem value_owned (sources : List (Source P.PrivateKey)) :
    value (owned sources) = valueOf sources := by
  induction sources with
  | nil => rfl
  | cons source sources ih =>
    have hrest : owned (source :: sources) =
        (source.2.map fun u => (source.1.privkey, u)) ++ owned sources := rfl
    rw [hrest, value_append, ih]
    simp [value, valueOf, amountOf, Function.comp_def]

/-- What the builder adds up is what the outputs hold. -/
theorem inAmount_eq {sources : List (Source P.PrivateKey)} {inputs : Inputs P}
    (h : makeVin P sources = .ok inputs) : inputs.inAmount = value (owned sources) := by
  rw [makeVin_amount h, value_owned, valueOf, Nat.cast_list_sum, List.map_map]
  rfl

/-- The change of a payment comes back to its key, and what goes in comes out. -/
theorem made_change (hP : P.Lawful) {sources : List (Source P.PrivateKey)} {key : P.PrivateKey}
    {src dst : String} {amount : Option Int} {feekb fee : Int} {result : TxResult}
    (hsrc : IsAddress P key src) (hfee : 0 ≤ fee) (hrate : 0 ≤ feekb)
    (h : MakeTransaction P (lockScript P) sources src dst amount feekb fee (.ok result))
    (confirmations : Nat) :
    (∀ o ∈ changeOf P key result.tx confirmations, o.1 = key ∧ Deposit P o.1 o.2) ∧
      0 ≤ result.amount ∧ 0 ≤ result.fee ∧
      (value (owned sources) : Int) =
        value (changeOf P key result.tx confirmations) + result.amount + result.fee := by
  obtain ⟨inputs, vout, hvin, hbuild, hcashback, hamount, hasks⟩ := made_built h
  have hpaid : 0 ≤ result.fee := by
    unfold Asks at hasks
    split at hasks
    · exact tries_nonneg hrate hasks
    · exact hasks ▸ hfee
  have hconserves := (conserves_build hbuild).mpr hpaid
  obtain ⟨change, payment, hvout, -, hpayment, hchange⟩ := hconserves.outputs
  have hdrop : result.tx.vout.dropLast = change := by
    rw [hvout, List.dropLast_concat]
  have hsum := hconserves.sum
  rw [inAmount_eq hvin, hvout] at hsum
  rw [hamount, ← hpayment]
  have hdeposit : ∀ back ∈ change, lockScript P src = .ok back.script := by
    intro back hback
    rcases hchange with ⟨-, rfl⟩ | ⟨-, back', rfl, hlock, -⟩
    · cases hback
    · rw [List.mem_singleton.mp hback]
      exact hlock
  have hvalue : (value (changeOf P key result.tx confirmations) : Int) = total change := by
    rw [changeOf, hdrop]
    rcases hchange with ⟨-, rfl⟩ | ⟨-, back', rfl, -, -⟩
    · rfl
    · simp [total, listed]
  refine ⟨?_, Int.natCast_nonneg _, hpaid, ?_⟩
  · intro o ho
    obtain ⟨p, hp, rfl⟩ := List.mem_map.mp ho
    rw [hdrop] at hp
    refine ⟨rfl, ⟨⟨src, p.1.script, hsrc, hdeposit p.1 (List.fst_mem_of_mem_zipIdx hp), ?_⟩, ?_, ?_⟩⟩
    · exact QuorumPayment.fromHex_hex _
    · exact ⟨_, QuorumPayment.fromHex_hex _, dsha256_length P hP _⟩
    · have hlt : p.2 < change.length := (List.mem_zipIdx hp).2.1.trans_eq (Nat.zero_add _)
      have hone : change.length ≤ 1 := by
        rcases hchange with ⟨-, rfl⟩ | ⟨-, back', rfl, -, -⟩
        · exact Nat.zero_le _
        · exact le_rfl
      show p.2 ≤ _
      omega
  · rw [hsum, hvalue]
    simp [total]

theorem sound_empty : Sound P (emptyLedger P) where
  deposits _ ho := absurd ho List.not_mem_nil
  keys _ ho := absurd ho List.not_mem_nil
  conserved := rfl
  paid_nonneg := le_rfl
  fees_nonneg := le_rfl

theorem Step.sound (hP : P.Lawful) {ledger next : Ledger P} (hstep : Step P ledger next)
    (h : Sound P ledger) : Sound P next := by
  cases hstep with
  | receive hkey hdeposit =>
    constructor
    · exact List.forall_mem_cons.mpr ⟨hdeposit, h.deposits⟩
    · exact List.forall_mem_cons.mpr ⟨hkey, h.keys⟩
    · have hsum := h.conserved
      rw [value_cons]
      push_cast
      omega
    · exact h.paid_nonneg
    · exact h.fees_nonneg
  | @pay sources rest key src dst amount feekb fee result confirmations hselect hkey hsrc hfee hrate
      hmade =>
    obtain ⟨hchange, hamount, hpaid, hvalue⟩ :=
      made_change hP hsrc hfee hrate hmade confirmations
    have hrest : ∀ o ∈ rest, o ∈ ledger.holds := fun o ho =>
      hselect.mem_iff.mpr (List.mem_append_right _ ho)
    constructor
    · intro o ho
      cases List.mem_append.mp ho with
      | inl hold => exact h.deposits o (hrest o hold)
      | inr hnew => exact (hchange o hnew).2
    · intro o ho
      cases List.mem_append.mp ho with
      | inl hold => exact h.keys o (hrest o hold)
      | inr hnew => exact (hchange o hnew).1 ▸ hkey
    · have hsum := h.conserved
      rw [value_perm hselect, value_append] at hsum
      rw [value_append]
      push_cast at hsum ⊢
      omega
    · exact Int.add_nonneg h.paid_nonneg hamount
    · exact Int.add_nonneg h.fees_nonneg hpaid

theorem Reaches.sound (hP : P.Lawful) {ledger : Ledger P} (h : Reaches P ledger) :
    Sound P ledger := by
  induction h with
  | refl => exact sound_empty
  | tail _ hstep ih => exact hstep.sound hP ih

section Drain

variable {V : Verifier} {E : Type} [AddCommGroup E] {C : XOnly.Curve E Bytes}
  {point : P.PublicKey → E} {ledger : Ledger P} {sources : List (Source P.PrivateKey)}
  {key : P.PrivateKey} {src dst : String} {feekb fee : Int}

/-- Everything is asked for with an explicit fee. -/
theorem Sound.transfer (h : Sound P ledger) (hall : (owned sources).Perm ledger.holds)
    (hsrc : IsAddress P key src) (hdst : ∃ script, lockScript P dst = .ok script)
    (hfee : 0 < fee) (htotal : value ledger.holds ≤ 0xffffffffffffffff) :
    Transfer P sources src dst none feekb fee where
  deposits o ho := h.deposits o (hall.mem_iff.mp ho)
  keys o ho := h.keys o (hall.mem_iff.mp ho)
  total := by rwa [← value_owned, value_perm hall]
  change := ⟨key, hsrc⟩
  destination := hdst
  amount_nonneg a ha := by cases ha
  fee_nonneg := hfee.le
  rate hzero := absurd hzero hfee.ne'

/-- An explicit fee is paid when the outputs hold it with the amount. -/
theorem transfer_made (hP : P.Lawful) (hC : Implements P C point) (hb : StandardBase58 P)
    {amount : Option Int} (h : Transfer P sources src dst amount feekb fee) (hfee : 0 < fee)
    (hcovers : amount.getD 0 + fee ≤ value (owned sources)) :
    ∃ result, MakeTransaction P (lockScript P) sources src dst amount feekb fee (.ok result) ∧
      result.fee = fee := by
  obtain ⟨entries, hvin, -, hmade⟩ := made_iff hP hC hb h
  have hcover : Covers (ofEntries entries) src dst amount feekb fee := by
    intro f hf
    rw [Asks, if_neg hfee.ne'] at hf
    rw [inAmount_eq hvin, hf]
    exact hcovers
  obtain ⟨result, hresult⟩ := hmade.mpr hcover
  obtain ⟨_, _, -, -, -, -, hasks⟩ := made_built hresult
  rw [Asks, if_neg hfee.ne'] at hasks
  exact ⟨result, hresult, hasks⟩

/-- Such a payment is a step of the wallet. -/
theorem transfer_step (hP : P.Lawful) (hC : Implements P C point) (hb : StandardBase58 P)
    {amount : Option Int} (h : Transfer P sources src dst amount feekb fee) (hfee : 0 < fee)
    (hcovers : amount.getD 0 + fee ≤ value (owned sources)) (hrate : 0 ≤ feekb)
    (hkey : FromScalar P key) (hsrc : IsAddress P key src) {rest : List (P.PrivateKey × Utxo)}
    (hselect : ledger.holds.Perm (owned sources ++ rest)) :
    ∃ next, Step P ledger next ∧ next.received = ledger.received ∧
      next.fees = ledger.fees + fee := by
  obtain ⟨result, hresult, hpaid⟩ := transfer_made hP hC hb h hfee hcovers
  have hpay := Step.pay ledger 0 hselect hkey hsrc hfee.le hrate hresult
  exact ⟨_, hpay, rfl, congrArg (ledger.fees + ·) hpaid⟩

/-- With everything asked for, what is paid is what the fee leaves. -/
theorem made_drain (hfee : 0 < fee) {result : TxResult}
    (h : MakeTransaction P (lockScript P) sources src dst none feekb fee (.ok result)) :
    result.amount = value (owned sources) - fee := by
  obtain ⟨inputs, vout, hvin, hbuild, -, hamount, hasks⟩ := made_built h
  rw [Asks, if_neg hfee.ne'] at hasks
  obtain ⟨vout', hvout, hbuild⟩ := bind_eq_ok.mp hbuild
  obtain ⟨stx, -, hbuild⟩ := bind_eq_ok.mp hbuild
  cases hbuild
  obtain ⟨script, -, ⟨-, out, -, rfl⟩ | ⟨a, ha, -⟩⟩ := makeVout_cases hvout
  · rw [hamount, hasks, inAmount_eq hvin]
  · cases ha

/-- In every run of receipts and payments, whatever is paid, by whatever fee and with change to
whichever address of the wallet: what came in is what is left, what was paid and the fees; every
output that is left is one of the wallet's; and all of them together can be paid out, with a
transaction that spends each of them. -/
theorem wallet_conserves (hP : P.Lawful) (hC : Implements P C point) (hV : Accepts P V)
    (hb : StandardBase58 P) (h : Reaches P ledger) :
    Sound P ledger ∧ ∀ sources key src dst feekb fee, (owned sources).Perm ledger.holds →
      IsAddress P key src → (∃ script, lockScript P dst = .ok script) → 0 < fee →
      fee ≤ (value ledger.holds : Int) → value ledger.holds ≤ 0xffffffffffffffff →
      ∃ result, MakeTransaction P (lockScript P) sources src dst none feekb fee (.ok result) ∧
        SpendsAll P V (owned sources) result.tx ∧ result.amount = value ledger.holds - fee := by
  have hsound := h.sound hP
  refine ⟨hsound, ?_⟩
  intro sources key src dst feekb fee hall hsrc hdst hfee hcovers htotal
  have htransfer : Transfer P sources src dst none feekb fee :=
    hsound.transfer hall hsrc hdst hfee htotal
  have hpays : (none : Option Int).getD 0 + fee ≤ value (owned sources) := by
    rw [Option.getD_none, value_perm hall]
    omega
  obtain ⟨result, hresult, -⟩ := transfer_made hP hC hb htransfer hfee hpays
  refine ⟨result, hresult, made_spends hP hC hV htransfer.keys hresult, ?_⟩
  rw [made_drain hfee hresult, value_perm hall]

end Drain

/-- One output has come in. -/
def walletReceived : Ledger residueWallet := ⟨[(walletKey, walletUtxo)], 0 + 100000, 0, 0⟩

theorem walletReceived_step : Step residueWallet (emptyLedger residueWallet) walletReceived :=
  .receive _ (withBase58_scalar (residues_scalar walletKey)) walletDeposit

theorem walletPaid_reaches : ∃ ledger, Reaches residueWallet ledger ∧ ledger.received = 100000 ∧
    ledger.fees = 1000 := by
  have hselect : walletReceived.holds.Perm (owned walletSources ++ []) := by
    rw [List.append_nil, walletSources_owned]
    exact .refl _
  have hcovers : (some 90000 : Option Int).getD 0 + 1000 ≤ value (owned walletSources) := by
    rw [walletSources_owned]
    decide
  obtain ⟨next, hpay, hreceived, hfees⟩ := transfer_step (withBase58_lawful residues_lawful)
    (withBase58_implements residues_implements) withBase58_standard walletTransfer (by decide)
    hcovers (by decide) (withBase58_scalar (residues_scalar walletKey)) walletAddress_of hselect
  exact ⟨next, .tail (.single walletReceived_step) hpay, hreceived, hfees⟩

theorem wallet_conserves_sample : ∃ ledger, Reaches residueWallet ledger ∧
    ledger.received = 100000 ∧ ledger.fees = 1000 ∧
      value ledger.holds + ledger.paid + 1000 = 100000 := by
  obtain ⟨ledger, hreaches, hreceived, hfees⟩ := walletPaid_reaches
  obtain ⟨hsound, -⟩ := wallet_conserves (withBase58_lawful residues_lawful)
    (withBase58_implements residues_implements) (withBase58_accepts acceptAll_accepts)
    withBase58_standard hreaches
  have hsum := hsound.conserved
  rw [hreceived, hfees] at hsum
  exact ⟨ledger, hreaches, hreceived, hfees, hsum.symm⟩

end Yubtc.WalletRuns
