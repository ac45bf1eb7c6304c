import Yubtc.QuorumPayment

/-!
# Value conservation

What goes into a transaction comes out of it or is its fee, and the result reports the parts.
-/
namespace Yubtc.Conservation

open Wire Errors ExceptRules Crypto Script Transaction PsbtData PsbtRoles QuorumPsbt Wallet FeeLoop
  Payment QuorumPayment

variable {P : Primitives} {makeLockScript : String → Except Exn Bytes}

def total (vout : List COut) : Int := (vout.map fun o => (o.amount.toNat : Int)).sum

/-- The outputs, the change and the fee that a result reports for the inputs it spends. -/
structure Conserves (makeLockScript : String → Except Exn Bytes) (src dst : String)
    (inAmount : Int) (vout : List COut) (cashback amount fee : Int) : Prop where
  sum : inAmount = total vout + fee
  fee_nonneg : 0 ≤ fee
  range : ∀ o ∈ vout, 0 ≤ (o.amount.toNat : Int) ∧ (o.amount.toNat : Int) ≤ 2 ^ 64 - 1
  outputs : ∃ change payment, vout = change ++ [payment] ∧
    makeLockScript dst = .ok payment.script ∧ (payment.amount.toNat : Int) = amount ∧
    (cashback = 0 ∧ change = [] ∨ cashback ≠ 0 ∧ ∃ back, change = [back] ∧
      makeLockScript src = .ok back.script ∧ (back.amount.toNat : Int) = cashback)

theorem make_amount {amount : Int} {script : Bytes} {out : COut}
    (h : COut.make amount script = .ok out) :
    (out.amount.toNat : Int) = amount ∧ out.script = script := by
  obtain ⟨⟨hnonneg, hle⟩, rfl⟩ := make_eq_ok.mp h
  refine ⟨?_, rfl⟩
  simp only [UInt64.toNat_ofNat']
  omega

/-- Whatever fee `make_vout` accepts, the outputs conserve the value if the fee is not negative. -/
theorem conserves_iff {src dst : String} {inAmount fee : Int} {amount : Option Int}
    {result : VoutResult} (h : makeVout makeLockScript src dst inAmount amount fee = .ok result) :
    Conserves makeLockScript src dst inAmount result.vout result.cashback result.amount fee ↔
      0 ≤ fee := by
  constructor
  · exact fun hc => hc.fee_nonneg
  · intro hfee
    have hrange : ∀ o ∈ result.vout,
        0 ≤ (o.amount.toNat : Int) ∧ (o.amount.toNat : Int) ≤ 2 ^ 64 - 1 := by
      intro o _
      have := o.amount.toNat_lt
      omega
    obtain ⟨voutScript, hscript, ⟨-, out, hout, rfl⟩ |
      ⟨a, -, hlt, backScript, back, out, hback, hbackOut, hout, rfl⟩⟩ := makeVout_cases h
    · obtain ⟨hamount, rfl⟩ := make_amount hout
      refine ⟨?_, hfee, hrange, [], out, rfl, hscript, hamount, .inl ⟨rfl, rfl⟩⟩
      simp only [total, List.map_cons, List.map_nil, List.sum_cons, List.sum_nil, hamount]
      omega
    · obtain ⟨hamount, rfl⟩ := make_amount hout
      obtain ⟨hcashback, rfl⟩ := make_amount hbackOut
      have hchange : inAmount - a - fee ≠ 0 := by omega
      refine ⟨?_, hfee, hrange, [back], out, rfl, hscript, hamount,
        .inr ⟨hchange, back, rfl, hback, hcashback⟩⟩
      simp only [total, List.map_cons, List.map_nil, List.sum_cons, List.sum_nil, hamount,
        hcashback]
      omega

theorem addInput_amount {privkey : P.PrivateKey} {inputs inputs' : Inputs P} {u : Utxo}
    (h : addInput P privkey inputs u = .ok inputs') :
    inputs'.inAmount = inputs.inAmount + u.amount := by
  obtain ⟨_, -, h⟩ := bind_eq_ok.mp h
  obtain ⟨_, -, h⟩ := bind_eq_ok.mp h
  obtain ⟨_, -, h⟩ := bind_eq_ok.mp h
  obtain ⟨_, -, h⟩ := bind_eq_ok.mp h
  obtain ⟨_, -, h⟩ := bind_eq_ok.mp h
  cases h
  rfl

theorem addInputs_amount {privkey : P.PrivateKey} {unspent : List Utxo}
    {inputs inputs' : Inputs P} (h : unspent.foldlM (addInput P privkey) inputs = .ok inputs') :
    inputs'.inAmount = inputs.inAmount + amountOf unspent := by
  refine foldlM_induct (motive := fun done (r : Inputs P) =>
    r.inAmount = inputs.inAmount + amountOf done) (by simp [amountOf]) ?_ h
  intro done u rest b b' _ hb hadd
  rw [addInput_amount hadd, hb]
  simp [amountOf, add_assoc]

/-- The selected amounts are those the outputs are made from. -/
theorem makeVin_amount {sources : List (Source P.PrivateKey)} {inputs : Inputs P}
    (h : makeVin P sources = .ok inputs) :
    inputs.inAmount = (sources.map fun source => (amountOf source.2 : Int)).sum := by
  refine foldlM_induct (motive := fun done (r : Inputs P) =>
    r.inAmount = (done.map fun source => (amountOf source.2 : Int)).sum) rfl ?_ h
  intro done source rest b b' _ hb hadd
  rw [addInputs_amount hadd, hb]
  simp

theorem buildTransaction_vout {inputs : Inputs P} {src dst : String} {amount : Option Int}
    {fee : Int} {built : VoutResult × CTransaction}
    (h : buildTransaction P makeLockScript inputs src dst amount fee = .ok built) :
    makeVout makeLockScript src dst inputs.inAmount amount fee = .ok built.1 ∧
      built.2.vout = built.1.vout := by
  obtain ⟨voutResult, hvout, h⟩ := bind_eq_ok.mp h
  obtain ⟨stx, hstx, h⟩ := bind_eq_ok.mp h
  cases h
  exact ⟨hvout, DirectSigning.signSegwit_vout P hstx⟩

theorem conserves_build {inputs : Inputs P} {src dst : String} {amount : Option Int} {fee : Int}
    {built : VoutResult × CTransaction}
    (h : buildTransaction P makeLockScript inputs src dst amount fee = .ok built) :
    Conserves makeLockScript src dst inputs.inAmount built.2.vout built.1.cashback built.1.amount
      fee ↔ 0 ≤ fee := by
  obtain ⟨hvout, heq⟩ := buildTransaction_vout h
  rw [heq]
  exact conserves_iff hvout

/-- At a negative rate the loop takes the unpriced transaction when no other fee it tries gives
a smaller one. -/
def NeverShrinks {τ : Type} (p : Pricing τ) : Prop :=
  ∀ fee, Tries p fee → ∀ built, p.build fee = .ok built → sizeAt p 0 ≤ p.vsize built.2

theorem truncDiv_nonneg {n : Int} {d : Nat} {q : Int} (h : Binary64.truncDiv n d = some q)
    (hn : 0 ≤ n) : 0 ≤ q := by
  unfold Binary64.truncDiv at h
  dsimp only at h
  split at h
  · cases h
    exact Int.mul_nonneg (Int.sign_nonneg_iff.mpr hn) (Int.natCast_nonneg _)
  · cases h

theorem truncDiv_nonpos {n : Int} {d : Nat} {q : Int} (h : Binary64.truncDiv n d = some q)
    (hn : n ≤ 0) : q ≤ 0 := by
  unfold Binary64.truncDiv at h
  dsimp only at h
  split at h
  · cases h
    refine mul_nonpos_of_nonpos_of_nonneg ?_ (Int.natCast_nonneg _)
    rcases hn.lt_or_eq with hlt | rfl
    · rw [Int.sign_eq_neg_one_of_neg hlt]
      decide
    · decide
  · cases h

/-- The fees a loop tries all have the sign that prices have. -/
theorem tries_induct {τ : Type} {p : Pricing τ} (good : Int → Prop) (hzero : good 0)
    (hprice : ∀ size fee, p.newFee size = .ok fee → good fee) {fee : Int} (h : Tries p fee) :
    good fee := by
  cases h with
  | first => exact hzero
  | next _ _ hfee => exact hprice _ _ hfee

/-- Without a positive fee to try, the loop returns a negative fee exactly when some other fee
gives a smaller transaction. -/
theorem fallback_fee_nonneg {τ : Type} {p : Pricing τ} {feekb : Int} {best : Candidate τ}
    (h : FeeLoopReturns p feekb (.ok best)) (hpositive : ∀ tx, 0 < p.vsize tx)
    (hnonpos : ∀ fee, Tries p fee → fee ≤ 0) : 0 ≤ best.fee ↔ NeverShrinks p := by
  have hnone : ∀ fee built, Tries p fee → p.build fee = .ok built →
      ¬pays feekb minRelayTxFee (p.vsize built.2) fee := by
    intro fee built htries _ hpays
    have hfee := hnonpos fee htries
    have hsize := hpositive built.2
    have hfloor := hpays.2
    simp only [minRelayTxFee] at hfloor
    omega
  obtain ⟨hleast, first, hzero, hfirst⟩ := feeLoop_fallback h hnone
  obtain ⟨htries, hbuild⟩ := feeLoop_sound h
  constructor
  · intro hfee fee hfee' built hbuilt
    have heq : best.fee = 0 := le_antisymm (hnonpos _ htries) hfee
    rw [heq] at hbuild
    rw [sizeAt_of_build hbuild]
    exact hleast fee built hfee' hbuilt
  · intro hnever
    have hge := hnever _ htries _ hbuild
    rw [sizeAt_of_build hzero] at hge
    exact (hfirst (le_antisymm (hleast 0 first .first hzero) hge)).ge

theorem transactionPricing_price (P : Primitives) (inputs : Inputs P) (src dst : String)
    (amount : Option Int) (feekb : Int) (size : Nat) {fee : Int}
    (h : (transactionPricing P makeLockScript inputs src dst amount feekb).newFee size = .ok fee) :
    Binary64.truncDiv (size * feekb) 1000 = some fee :=
  orElseThrow_eq_ok.mp h

theorem vsize_pos (tx : CTransaction) : 0 < tx.vsize := by
  have hlen := Sizes.serializeStripped_length tx
  rw [CTransaction.vsize, CTransaction.weight]
  omega

/-- When the wallet conserves value: for a positive fee; for a fee left to the loop, at a rate
that is not negative, or when the loop finds nothing smaller than the unpriced transaction. -/
def FeeInRange (P : Primitives) (makeLockScript : String → Except Exn Bytes)
    (sources : List (Source P.PrivateKey)) (src dst : String) (amount : Option Int)
    (feekb fee : Int) : Prop :=
  0 < fee ∨ fee = 0 ∧ (0 ≤ feekb ∨ ∀ inputs, makeVin P sources = .ok inputs →
    NeverShrinks (transactionPricing P makeLockScript inputs src dst amount feekb))

theorem loop_fee_nonneg {inputs : Inputs P} {src dst : String} {amount : Option Int} {feekb : Int}
    {best : Candidate CTransaction}
    (h : FeeLoopReturns (transactionPricing P makeLockScript inputs src dst amount feekb) feekb
      (.ok best)) :
    0 ≤ best.fee ↔ 0 ≤ feekb ∨
      NeverShrinks (transactionPricing P makeLockScript inputs src dst amount feekb) := by
  obtain ⟨htries, -⟩ := feeLoop_sound h
  rcases le_or_gt 0 feekb with hrate | hrate
  · refine iff_of_true ?_ (.inl hrate)
    refine tries_induct (fun fee => 0 ≤ fee) le_rfl (fun size fee hfee => ?_) htries
    exact truncDiv_nonneg (transactionPricing_price P inputs src dst amount feekb size hfee)
      (Int.mul_nonneg (Int.natCast_nonneg _) hrate)
  · have hnonpos : ∀ fee, Tries (transactionPricing P makeLockScript inputs src dst amount feekb)
        fee → fee ≤ 0 := by
      intro fee hfee
      refine tries_induct (fun fee => fee ≤ 0) le_rfl (fun size fee hfee => ?_) hfee
      exact truncDiv_nonpos (transactionPricing_price P inputs src dst amount feekb size hfee)
        (mul_nonpos_of_nonneg_of_nonpos (Int.natCast_nonneg _) hrate.le)
    rw [fallback_fee_nonneg h vsize_pos hnonpos]
    exact ⟨.inr, fun hor => hor.resolve_left (not_le.mpr hrate)⟩

/-- A result of the wallet conserves value exactly when its fee is in range. -/
theorem transaction_conserves_iff {sources : List (Source P.PrivateKey)} {src dst : String}
    {amount : Option Int} {feekb fee : Int} {result : TxResult}
    (h : MakeTransaction P makeLockScript sources src dst amount feekb fee (.ok result)) :
    Conserves makeLockScript src dst (sources.map fun source => (amountOf source.2 : Int)).sum
        result.tx.vout result.cashback result.amount result.fee ↔
      FeeInRange P makeLockScript sources src dst amount feekb fee := by
  unfold MakeTransaction at h
  cases hvin : makeVin P sources with
  | error e =>
    rw [hvin] at h
    cases h
  | ok inputs =>
    rw [hvin] at h
    dsimp only at h
    rw [← makeVin_amount hvin]
    by_cases hfee : fee = 0
    · rw [if_neg (not_not.mpr hfee)] at h
      obtain ⟨best, hloop, hbest⟩ := h
      cases best with
      | error e => cases hbest
      | ok best =>
        cases hbest
        obtain ⟨-, hbuild⟩ := feeLoop_sound hloop
        rw [conserves_build hbuild, loop_fee_nonneg hloop]
        simp [FeeInRange, hfee, hvin]
    · rw [if_pos hfee] at h
      cases hbuild : buildTransaction P makeLockScript inputs src dst amount fee with
      | error e =>
        rw [hbuild] at h
        cases h
      | ok built =>
        rw [hbuild] at h
        cases h
        rw [conserves_build hbuild]
        simp only [FeeInRange, hfee, false_and, or_false]
        omega

/-- More and longer outputs never make a transaction smaller. -/
theorem vsize_le {tx tx' : PsbtTransaction} (hvin : tx.vin = tx'.vin)
    (hcount : tx.vout.length ≤ tx'.vout.length)
    (hsize : (tx.vout.flatMap PsbtTxOut.serialize).length ≤
      (tx'.vout.flatMap PsbtTxOut.serialize).length) : vsize tx ≤ vsize tx' := by
  have hcompact := compactSizeLen_mono hcount
  have hstripped : tx.serializeStripped.length ≤ tx'.serializeStripped.length := by
    simp only [PsbtTransaction.serializeStripped, List.length_append, compactSize_length,
      packl_length, packL_length, hvin]
    omega
  have hwire : tx.serializeWire.length ≤ tx'.serializeWire.length := by
    have hwitness : tx.hasWitness = tx'.hasWitness := by
      simp only [PsbtTransaction.hasWitness, hvin]
    by_cases h : tx'.hasWitness = true
    · rw [Sizes.psbtWire_length (hwitness.trans h), Sizes.psbtWire_length h, hvin]
      omega
    · rw [PsbtTransaction.serializeWire, PsbtTransaction.serializeWire, hwitness, if_pos h, if_pos h]
      exact hstripped
  rw [vsize, vsize, weight, weight]
  omega

theorem psbt_vsize_pos (tx : PsbtTransaction) : 0 < vsize tx := by
  have hlen : 0 < tx.serializeStripped.length := by
    simp only [PsbtTransaction.serializeStripped, List.length_append, packl_length]
    omega
  rw [vsize, weight]
  omega

section

variable {s : QuorumSizing} {txhashes : List (Bytes × UInt32)} {quorumAddr dst : String}
  {inAmount amount feekb : Int}

/-- What is built leaves room for its fee. -/
theorem quorum_built_le {fee : Int} {built : VoutResult × PsbtTransaction}
    (h : (quorumPricing makeLockScript s txhashes quorumAddr dst inAmount amount feekb).build fee =
      .ok built) : amount + fee ≤ inAmount := by
  obtain ⟨voutResult, hvout, -⟩ := bind_eq_ok.mp h
  obtain ⟨_, -, ⟨hall, -⟩ | ⟨a, ha, hlt, -⟩⟩ := makeVout_cases hvout
  · exact (hall amount rfl).le
  · rw [Option.some.injEq] at ha
    omega

/-- A sized transaction is as large as another one, or smaller by the change it leaves out. -/
theorem quorum_size_le {fee fee₀ : Int} {built built₀ : VoutResult × PsbtTransaction}
    (h : (quorumPricing makeLockScript s txhashes quorumAddr dst inAmount amount feekb).build fee =
      .ok built)
    (h₀ : (quorumPricing makeLockScript s txhashes quorumAddr dst inAmount amount feekb).build fee₀ =
      .ok built₀) (hchange : amount + fee₀ = inAmount → amount + fee = inAmount) :
    vsize built.2 ≤ vsize built₀.2 := by
  obtain ⟨voutResult, hvout, hbuild⟩ := bind_eq_ok.mp h
  obtain ⟨voutResult₀, hvout₀, hbuild₀⟩ := bind_eq_ok.mp h₀
  cases hbuild
  cases hbuild₀
  obtain ⟨script, hscript, hcases⟩ := makeVout_cases hvout
  obtain ⟨script₀, hscript₀, hcases₀⟩ := makeVout_cases hvout₀
  cases hscript.symm.trans hscript₀
  rcases hcases with ⟨-, out, hout, rfl⟩ |
    ⟨a, ha, hlt, backScript, back, out, hback, hbackOut, hout, rfl⟩
  · obtain ⟨-, hpay⟩ := make_amount hout
    rcases hcases₀ with ⟨-, out₀, hout₀, rfl⟩ | ⟨_, -, -, backScript₀, back₀, out₀, -, -, hout₀, rfl⟩
    all_goals
      obtain ⟨-, hpay₀⟩ := make_amount hout₀
      refine vsize_le rfl ?_ ?_
      · simp [QuorumSizing.transaction]
      · simp [QuorumSizing.transaction, hpay, hpay₀]
  · obtain ⟨-, hpay⟩ := make_amount hout
    obtain ⟨-, hchangeOut⟩ := make_amount hbackOut
    rcases hcases₀ with ⟨hall, -⟩ |
      ⟨_, -, -, backScript₀, back₀, out₀, hback₀, hbackOut₀, hout₀, rfl⟩
    · have hexact := hchange (hall amount rfl)
      rw [Option.some.injEq] at ha
      omega
    · obtain ⟨-, hpay₀⟩ := make_amount hout₀
      obtain ⟨-, hchangeOut₀⟩ := make_amount hbackOut₀
      cases hback.symm.trans hback₀
      refine vsize_le rfl ?_ ?_
      · simp [QuorumSizing.transaction]
      · simp [QuorumSizing.transaction, hpay, hpay₀, hchangeOut, hchangeOut₀]

/-- No price is positive at a negative rate. -/
theorem quorum_tries_nonpos (hrate : feekb < 0) {fee : Int}
    (h : Tries (quorumPricing makeLockScript s txhashes quorumAddr dst inAmount amount feekb) fee) :
    fee ≤ 0 := by
  refine tries_induct (fun fee => fee ≤ 0) le_rfl (fun size fee hfee => ?_) h
  cases hfee
  have hmul : (size : Int) * feekb ≤ 0 :=
    mul_nonpos_of_nonneg_of_nonpos (Int.natCast_nonneg _) hrate.le
  omega

/-- A negative fee only adds to the change. -/
theorem quorum_neverShrinks (hrate : feekb < 0) :
    NeverShrinks (quorumPricing makeLockScript s txhashes quorumAddr dst inAmount amount feekb) := by
  intro fee htries built hbuild
  have hfee := quorum_tries_nonpos hrate htries
  unfold sizeAt
  split
  · rename_i built₀ hbuild₀
    have hle := quorum_built_le hbuild₀
    exact quorum_size_le hbuild₀ hbuild fun hexact => by omega
  · exact Nat.zero_le _

theorem quorumVout_conserves {fee paidFee : Int} {paid : VoutResult}
    (h : QuorumVout makeLockScript s txhashes quorumAddr dst inAmount amount feekb fee
      (.ok (paid, paidFee))) :
    Conserves makeLockScript quorumAddr dst inAmount paid.vout paid.cashback paid.amount paidFee := by
  unfold QuorumVout at h
  by_cases hfee : 0 < fee
  · rw [if_pos hfee] at h
    cases hvout : makeVout makeLockScript quorumAddr dst inAmount (some amount) fee with
    | error e =>
      rw [hvout] at h
      cases h
    | ok voutResult =>
      rw [hvout] at h
      cases h
      exact (conserves_iff hvout).mpr hfee.le
  · rw [if_neg hfee] at h
    obtain ⟨best, hloop, hbest⟩ := h
    cases best with
    | error e => cases hbest
    | ok best =>
      cases hbest
      obtain ⟨htries, hbuild⟩ := feeLoop_sound hloop
      have hnonneg : 0 ≤ best.fee := by
        rcases le_or_gt 0 feekb with hrate | hrate
        · refine tries_induct (fun fee => 0 ≤ fee) le_rfl (fun size fee hfee => ?_) htries
          cases hfee
          have hmul : 0 ≤ (size : Int) * feekb := Int.mul_nonneg (Int.natCast_nonneg _) hrate
          omega
        · exact (fallback_fee_nonneg hloop psbt_vsize_pos fun fee => quorum_tries_nonpos hrate).mpr
            (quorum_neverShrinks hrate)
      obtain ⟨voutResult, hvout, hbuild⟩ := bind_eq_ok.mp hbuild
      have hsame : voutResult = best.vout := (Prod.mk.inj (Except.ok.inj hbuild)).1
      exact (conserves_iff (hsame ▸ hvout)).mpr hnonneg

end

/-- Every quorum payment conserves value. -/
theorem quorum_conserves {rawTransaction : String → Except Exn String} {own : P.PrivateKey}
    {form : MsForm} {m : Nat} {redeem : Bytes} {quorumAddr dst : String} {selected : List Utxo}
    {amount feekb fee : Int} {result : MsPsbtOutcome}
    (h : MsCreatePsbt P makeLockScript rawTransaction own form m redeem quorumAddr dst selected
      amount feekb fee (.ok result)) :
    ∃ vout, result.psbt.unsignedTx.vout = vout.map (fun o => ⟨o.amount, o.script⟩) ∧
      Conserves makeLockScript quorumAddr dst (amountOf selected) vout result.cashback result.amount
        result.fee := by
  unfold MsCreatePsbt at h
  cases hprepared : prepare P form m redeem selected with
  | error e =>
    rw [hprepared] at h
    cases h
  | ok prepared =>
    rw [hprepared] at h
    obtain ⟨paid, hpaid, hresult⟩ := h
    obtain ⟨paid, rfl, hsigned⟩ := bind_eq_ok.mp hresult.symm
    obtain ⟨_, -, hsigned⟩ := bind_eq_ok.mp hsigned
    obtain ⟨created, hcreated, hsigned⟩ := bind_eq_ok.mp hsigned
    obtain ⟨psbt, hpsbt, hsigned⟩ := bind_eq_ok.mp hsigned
    cases hsigned
    refine ⟨paid.1.vout, ?_, quorumVout_conserves hpaid⟩
    have hstrip := congrArg Psbt.unsignedTx (signInputs_strip P hpsbt)
    have hkept : psbt.unsignedTx = created.unsignedTx := hstrip
    rw [hkept, (createPsbt_spec hcreated).1]
    rfl

/-- What the wallet builds conserves value exactly when the fee is in range, and what a quorum
pays always does. -/
theorem value_conserved_iff (P : Primitives) (makeLockScript : String → Except Exn Bytes) :
    (∀ (sources : List (Source P.PrivateKey)) (src dst : String) (amount : Option Int)
        (feekb fee : Int) (result : TxResult),
        MakeTransaction P makeLockScript sources src dst amount feekb fee (.ok result) →
        (Conserves makeLockScript src dst (sources.map fun source => (amountOf source.2 : Int)).sum
            result.tx.vout result.cashback result.amount result.fee ↔
          FeeInRange P makeLockScript sources src dst amount feekb fee)) ∧
      ∀ (rawTransaction : String → Except Exn String) (own : P.PrivateKey) (form : MsForm) (m : Nat)
        (redeem : Bytes) (quorumAddr dst : String) (selected : List Utxo) (amount feekb fee : Int)
        (result : MsPsbtOutcome),
        MsCreatePsbt P makeLockScript rawTransaction own form m redeem quorumAddr dst selected
          amount feekb fee (.ok result) →
        ∃ vout, result.psbt.unsignedTx.vout = vout.map (fun o => ⟨o.amount, o.script⟩) ∧
          Conserves makeLockScript quorumAddr dst (amountOf selected) vout result.cashback
            result.amount result.fee := by
  constructor
  · intro sources src dst amount feekb fee result h
    exact transaction_conserves_iff h
  · intro rawTransaction own form m redeem quorumAddr dst selected amount feekb fee result h
    exact quorum_conserves h

/-- One output that the sample key can spend. -/
def ownScript : Bytes := p2wpkhShape.build (hash160 standIn (privkey2pubkey standIn sampleSigner))

def ownSources : List (Source standIn.PrivateKey) :=
  [(⟨0, .native, sampleSigner, "bc1q0"⟩,
    [⟨Net.hex (List.replicate 32 9), 0, 100000, Net.hex ownScript, 6⟩])]

def ownInputs : Inputs standIn :=
  ⟨[⟨List.replicate 32 9, rfl, 0, ownScript, 0xffffffff, []⟩], 100000,
    [(sampleSigner, privkey2pubkey standIn sampleSigner)], [⟨100000, ownScript⟩]⟩

theorem makeVin_ownSources : makeVin standIn ownSources = .ok ownInputs := by
  have hkey : requireKey standIn (privkey2pubkey standIn sampleSigner) ownScript .p2wpkh =
      .ok () := by decide +kernel
  have hform : validateUtxoScript ownScript = .ok .p2wpkh := by decide +kernel
  simp only [makeVin, ownSources, List.foldlM_cons, List.foldlM_nil, addInput, fromHex_hex,
    ok_bind, hform, hkey]
  rfl

theorem overpaid_made : ∃ sources result,
    MakeTransaction standIn sampleLockScript sources "src" "dst" (some 101000) 1000 (-1000)
      (.ok result) ∧ result.fee = -1000 := by
  have hbuilt : (buildTransaction standIn sampleLockScript ownInputs "src" "dst" (some 101000)
      (-1000)).toBool = true := by decide +kernel
  cases hbuild : buildTransaction standIn sampleLockScript ownInputs "src" "dst" (some 101000)
      (-1000) with
  | error e =>
    rw [hbuild] at hbuilt
    cases hbuilt
  | ok built =>
    refine ⟨ownSources, ⟨built.2, built.1.cashback, built.1.amount, -1000⟩, ?_, rfl⟩
    unfold MakeTransaction
    rw [makeVin_ownSources]
    dsimp only
    rw [if_pos (by decide), hbuild]
    rfl

/-- A negative fee pays out more than is spent. -/
theorem ownSources_not_conserved :
    ¬∀ (sources : List (Source standIn.PrivateKey)) (src dst : String) (amount : Option Int)
      (feekb fee : Int) (result : TxResult),
      MakeTransaction standIn sampleLockScript sources src dst amount feekb fee (.ok result) →
      Conserves sampleLockScript src dst
        (sources.map fun source => (amountOf source.2 : Int)).sum result.tx.vout result.cashback
        result.amount result.fee := by
  intro h
  obtain ⟨sources, result, hmade, hfee⟩ := overpaid_made
  have hnonneg := (h _ _ _ _ _ _ _ hmade).fee_nonneg
  rw [hfee] at hnonneg
  exact absurd hnonneg (by decide)

end Yubtc.Conservation
