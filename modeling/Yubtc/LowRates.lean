import Yubtc.Conservation

/-!
# Low rates

Below the relay minimum the prices of a loop rarely reach the floor, and the fallback decides.
A fallback on a priced candidate still pays the rate: of all that were tried it has the
smallest size. The unpriced candidate pays nothing.
-/
namespace Yubtc.LowRates

open Wire Errors ExceptRules Crypto Wallet FeeLoop Payment Conservation

variable {τ : Type}

/-- A loop pays the rate: the unpriced transaction owes nothing, or some fee that is tried makes
a smaller one, or some candidate meets both conditions. -/
def RateMet (p : Pricing τ) (feekb : Int) : Prop :=
  sizeAt p 0 * feekb < 1000 ∨ ¬NeverShrinks p ∨
    ∃ fee built, Tries p fee ∧ p.build fee = .ok built ∧
      pays feekb minRelayTxFee (p.vsize built.2) fee

/-- Every size a loop meets has its exact price. -/
def Exact (p : Pricing τ) (feekb : Int) : Prop :=
  ∀ fee built, p.build fee = .ok built →
    p.newFee (p.vsize built.2) = .ok (p.vsize built.2 * feekb / 1000)

section

variable {p : Pricing τ} {feekb : Int} {best : Candidate τ}

/-- A priced candidate of the smallest size pays the rate: its fee is the price of a size that
is no smaller. -/
theorem priced_pays (hrate : 0 < feekb) (hexact : Exact p feekb) (htries : Tries p best.fee)
    (hpriced : best.fee ≠ 0)
    (hleast : ∀ fee built, Tries p fee → p.build fee = .ok built →
      p.vsize best.tx ≤ p.vsize built.2) :
    p.vsize best.tx * feekb / 1000 ≤ best.fee := by
  generalize hfee : best.fee = fee at htries hpriced
  cases htries with
  | first => exact absurd rfl hpriced
  | next htries hbuild hprice =>
    rw [hexact _ _ hbuild, Except.ok.injEq] at hprice
    rw [← hprice]
    refine Int.ediv_le_ediv (by decide) (Int.mul_le_mul_of_nonneg_right ?_ hrate.le)
    exact_mod_cast hleast _ _ htries hbuild

/-- At an ordinary rate it can. -/
theorem rateMet_of_ordinary (hrate : minRelayTxFee ≤ feekb) (hexact : Exact p feekb)
    (h : FeeLoopReturns p feekb (.ok best)) : RateMet p feekb := by
  obtain ⟨tried, htried, h⟩ := h
  obtain ⟨bySize, rfl, -⟩ := bind_eq_ok.mp h.symm
  obtain ⟨hgathered, -⟩ := feeLoop_gathered htried
  have hprice : ∀ e ∈ entries bySize, p.newFee e.1 = .ok (e.1 * feekb / 1000) := by
    intro e he
    obtain ⟨-, hbuild, hsize⟩ := hgathered.sound e he
    rw [hsize]
    exact hexact _ _ hbuild
  obtain ⟨entry, hentry, hpays⟩ := hgathered.exists_pays hrate hprice
  obtain ⟨htries, hbuild, hsize⟩ := hgathered.sound entry hentry
  exact .inr (.inr ⟨entry.2.fee, _, htries, hbuild, hsize ▸ hpays⟩)

/-- The returned candidate pays the rate exactly when the loop can meet it. -/
theorem loop_rate_iff (hrate : 0 < feekb) (hexact : Exact p feekb)
    (h : FeeLoopReturns p feekb (.ok best)) :
    p.vsize best.tx * feekb / 1000 ≤ best.fee ↔ RateMet p feekb := by
  by_cases hpays : ∃ fee built, Tries p fee ∧ p.build fee = .ok built ∧
      pays feekb minRelayTxFee (p.vsize built.2) fee
  · refine iff_of_true ?_ (.inr (.inr hpays))
    obtain ⟨fee, built, htries, hbuild, hpays⟩ := hpays
    exact (feeLoop_pays h htries hbuild hpays).1
  have hnone : ∀ fee built, Tries p fee → p.build fee = .ok built →
      ¬pays feekb minRelayTxFee (p.vsize built.2) fee := fun fee built htries hbuild hpay =>
    hpays ⟨fee, built, htries, hbuild, hpay⟩
  obtain ⟨hleast, first, hfirst, hunpriced⟩ := feeLoop_fallback h hnone
  obtain ⟨htries, hbuild⟩ := feeLoop_sound h
  have hzero : sizeAt p 0 = p.vsize first.2 := sizeAt_of_build hfirst
  simp only [RateMet, hpays, or_false]
  constructor
  · intro hmet
    by_contra hnot
    rw [not_or, not_not] at hnot
    obtain ⟨howes, hnever⟩ := hnot
    -- The unpriced candidate has the smallest size, so it is the one returned.
    have hsame : p.vsize best.tx = p.vsize first.2 :=
      le_antisymm (hleast 0 first .first hfirst) (hzero ▸ hnever _ htries _ hbuild)
    rw [hunpriced hsame, hsame, ← hzero] at hmet
    omega
  · intro hmet
    by_cases hpriced : best.fee = 0
    · rw [hpriced, hfirst, Except.ok.injEq] at hbuild
      have hsame : sizeAt p 0 = p.vsize best.tx := by rw [hzero, hbuild]
      rcases hmet with howes | hshrinks
      · rw [hpriced, ← hsame]
        omega
      · refine absurd (fun fee htried built hbuilt => ?_) hshrinks
        rw [hsame]
        exact hleast fee built htried hbuilt
    · exact priced_pays hrate hexact htries hpriced hleast

end

variable (P : Primitives) (makeLockScript : String → Except Exn Bytes)

/-- When the wallet's loop meets the rate. -/
def WalletRateMet (sources : List (Source P.PrivateKey)) (src dst : String) (amount : Option Int)
    (feekb : Int) : Prop :=
  ∀ inputs, makeVin P sources = .ok inputs →
    RateMet (transactionPricing P makeLockScript inputs src dst amount feekb) feekb

/-- Below the relay minimum, what the wallet and a quorum build pays the requested rate exactly
when the loop can meet it. -/
theorem low_rate_iff {feekb : Int} (hrate : 0 < feekb) :
    (∀ (sources : List (Source P.PrivateKey)) (src dst : String) (amount : Option Int)
        (result : TxResult),
        (∀ inputs, makeVin P sources = .ok inputs →
          Affordable (transactionPricing P makeLockScript inputs src dst amount feekb) feekb) →
        MakeTransaction P makeLockScript sources src dst amount feekb 0 (.ok result) →
        (result.tx.vsize * feekb / 1000 ≤ result.fee ↔
          WalletRateMet P makeLockScript sources src dst amount feekb)) ∧
      ∀ (s : QuorumSizing) (txhashes : List (Bytes × UInt32)) (quorumAddr dst : String)
        (inAmount amount fee : Int) (paid : VoutResult × Int), fee ≤ 0 →
        QuorumVout makeLockScript s txhashes quorumAddr dst inAmount amount feekb fee (.ok paid) →
        (vsize (s.transaction txhashes true paid.1.vout) * feekb / 1000 ≤ paid.2 ↔
          RateMet (quorumPricing makeLockScript s txhashes quorumAddr dst inAmount amount feekb)
            feekb) := by
  constructor
  · intro sources src dst amount result hafford h
    unfold MakeTransaction at h
    cases hvin : makeVin P sources with
    | error e =>
      rw [hvin] at h
      cases h
    | ok inputs =>
      rw [hvin] at h
      obtain ⟨best, hloop, hbest⟩ := h
      cases best with
      | error e => cases hbest
      | ok best =>
        cases hbest
        have hexact : Exact (transactionPricing P makeLockScript inputs src dst amount feekb)
            feekb := fun fee built hbuild =>
          transactionPricing_newFee makeLockScript P inputs src dst amount hrate.le
            (hafford inputs hvin fee built hbuild)
        simp only [WalletRateMet, hvin, Except.ok.injEq, forall_eq']
        exact loop_rate_iff hrate hexact hloop
  · intro s txhashes quorumAddr dst inAmount amount fee paid hfee h
    rw [QuorumVout, if_neg (not_lt.mpr hfee)] at h
    obtain ⟨best, hloop, hbest⟩ := h
    cases best with
    | error e => cases hbest
    | ok best =>
      cases hbest
      obtain ⟨-, hbuild⟩ := feeLoop_sound hloop
      obtain ⟨voutResult, -, hbuild⟩ := bind_eq_ok.mp hbuild
      obtain ⟨rfl, htx⟩ := Prod.mk.inj (Except.ok.inj hbuild)
      rw [htx]
      exact loop_rate_iff hrate (fun _ _ _ => rfl) hloop

theorem ownInputs_affordable :
    Affordable (transactionPricing standIn sampleLockScript ownInputs "src" "dst" (some 5000) 500)
      500 := by
  intro fee built hbuild
  obtain ⟨voutResult, hvout, hbuild⟩ := bind_eq_ok.mp hbuild
  obtain ⟨stx, hstx, hbuild⟩ := bind_eq_ok.mp hbuild
  cases hbuild
  have hscheme : Transaction.sigSchemeFromScriptPubkey ownScript = .p2wpkh := by decide +kernel
  obtain ⟨digest, rfl⟩ := oneInput_signed hscheme hstx
  have hpubkey : (privkey2pubkey standIn sampleSigner).length = 33 := by decide
  have hscript : ∀ address script, sampleLockScript address = .ok script → script.length = 22 := by
    intro address script h
    cases h
    decide
  obtain ⟨script, hdst, ⟨-, out, hout, rfl⟩ |
    ⟨a, -, -, backScript, back, out, hback, hbackOut, hout, rfl⟩⟩ := makeVout_cases hvout
  · obtain ⟨-, rfl⟩ := make_eq_ok.mp hout
    show ((Transaction.CTransaction.vsize _ : Nat) : Int) * 500 < 2 ^ 53
    rw [Sizes.vsize_of_witness rfl, Sizes.serializeStripped_length]
    simp [Sizes.witnessSize, Sizes.itemSize, Sizes.inputSize, Sizes.outputSize,
      standIn_sign_length, hscript _ _ hdst, hpubkey, compactSizeLen]
  · obtain ⟨-, rfl⟩ := make_eq_ok.mp hbackOut
    obtain ⟨-, rfl⟩ := make_eq_ok.mp hout
    show ((Transaction.CTransaction.vsize _ : Nat) : Int) * 500 < 2 ^ 53
    rw [Sizes.vsize_of_witness rfl, Sizes.serializeStripped_length]
    simp [Sizes.witnessSize, Sizes.itemSize, Sizes.inputSize, Sizes.outputSize,
      standIn_sign_length, hscript _ _ hdst, hscript _ _ hback, hpubkey, compactSizeLen]

theorem built_of_sizeAt {p : Pricing τ} {fee : Int} {size : Nat} (h : sizeAt p fee = size)
    (hsize : size ≠ 0) : ∃ built, p.build fee = .ok built ∧ p.vsize built.2 = size := by
  cases hbuild : p.build fee with
  | error e => exact absurd (by rw [← h, sizeAt, hbuild]) hsize
  | ok built => exact ⟨built, rfl, (sizeAt_of_build hbuild).symm.trans h⟩

/-- A loop that meets one size, at a price below what pays, returns the unpriced candidate. -/
theorem oneSize_unpriced {p : Pricing τ} {feekb fee : Int} {size : Nat} (hsize : size ≠ 0)
    (hfirst : sizeAt p 0 = size) (hpriced : sizeAt p fee = size) (hfee : p.newFee size = .ok fee)
    (hzero : ¬pays feekb minRelayTxFee size 0) (hshort : ¬pays feekb minRelayTxFee size fee) :
    ∃ best, FeeLoopReturns p feekb (.ok best) ∧ best.fee = 0 ∧ p.vsize best.tx = size := by
  obtain ⟨first, hfirstBuild, rfl⟩ := built_of_sizeAt hfirst hsize
  obtain ⟨priced, hpricedBuild, hpricedSize⟩ := built_of_sizeAt hpriced hsize
  exact ⟨_, feeLoop_oneSize hfirstBuild hfee hpricedBuild hpricedSize hzero hshort, rfl, rfl⟩

/-- The sample payment is 132 bytes at every fee that is tried, so at half the relay minimum the
unpriced candidate is returned. -/
theorem unpriced_made : ∃ sources result,
    (∀ inputs, makeVin standIn sources = .ok inputs → Affordable
      (transactionPricing standIn sampleLockScript inputs "src" "dst" (some 5000) 500) 500) ∧
      MakeTransaction standIn sampleLockScript sources "src" "dst" (some 5000) 500 0
        (.ok result) ∧ result.fee = 0 ∧ result.tx.vsize = 132 := by
  have hloop : ∃ best, FeeLoopReturns
      (transactionPricing standIn sampleLockScript ownInputs "src" "dst" (some 5000) 500) 500
        (.ok best) ∧ best.fee = 0 ∧ best.tx.vsize = 132 :=
    @oneSize_unpriced _ _ 500 66 132 (by decide) (by decide +kernel) (by decide +kernel)
      (by rfl) (by decide) (by decide)
  obtain ⟨best, hloop, hfee, hsize⟩ := hloop
  refine ⟨ownSources, ⟨best.tx, best.vout.cashback, best.vout.amount, best.fee⟩, ?_, ?_, hfee,
    hsize⟩
  · intro inputs hvin
    rw [makeVin_ownSources, Except.ok.injEq] at hvin
    exact hvin ▸ ownInputs_affordable
  · unfold MakeTransaction
    rw [makeVin_ownSources]
    exact ⟨_, hloop, rfl⟩

/-- A quorum's loop meets one size too. -/
theorem unpriced_quorum : ∃ s txhashes paid, QuorumVout sampleLockScript s txhashes "src" "dst"
    100000 5000 500 0 (.ok paid) ∧ paid.2 = 0 := by
  obtain ⟨best, hloop, hfee, -⟩ := @oneSize_unpriced _
    (quorumPricing sampleLockScript sampleSizing [(List.replicate 32 7, 0)] "src" "dst" 100000
      5000 500) 500 66 133 (by decide) (by decide +kernel) (by decide +kernel)
      (by rfl) (by decide) (by decide)
  refine ⟨sampleSizing, [(List.replicate 32 7, 0)], (best.vout, best.fee), ?_, hfee⟩
  rw [QuorumVout, if_neg (lt_irrefl 0)]
  exact ⟨_, hloop, rfl⟩

/-- At half the relay minimum the sample payment owes 66 satoshi and pays none. -/
theorem unpriced_below_rate : ¬∀ (sources : List (Source standIn.PrivateKey)) (src dst : String)
    (amount : Option Int) (feekb : Int) (result : TxResult), 0 < feekb → feekb < 1000 →
    MakeTransaction standIn sampleLockScript sources src dst amount feekb 0 (.ok result) →
    result.tx.vsize * feekb / 1000 ≤ result.fee := by
  intro h
  obtain ⟨sources, result, -, hmade, hfee, hsize⟩ := unpriced_made
  have hpaid := h _ _ _ _ _ _ (by norm_num) (by norm_num) hmade
  rw [hfee, hsize] at hpaid
  omega

theorem low_rate_sample :
    (∃ sources result, MakeTransaction standIn sampleLockScript sources "src" "dst" (some 5000) 500
        0 (.ok result) ∧
      (result.tx.vsize * 500 / 1000 ≤ result.fee ↔
        WalletRateMet standIn sampleLockScript sources "src" "dst" (some 5000) 500)) ∧
      ∃ s txhashes paid, QuorumVout sampleLockScript s txhashes "src" "dst" 100000 5000 500 0
          (.ok paid) ∧
        (vsize (s.transaction txhashes true paid.1.vout) * 500 / 1000 ≤ paid.2 ↔
          RateMet (quorumPricing sampleLockScript s txhashes "src" "dst" 100000 5000 500) 500) := by
  obtain ⟨sources, result, hafford, hmade, -⟩ := unpriced_made
  obtain ⟨s, txhashes, paid, hpaid, -⟩ := unpriced_quorum
  have hrate : (0 : Int) < 500 := by norm_num
  have hiff := low_rate_iff standIn sampleLockScript hrate
  exact ⟨⟨sources, result, hmade, hiff.1 _ _ _ _ _ hafford hmade⟩,
    ⟨s, txhashes, paid, hpaid, hiff.2 _ _ _ _ _ _ _ _ le_rfl hpaid⟩⟩

end Yubtc.LowRates
