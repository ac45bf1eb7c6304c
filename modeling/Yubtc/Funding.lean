import Yubtc.Addresses
import Yubtc.LowRates

/-!
# Funding

Selection stops once the amount and the explicit fee are covered. A fee that is left to the loop
is found afterwards, for the outputs selected for the amount alone.
-/
namespace Yubtc.Funding

open Wire Errors ExceptRules Crypto Script Transaction QuorumPsbt Wallet Scan FeeLoop DirectSigning
  Payment QuorumPayment Confirmations Conservation LowRates

variable {α τ : Type} (P : Primitives) {makeLockScript : String → Except Exn Bytes}

/-- The errors of `make_vout` for a sum that its inputs do not hold. -/
def Insufficient (e : Exn) : Prop :=
  e = .valueError "input does not cover fee" ∨ e = .valueError "amount + fee exceeds input"

instance (e : Exn) : Decidable (Insufficient e) := inferInstanceAs (Decidable (_ ∨ _))

theorem Insufficient.ne {d e : Exn} (he : Insufficient e) (hd : ¬Insufficient d) : d ≠ e := by
  rintro rfl
  exact hd he

/-- An outcome that is the insufficient-funds error. -/
def Raises (x : Except Exn α) : Prop := ∃ e, Insufficient e ∧ x = .error e

theorem coutMake_avoids {e : Exn} (he : Insufficient e) (amount : Int) (script : Bytes) :
    Avoids e (COut.make amount script) :=
  .bind (.reject (he.ne (by decide))) fun _ => .bind (.reject (he.ne (by decide))) fun _ => .ok _

/-- `make_vout` raises it exactly for a sum above its inputs. -/
theorem makeVout_raises
    (hlock : ∀ address e, Insufficient e → Avoids e (makeLockScript address)) {src dst : String}
    {inAmount amount fee : Int} (hamount : 0 < amount) :
    Raises (makeVout makeLockScript src dst inAmount (some amount) fee) ↔
      inAmount < amount + fee := by
  unfold makeVout
  by_cases hfee : inAmount < fee
  · refine iff_of_true ⟨_, .inl rfl, ?_⟩ (by omega)
    rw [reject_true _ hfee]
    rfl
  rw [reject_false _ hfee, ok_bind]
  by_cases hover : inAmount < amount + fee
  · refine iff_of_true ⟨_, .inr rfl, ?_⟩ hover
    rw [reject_true _ ⟨amount, rfl, hover⟩]
    rfl
  · refine iff_of_false ?_ hover
    rintro ⟨e, he, herror⟩
    rw [reject_false _ (by rintro ⟨a, ha, hgt⟩; cases ha; exact hover hgt), ok_bind] at herror
    refine Avoids.bind (hlock dst e he) (fun script => ?_) herror
    split
    · exact .bind (coutMake_avoids he _ _) fun _ => .ok _
    · exact .bind (hlock src e he) fun _ => .bind (coutMake_avoids he _ _) fun _ =>
        .bind (coutMake_avoids he _ _) fun _ => .ok _

theorem cScript_avoids {e : Exn} (he : Insufficient e) (items : List ScriptItem) :
    Avoids e (cScript items) := by
  refine .bind (.mapM (fun item => ?_) items) fun _ => .ok _
  cases item with
  | op code => exact .ok _
  | data d => exact .bind (.reject (he.ne (by decide))) fun _ => .ok _

theorem packQInt_avoids {e : Exn} (he : Insufficient e) (n : Int) : Avoids e (packQInt n) :=
  .bind (.reject (he.ne (by decide))) fun _ => .ok _

theorem taprootSignSighash_avoids {e : Exn} (he : Insufficient e) (key : P.PrivateKey)
    (sighash : Bytes) : Avoids e (taprootSignSighash P key sighash) := by
  unfold taprootSignSighash
  split
  · exact .error (he.ne (by decide))
  · exact .ok _

/-- Signing never raises it. -/
theorem signedInput_avoids {e : Exn} (he : Insufficient e) (self : CTransaction)
    (signers : List (P.PrivateKey × Bytes)) (ctx : Option (List SpendInput)) (i : Nat) :
    Avoids e (signedInput P self signers ctx i) := by
  have hindex : Exn.indexError ≠ e := he.ne (by decide)
  have hcontext : missingSpendContext ≠ e := he.ne (by decide)
  refine .bind (.orElseThrow hindex _) fun signer => .bind (.orElseThrow hindex _) fun own => ?_
  dsimp only
  cases sigSchemeFromScriptPubkey own.script with
  | legacy =>
    exact .bind (.bind (.orElseThrow hindex _) fun _ => cScript_avoids he _) fun _ => .ok _
  | p2wpkh =>
    refine .bind (.orElseThrow hcontext _) fun spend => .bind ?_ fun _ => .ok _
    exact .bind (.orElseThrow hindex _) fun _ => .bind (packQInt_avoids he _) fun _ => .ok _
  | p2tr =>
    refine .bind (.orElseThrow hcontext _) fun spend => .bind (.reject hcontext) fun _ =>
      .bind ?_ fun _ => .bind (taprootSignSighash_avoids P he _ _) fun _ => .ok _
    exact .bind (.bind (.bind (.mapM (fun s => packQInt_avoids he s.amount) spend) fun _ => .ok _)
      fun _ => .ok _) fun _ => .ok _

theorem signSegwit_avoids {e : Exn} (he : Insufficient e) (self : CTransaction)
    (signers : List (P.PrivateKey × Bytes)) (ctx : Option (List SpendInput)) :
    Avoids e (signSegwit P self signers ctx) := by
  rw [signSegwit_eq]
  exact .bind (.reject (he.ne (by decide))) fun _ =>
    .bind (.mapM (signedInput_avoids P he self signers ctx) _) fun _ => .ok _

/-- The length check of a lock script names its payload first. -/
theorem makeLock_avoids {e : Exn} (he : Insufficient e) (s : Shape) {name : String}
    (hname : ∀ rest, ¬Insufficient (.valueError (name ++ rest))) (payload : Bytes) :
    Avoids e (makeLock s name payload) := by
  refine .bind (.reject (he.ne ?_)) fun _ => .ok _
  rw [String.append_assoc, String.append_assoc, String.append_assoc]
  exact hname _

theorem not_insufficient_append {name : String} {c : Char} (hname : name.toList.head? = some c)
    (hc : c ≠ 'a' ∧ c ≠ 'i') (rest : String) : ¬Insufficient (.valueError (name ++ rest)) := by
  have hhead : (name ++ rest).toList.head? = some c := by
    rw [String.toList_append, List.head?_append, hname]
    rfl
  rintro (h | h)
  · have hi : some c = some 'i' := by
      rw [← hhead, Exn.valueError.inj h]
      decide
    exact hc.2 (Option.some.inj hi)
  · have ha : some c = some 'a' := by
      rw [← hhead, Exn.valueError.inj h]
      decide
    exact hc.1 (Option.some.inj ha)

/-- Neither does the lock script of an address. -/
theorem makeLockScript_avoids {e : Exn} (he : Insufficient e) (address : Text.Str) :
    Avoids e (Addresses.makeLockScript P address) := by
  have hsegwit : ∀ d, Exn.segWit d ≠ e := fun d => he.ne (by simp [Insufficient])
  unfold Addresses.makeLockScript
  split
  · split
    · exact makeLock_avoids he _ (not_insufficient_append rfl (by decide)) _
    · cases Addresses.decodeSegwitAddr address with
      | error d => exact .error (hsegwit d)
      | ok wp =>
        show Avoids e (if wp.version = 0 then _ else _)
        split
        · exact makeLock_avoids he _ (not_insufficient_append rfl (by decide)) _
        · exact makeLock_avoids he _ (not_insufficient_append rfl (by decide)) _
    · exact .error (hsegwit _)
  · refine .bind (.bind (.bind (.orElseThrow (he.ne (by decide)) _) fun _ =>
      .bind (.reject (he.ne (by decide))) fun _ => .ok _) fun payload => ?_) fun unpacked => ?_
    · cases payload with
      | nil => exact .error (he.ne (by decide))
      | cons version rest => exact .ok _
    · dsimp only
      split
      · exact cScript_avoids he _
      · split
        · exact cScript_avoids he _
        · exact .error (he.ne (by decide))

/-- The choice among candidates never raises it. -/
theorem pickBest_avoids {e : Exn} (he : Insufficient e) (bySize : BySize τ)
    (feekb minRelayPerKb : Int) : Avoids e (pickBestFeeLoopCandidate bySize feekb minRelayPerKb) := by
  unfold pickBestFeeLoopCandidate
  dsimp only
  split
  · exact .ok _
  · split
    · exact .error (he.ne (by decide))
    · exact .error (he.ne (by decide))
    · exact .ok _

/-- The funds hold the amount and every fee that is tried. -/
def Affords (p : Pricing τ) (amount funds : Int) : Prop := ∀ fee, Tries p fee → amount + fee ≤ funds

/-- A loop raises it exactly when the funds fall short of a fee that is tried. -/
theorem loop_raises_iff {p : Pricing τ} {feekb amount funds : Int}
    {result : Except Exn (Candidate τ)}
    (hbuild : ∀ fee, Raises (p.build fee) ↔ funds < amount + fee)
    (hprice : ∀ size e, Insufficient e → Avoids e (p.newFee size))
    (h : FeeLoopReturns p feekb result) : Raises result ↔ ¬Affords p amount funds := by
  simp only [Affords, not_forall, not_le]
  constructor
  · rintro ⟨e, he, rfl⟩
    obtain ⟨tried, htried, hresult⟩ := h
    rcases feeLoop_ends htried with ⟨fee, e', htries, hstuck, rfl, -⟩ | ⟨bySize, rfl, -⟩
    · cases hresult
      refine ⟨fee, htries, ?_⟩
      rcases hstuck with hstuck | ⟨built, -, hstuck⟩
      · exact (hbuild fee).mp ⟨e, he, hstuck⟩
      · exact absurd hstuck (hprice _ e he)
    · rw [ok_bind] at hresult
      exact (Avoids.bind (pickBest_avoids he _ _ _) (fun _ => .ok _) hresult.symm).elim
  · rintro ⟨fee, htries, hshort⟩
    obtain ⟨e, he, hrefused⟩ := (hbuild fee).mpr hshort
    exact ⟨e, he, feeLoop_refused h htries hrefused⟩

section

variable {P}

theorem build_raises (hlock : ∀ address e, Insufficient e → Avoids e (makeLockScript address))
    {inputs : Inputs P} {src dst : String} {amount fee : Int} (hamount : 0 < amount) :
    Raises (buildTransaction P makeLockScript inputs src dst (some amount) fee) ↔
      inputs.inAmount < amount + fee := by
  rw [← @makeVout_raises makeLockScript hlock src dst inputs.inAmount amount fee hamount]
  constructor
  · rintro ⟨e, he, herror⟩
    refine ⟨e, he, ?_⟩
    rcases bind_eq_error.mp herror with hvout | ⟨voutResult, -, hsign⟩
    · exact hvout
    · exact (Avoids.bind (signSegwit_avoids P he _ _ _) (fun _ => .ok _) hsign).elim
  · rintro ⟨e, he, hvout⟩
    exact ⟨e, he, bind_eq_error.mpr (.inl hvout)⟩

/-- What a scan collects comes first in what a scan without a target collects. -/
theorem scan_prefix {κ : Type} {chain : ChainState} {ring : Keyring κ} {addrType : AddrType}
    {target : Option Int} {result all : List (Source κ) × String}
    (h : Complete chain ring addrType target result)
    (hall : Complete chain ring addrType none all) : result.1 <+: all.1 := by
  have hmono : ∀ {m n : Nat}, m ≤ n → heldBelow chain ring m <+: heldBelow chain ring n := by
    intro m n hle
    induction n, hle using Nat.le_induction with
    | base => exact List.prefix_rfl
    | succ n _ ih =>
      rw [heldBelow_succ]
      exact ih.trans (List.prefix_append _ _)
  rcases hall with ⟨_, _, _, hnone, -⟩ | ⟨gap, hgap, hused, -, rfl⟩
  · cases hnone
  · show result.1 <+: heldBelow chain ring gap
    rcases h with ⟨_, k, _, -, hreached, -, -, -, rfl⟩ | ⟨gap', -, hreached, -, rfl⟩
    · refine hmono ?_
      by_contra hlt
      exact hgap (hreached gap (by omega))
    · refine hmono ?_
      by_contra hlt
      exact hgap (hreached gap (by omega))

theorem makeVin_prefix {sources all : List (Source P.PrivateKey)} {inputs : Inputs P}
    (hpre : sources <+: all) (h : makeVin P all = .ok inputs) :
    ∃ first, makeVin P sources = .ok first := by
  obtain ⟨rest, rfl⟩ := hpre
  rw [makeVin, List.foldlM_append] at h
  obtain ⟨first, hfirst, -⟩ := bind_eq_ok.mp h
  exact ⟨first, hfirst⟩

end

/-- Some fee pays for the transaction that is built with it, and leaves change. -/
def PaysWithChange (p : Pricing τ) (amount funds feekb : Int) : Prop :=
  ∃ fee built, p.build fee = .ok built ∧ amount + fee < funds ∧
    p.vsize built.2 * feekb / 1000 ≤ fee

/-- The outputs on the nonces before the first unused one pay for spending all of them. -/
def WalletFunded (makeLockScript : String → Except Exn Bytes) (chain : ChainState)
    (ring : Keyring P.PrivateKey) (addrType : AddrType) (confirmations : Int) (dst : String)
    (amount feekb : Int) : Prop :=
  ∃ all gapAddr inputs, ScanInputs chain ring addrType none confirmations (all, gapAddr) ∧
    makeVin P all = .ok inputs ∧
    PaysWithChange (transactionPricing P makeLockScript inputs gapAddr dst (some amount) feekb)
      amount inputs.inAmount feekb

/-- What is selected for the amount holds the fees as well. -/
def WalletAffords (makeLockScript : String → Except Exn Bytes)
    (sources : List (Source P.PrivateKey)) (src dst : String) (amount feekb : Int) : Prop :=
  ∀ inputs, makeVin P sources = .ok inputs →
    Affords (transactionPricing P makeLockScript inputs src dst (some amount) feekb) amount
      inputs.inAmount

theorem raises_map {β : Type} (f : α → β) (x : Except Exn α) : Raises (x.map f) ↔ Raises x := by
  cases x with
  | error e => simp [Raises, Except.map]
  | ok a => simp [Raises, Except.map]

/-- A scanning payment that is funded raises the error exactly when its selection falls short. -/
theorem wallet_raises_iff
    (hlock : ∀ address e, Insufficient e → Avoids e (makeLockScript address))
    {chain : ChainState} {ring : Keyring P.PrivateKey} {addrType : AddrType} {confirmations : Int}
    {sources : List (Source P.PrivateKey)} {src dst : String} {amount feekb : Int}
    {result : Except Exn TxResult} (hamount : 0 < amount)
    (hscan : ScanInputs chain ring addrType (some amount) confirmations (sources, src))
    (h : MakeTransaction P makeLockScript sources src dst (some amount) feekb 0 result)
    (hfunded : WalletFunded P makeLockScript chain ring addrType confirmations dst amount feekb) :
    ¬Raises result ↔ WalletAffords P makeLockScript sources src dst amount feekb := by
  obtain ⟨all, gapAddr, inputsAll, hall, hvinAll, -⟩ := hfunded
  have hpre := scan_prefix (complete_of_scanInputs hscan) (complete_of_scanInputs hall)
  obtain ⟨inputs, hvin⟩ := makeVin_prefix hpre hvinAll
  unfold MakeTransaction at h
  rw [hvin] at h
  obtain ⟨best, hloop, rfl⟩ := h
  have hprice : ∀ size e, Insufficient e → Avoids e
      ((transactionPricing P makeLockScript inputs src dst (some amount) feekb).newFee size) :=
    fun size e he => .orElseThrow (he.ne (by decide)) _
  rw [raises_map, loop_raises_iff (fun fee => build_raises hlock hamount) hprice hloop, not_not]
  simp [WalletAffords, hvin]

section

variable {s : QuorumSizing} {txhashes : List (Bytes × UInt32)} {quorumAddr dst : String}
  {inAmount amount feekb : Int}

/-- The unpriced transaction of a quorum is the largest one, so its price decides. -/
theorem quorum_affords_iff (hrate : minRelayTxFee ≤ feekb) :
    Affords (quorumPricing makeLockScript s txhashes quorumAddr dst inAmount amount feekb) amount
        inAmount ↔
      amount + sizeAt (quorumPricing makeLockScript s txhashes quorumAddr dst inAmount amount
        feekb) 0 * feekb / 1000 ≤ inAmount := by
  have hrate' : (1000 : Int) ≤ feekb := hrate
  cases hfirst : (quorumPricing makeLockScript s txhashes quorumAddr dst inAmount amount
      feekb).build 0 with
  | error e =>
    have honly : ∀ fee, Tries (quorumPricing makeLockScript s txhashes quorumAddr dst inAmount
        amount feekb) fee → fee = 0 := by
      intro fee htries
      induction htries with
      | first => rfl
      | next _ hbuild _ ih =>
        rw [ih, hfirst] at hbuild
        cases hbuild
    have hsize : sizeAt (quorumPricing makeLockScript s txhashes quorumAddr dst inAmount amount
        feekb) 0 = 0 := by
      simp [sizeAt, hfirst]
    rw [hsize]
    constructor
    · intro h
      have hzero := h 0 .first
      omega
    · intro h fee htries
      rw [honly fee htries]
      omega
  | ok first =>
    rw [sizeAt_of_build hfirst]
    constructor
    · intro h
      exact h _ (.next .first hfirst rfl)
    · intro h fee htries
      have hroom := quorum_built_le hfirst
      have hpos := psbt_vsize_pos first.2
      have hprice : (vsize first.2 : Int) * 1000 ≤ vsize first.2 * feekb :=
        Int.mul_le_mul_of_nonneg_left hrate' (by omega)
      have hsize : (quorumPricing makeLockScript s txhashes quorumAddr dst inAmount amount
        feekb).vsize first.2 = vsize first.2 := rfl
      rw [hsize] at h
      cases htries with
      | first => omega
      | next _ hbuild hfee =>
        cases hfee
        have hle := quorum_size_le hbuild hfirst (fun hexact => by omega)
        have hmul := Int.mul_le_mul_of_nonneg_right (Int.ofNat_le.mpr hle) (by omega : 0 ≤ feekb)
        have hdiv := Int.ediv_le_ediv (by decide : (0 : Int) < 1000) hmul
        exact (Int.add_le_add_left hdiv amount).trans h

end

/-- The outputs that a quorum payment may spend. -/
def confirmed (chain : ChainState) (quorumAddr : String) (confirmations : Int) : List Utxo :=
  (chain.unspent quorumAddr).filter fun u => decide (confirmations ≤ u.confirmations)

/-- The confirmed outputs of a quorum pay for spending all of them. -/
def QuorumFunded (makeLockScript : String → Except Exn Bytes) (chain : ChainState) (form : MsForm)
    (m : Nat) (redeem : Bytes) (quorumAddr dst : String) (confirmations amount feekb : Int) : Prop :=
  ∃ prepared, prepare P form m redeem (confirmed chain quorumAddr confirmations) = .ok prepared ∧
    PaysWithChange (quorumPricing makeLockScript prepared.sizing prepared.txhashes quorumAddr dst
        (amountOf (confirmed chain quorumAddr confirmations)) amount feekb)
      amount (amountOf (confirmed chain quorumAddr confirmations)) feekb

/-- What is selected for the amount holds the price of the transaction built without a fee. -/
def QuorumAffords (makeLockScript : String → Except Exn Bytes) (prepared : Prepared)
    (quorumAddr dst : String) (selected : List Utxo) (amount feekb : Int) : Prop :=
  amount + sizeAt (quorumPricing makeLockScript prepared.sizing prepared.txhashes quorumAddr dst
    (amountOf selected) amount feekb) 0 * feekb / 1000 ≤ amountOf selected

theorem quorum_raises_iff
    (hlock : ∀ address e, Insufficient e → Avoids e (makeLockScript address))
    {prepared : Prepared} {quorumAddr dst : String} {selected : List Utxo} {amount feekb : Int}
    {paid : Except Exn (VoutResult × Int)} (hamount : 0 < amount) (hrate : minRelayTxFee ≤ feekb)
    (h : QuorumVout makeLockScript prepared.sizing prepared.txhashes quorumAddr dst
      (amountOf selected) amount feekb 0 paid) :
    ¬Raises paid ↔ QuorumAffords makeLockScript prepared quorumAddr dst selected amount feekb := by
  rw [QuorumVout, if_neg (lt_irrefl 0)] at h
  obtain ⟨best, hloop, rfl⟩ := h
  have hbuild : ∀ fee, Raises ((quorumPricing makeLockScript prepared.sizing prepared.txhashes
      quorumAddr dst (amountOf selected) amount feekb).build fee) ↔
        (amountOf selected : Int) < amount + fee := by
    intro fee
    rw [← @makeVout_raises makeLockScript hlock quorumAddr dst (amountOf selected) amount fee
      hamount]
    constructor
    · rintro ⟨e, he, herror⟩
      rcases bind_eq_error.mp herror with hvout | ⟨_, -, hok⟩
      · exact ⟨e, he, hvout⟩
      · cases hok
    · rintro ⟨e, he, hvout⟩
      exact ⟨e, he, bind_eq_error.mpr (.inl hvout)⟩
  rw [raises_map, loop_raises_iff hbuild (fun _ _ _ => .ok _) hloop, not_not,
    quorum_affords_iff hrate]
  rfl

/-- A loop whose first price is refused ends with the refusal. -/
theorem refused_returns {p : Pricing τ} {feekb fee : Int} {first : VoutResult × τ} {e : Exn}
    (hfirst : p.build 0 = .ok first) (hfee : p.newFee (p.vsize first.2) = .ok fee)
    (hrefused : p.build fee = .error e) : FeeLoopReturns p feekb (.error e) := by
  have hround := feeRound_first hfirst hfee
  refine ⟨.error e, (Loop.returns_of_next hround).mpr (.stop ?_), rfl⟩
  simp [feeRound, hrefused]

/-- With the fee left to the loop, a funded payment raises no insufficient-funds error exactly
when the outputs selected for the amount alone hold the fees as well. -/
theorem funding_complete_iff
    (hlock : ∀ address e, Insufficient e → Avoids e (makeLockScript address)) {amount feekb : Int}
    (hamount : 0 < amount) (hrate : minRelayTxFee ≤ feekb) :
    (∀ (chain : ChainState) (ring : Keyring P.PrivateKey) (addrType : AddrType)
        (confirmations : Int) (sources : List (Source P.PrivateKey)) (src dst : String)
        (result : Except Exn TxResult),
        ScanInputs chain ring addrType (some amount) confirmations (sources, src) →
        MakeTransaction P makeLockScript sources src dst (some amount) feekb 0 result →
        WalletFunded P makeLockScript chain ring addrType confirmations dst amount feekb →
        (¬Raises result ↔ WalletAffords P makeLockScript sources src dst amount feekb)) ∧
      ∀ (chain : ChainState) (form : MsForm) (m : Nat) (redeem : Bytes) (quorumAddr dst : String)
        (confirmations : Int) (prepared : Prepared) (paid : Except Exn (VoutResult × Int)),
        prepare P form m redeem (msSelected chain quorumAddr confirmations amount 0) =
          .ok prepared →
        QuorumVout makeLockScript prepared.sizing prepared.txhashes quorumAddr dst
          (amountOf (msSelected chain quorumAddr confirmations amount 0)) amount feekb 0 paid →
        QuorumFunded P makeLockScript chain form m redeem quorumAddr dst confirmations amount
          feekb →
        (¬Raises paid ↔ QuorumAffords makeLockScript prepared quorumAddr dst
          (msSelected chain quorumAddr confirmations amount 0) amount feekb) := by
  constructor
  · intro chain ring addrType confirmations sources src dst result hscan h hfunded
    exact wallet_raises_iff P hlock hamount hscan h hfunded
  · intro chain form m redeem quorumAddr dst confirmations prepared paid _ h _
    exact quorum_raises_iff hlock hamount hrate h

theorem sampleLockScript_avoids (address : String) (e : Exn) (_ : Insufficient e) :
    Avoids e (sampleLockScript address) := .ok _

/-- The script of a sample key, and an output that pays it. -/
def keyScript (k : standIn.PrivateKey) : Bytes :=
  p2wpkhShape.build (hash160 standIn (privkey2pubkey standIn k))

def keyUtxo (k : standIn.PrivateKey) (amount : Nat) : Utxo :=
  ⟨Net.hex (List.replicate 32 9), 0, amount, Net.hex (keyScript k), 6⟩

def firstKey : standIn.PrivateKey := (5 : Nat)

def secondKey : standIn.PrivateKey := (6 : Nat)

def keyAddress (k : Nat) (t : AddrType) : String :=
  if t = .native then if k = 5 then "bc1q0" else if k = 6 then "bc1q1" else "other" else "other"

/-- Two nonces that were paid at their P2WPKH addresses. -/
def twoRing : Keyring standIn.PrivateKey where
  seed2privkey := fun n _ => (n + 5 : Nat)
  addressForKey := keyAddress

/-- The first nonce holds 5000 satoshi, the second one 100000. -/
def twoChain : ChainState where
  totalReceived := fun address =>
    if address = "bc1q0" then 5000 else if address = "bc1q1" then 100000 else 0
  unspent := fun address =>
    if address = "bc1q0" then [keyUtxo firstKey 5000]
    else if address = "bc1q1" then [keyUtxo secondKey 100000] else []
  unspent_nil := by
    intro address
    split
    · simp
    · split <;> simp

def firstSource : Source standIn.PrivateKey :=
  (⟨0, .native, firstKey, "bc1q0"⟩, [keyUtxo firstKey 5000])

def secondSource : Source standIn.PrivateKey :=
  (⟨1, .native, secondKey, "bc1q1"⟩, [keyUtxo secondKey 100000])

theorem twoChain_first :
    ScanInputs twoChain twoRing .native (some 5000) 1 ([firstSource], "bc1q0") := ⟨1, rfl⟩

theorem twoChain_all :
    ScanInputs twoChain twoRing .native none 1 ([firstSource, secondSource], "other") := ⟨3, rfl⟩

theorem nines_length : (List.replicate 32 (9 : UInt8)).length = 32 := List.length_replicate

def firstInputs : Inputs standIn :=
  ⟨[⟨List.replicate 32 9, nines_length, 0, keyScript firstKey, 0xffffffff, []⟩], 5000,
    [(firstKey, privkey2pubkey standIn firstKey)], [⟨5000, keyScript firstKey⟩]⟩

def allInputs : Inputs standIn :=
  ⟨firstInputs.vin ++
      [⟨List.replicate 32 9, nines_length, 0, keyScript secondKey, 0xffffffff, []⟩], 105000,
    firstInputs.signers ++ [(secondKey, privkey2pubkey standIn secondKey)],
    firstInputs.spend ++ [⟨100000, keyScript secondKey⟩]⟩

theorem addInput_keyUtxo {k : standIn.PrivateKey} {amount : Nat} (inputs : Inputs standIn)
    (hform : validateUtxoScript (keyScript k) = .ok .p2wpkh)
    (hkey : requireKey standIn (privkey2pubkey standIn k) (keyScript k) .p2wpkh = .ok ()) :
    addInput standIn k inputs (keyUtxo k amount) = .ok
      ⟨inputs.vin ++ [⟨List.replicate 32 9, nines_length, 0, keyScript k, 0xffffffff, []⟩],
        inputs.inAmount + amount, inputs.signers ++ [(k, privkey2pubkey standIn k)],
        inputs.spend ++ [⟨amount, keyScript k⟩]⟩ := by
  have hscript : fromHex (keyUtxo k amount).script = .ok (keyScript k) := fromHex_hex _
  have htx : fromHex (keyUtxo k amount).tx = .ok (List.replicate 32 9) := fromHex_hex _
  unfold addInput
  rw [hscript, ok_bind, hform, ok_bind, hkey, ok_bind, htx, ok_bind]
  rfl

theorem foldlM_firstKey : [keyUtxo firstKey 5000].foldlM (addInput standIn firstKey)
    (noInputs standIn) = .ok firstInputs := by
  rw [List.foldlM_cons, addInput_keyUtxo _ (by decide +kernel) (by decide +kernel), ok_bind]
  rfl

theorem foldlM_secondKey : [keyUtxo secondKey 100000].foldlM (addInput standIn secondKey)
    firstInputs = .ok allInputs := by
  rw [List.foldlM_cons, addInput_keyUtxo _ (by decide +kernel) (by decide +kernel), ok_bind]
  rfl

theorem makeVin_first : makeVin standIn [firstSource] = .ok firstInputs := by
  rw [makeVin, List.foldlM_cons, firstSource, foldlM_firstKey]
  rfl

theorem makeVin_all : makeVin standIn [firstSource, secondSource] = .ok allInputs := by
  rw [makeVin, List.foldlM_cons, firstSource, foldlM_firstKey, ok_bind, List.foldlM_cons,
    secondSource, foldlM_secondKey]
  rfl

/-- The first output is the amount, so the price of spending it is refused. -/
theorem wallet_loop_refused : ∃ e, Insufficient e ∧ FeeLoopReturns
    (transactionPricing standIn sampleLockScript firstInputs "bc1q0" "dst" (some 5000) 1000) 1000
      (.error e) := by
  obtain ⟨first, hfirst, hsize⟩ := @built_of_sizeAt _
    (transactionPricing standIn sampleLockScript firstInputs "bc1q0" "dst" (some 5000) 1000) 0 101
    (by decide +kernel) (by decide)
  obtain ⟨e, he, hrefused⟩ := (@build_raises standIn sampleLockScript sampleLockScript_avoids
    firstInputs "bc1q0" "dst" 5000 101 (by decide)).mpr (by decide)
  exact ⟨e, he, refused_returns hfirst (hsize ▸ rfl) hrefused⟩

theorem wallet_funded :
    WalletFunded standIn sampleLockScript twoChain twoRing .native 1 "dst" 5000 1000 := by
  obtain ⟨built, hbuild, hsize⟩ := @built_of_sizeAt _
    (transactionPricing standIn sampleLockScript allInputs "other" "dst" (some 5000) 1000) 191 191
    (by decide +kernel) (by decide)
  refine ⟨_, _, allInputs, twoChain_all, makeVin_all, 191, built, hbuild, by decide, ?_⟩
  rw [hsize]
  decide

/-- A funded payment that raises the error. -/
theorem wallet_refused : ∃ chain ring sources src result,
    ScanInputs chain ring .native (some 5000) 1 (sources, src) ∧
      MakeTransaction standIn sampleLockScript sources src "dst" (some 5000) 1000 0 result ∧
      WalletFunded standIn sampleLockScript chain ring .native 1 "dst" 5000 1000 ∧ Raises result := by
  obtain ⟨e, he, hloop⟩ := wallet_loop_refused
  refine ⟨twoChain, twoRing, [firstSource], "bc1q0", .error e, twoChain_first, ?_, wallet_funded,
    e, he, rfl⟩
  unfold MakeTransaction
  rw [makeVin_first]
  exact ⟨_, hloop, rfl⟩

theorem funded_not_complete :
    ¬∀ (chain : ChainState) (ring : Keyring standIn.PrivateKey) (addrType : AddrType)
      (confirmations amount feekb : Int) (sources : List (Source standIn.PrivateKey))
      (src dst : String) (result : Except Exn TxResult), 0 < amount → minRelayTxFee ≤ feekb →
      ScanInputs chain ring addrType (some amount) confirmations (sources, src) →
      MakeTransaction standIn sampleLockScript sources src dst (some amount) feekb 0 result →
      WalletFunded standIn sampleLockScript chain ring addrType confirmations dst amount feekb →
        ¬Raises result := by
  intro h
  obtain ⟨chain, ring, sources, src, result, hscan, hmade, hfunded, hraises⟩ := wallet_refused
  exact h _ _ _ _ _ _ _ _ _ _ (by decide) (by decide) hscan hmade hfunded hraises

/-- A quorum address with two outputs, the first one of 5000 satoshi. -/
def quorumChain : ChainState where
  totalReceived := fun _ => 105000
  unspent := fun _ => [⟨Net.hex (List.replicate 32 9), 0, 5000, "", 6⟩,
    ⟨Net.hex (List.replicate 32 8), 0, 100000, "", 6⟩]
  unspent_nil := by simp

theorem outpointOf_hex (data : Bytes) (amount : Nat) :
    outpointOf ⟨Net.hex data, 0, amount, "", 6⟩ = .ok (data, 0) := by
  have htx : fromHex (Utxo.tx ⟨Net.hex data, 0, amount, "", 6⟩) = .ok data := fromHex_hex data
  rw [outpointOf, htx, ok_bind]
  rfl

theorem prepare_sample {utxos : List Utxo} {txhashes : List (Bytes × UInt32)}
    (h : utxos.mapM outpointOf = .ok txhashes) :
    ∃ script, prepare standIn .p2wsh 1 [] utxos = .ok ⟨script, sampleSizing, txhashes⟩ := by
  have hscript : msQuorumLockScript standIn .p2wsh [] =
      .ok (p2wshShape.build (standIn.sha256 [])) := by decide +kernel
  refine ⟨p2wshShape.build (standIn.sha256 []), ?_⟩
  rw [prepare, hscript, ok_bind, h]
  rfl

theorem quorumChain_selected :
    msSelected quorumChain "quorum" 1 5000 0 = [⟨Net.hex (List.replicate 32 9), 0, 5000, "", 6⟩] :=
  rfl

theorem quorumChain_confirmed : confirmed quorumChain "quorum" 1 = quorumChain.unspent "quorum" :=
  rfl

/-- The first output is the amount here too. -/
theorem quorum_refused : ∃ chain prepared paid,
    prepare standIn .p2wsh 1 [] (msSelected chain "quorum" 1 5000 0) = .ok prepared ∧
      QuorumVout sampleLockScript prepared.sizing prepared.txhashes "quorum" "dst"
        (amountOf (msSelected chain "quorum" 1 5000 0)) 5000 1000 0 paid ∧
      QuorumFunded standIn sampleLockScript chain .p2wsh 1 [] "quorum" "dst" 1 5000 1000 := by
  obtain ⟨script, hselected⟩ := @prepare_sample (msSelected quorumChain "quorum" 1 5000 0)
    [(List.replicate 32 9, 0)] (by
      rw [quorumChain_selected, List.mapM_cons, outpointOf_hex]
      rfl)
  obtain ⟨allScript, hconfirmed⟩ := @prepare_sample (confirmed quorumChain "quorum" 1)
    [(List.replicate 32 9, 0), (List.replicate 32 8, 0)] (by
      rw [quorumChain_confirmed, quorumChain, List.mapM_cons, outpointOf_hex, List.mapM_cons,
        outpointOf_hex]
      rfl)
  obtain ⟨first, hfirst, hsize⟩ := @built_of_sizeAt _ (quorumPricing sampleLockScript sampleSizing
    [(List.replicate 32 9, 0)] "quorum" "dst" 5000 5000 1000) 0 102 (by decide +kernel) (by decide)
  obtain ⟨all, hall, hallSize⟩ := @built_of_sizeAt _ (quorumPricing sampleLockScript sampleSizing
    [(List.replicate 32 9, 0), (List.replicate 32 8, 0)] "quorum" "dst" 105000 5000 1000) 193 193
    (by decide +kernel) (by decide)
  obtain ⟨e, he, hvout⟩ := (@makeVout_raises sampleLockScript sampleLockScript_avoids "quorum" "dst"
    5000 5000 102 (by decide)).mpr (by decide)
  have hrefused : (quorumPricing sampleLockScript sampleSizing [(List.replicate 32 9, 0)] "quorum"
      "dst" 5000 5000 1000).build 102 = .error e := bind_eq_error.mpr (.inl hvout)
  refine ⟨quorumChain, _, .error e, hselected, ?_, _, hconfirmed, 193, all, hall, by decide, ?_⟩
  · rw [QuorumVout, if_neg (lt_irrefl 0)]
    exact ⟨_, refused_returns hfirst (hsize ▸ rfl) hrefused, rfl⟩
  · show ((vsize all.2 : Nat) : Int) * 1000 / 1000 ≤ 193
    rw [show vsize all.2 = 193 from hallSize]
    decide

theorem funding_complete_sample :
    (∃ chain ring sources src result,
      ScanInputs chain ring .native (some 5000) 1 (sources, src) ∧
        MakeTransaction standIn sampleLockScript sources src "dst" (some 5000) 1000 0 result ∧
        (¬Raises result ↔
          WalletAffords standIn sampleLockScript sources src "dst" 5000 1000)) ∧
      ∃ chain prepared paid,
        prepare standIn .p2wsh 1 [] (msSelected chain "quorum" 1 5000 0) = .ok prepared ∧
          QuorumVout sampleLockScript prepared.sizing prepared.txhashes "quorum" "dst"
            (amountOf (msSelected chain "quorum" 1 5000 0)) 5000 1000 0 paid ∧
          (¬Raises paid ↔ QuorumAffords sampleLockScript prepared "quorum" "dst"
            (msSelected chain "quorum" 1 5000 0) 5000 1000) := by
  obtain ⟨chain, ring, sources, src, result, hscan, hmade, hfunded, -⟩ := wallet_refused
  obtain ⟨msChain, prepared, paid, hprepared, hpaid, hmsFunded⟩ := quorum_refused
  have hamount : (0 : Int) < 5000 := by decide
  have hrate : minRelayTxFee ≤ 1000 := le_rfl
  have hiff := funding_complete_iff standIn sampleLockScript_avoids hamount hrate
  exact ⟨⟨chain, ring, sources, src, result, hscan, hmade,
      hiff.1 _ _ _ _ _ _ _ _ hscan hmade hfunded⟩,
    ⟨msChain, prepared, paid, hprepared, hpaid,
      hiff.2 _ _ _ _ _ _ _ _ _ hprepared hpaid hmsFunded⟩⟩

end Yubtc.Funding
