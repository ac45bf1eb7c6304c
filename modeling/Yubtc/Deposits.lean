import Yubtc.Addresses
import Yubtc.Conservation
import Yubtc.KeySpends

/-!
# What is paid to the wallet

The wallet shows three addresses for a key. An output that somebody pays to one of them is an input
of the wallet: the builder takes it and the signer signs it, so that a payment fails only for want
of money.
-/
namespace Yubtc.Deposits

open Wire Text Errors ExceptRules Crypto Script Transaction Wallet Scan FeeLoop DirectSigning
  Payment Pipeline Conservation Addresses KeySpends TaprootKeys

section

variable (P : Primitives)

/-- `_address_for_key`. -/
def addressForKey (privkey : P.PrivateKey) : AddrType → Except Exn Str
  | .native => pubkey2segwitAddr P (privkey2pubkey P privkey)
  | .taproot => pubkey2taprootAddr P (privkey2pubkey P privkey)
  | .legacy => .ok (pubkey2addr P (privkey2pubkey P privkey))

/-- `make_lock_script`, of an address as the wallet keeps it. -/
def lockScript (address : String) : Except Exn Bytes := makeLockScript P (str address)

/-- The address is one of those of the key. -/
def IsAddress (key : P.PrivateKey) (address : String) : Prop :=
  ∃ t, addressForKey P key t = .ok (str address)

/-- An output that was paid to an address of the key, as the chain lists it. -/
structure Deposit (key : P.PrivateKey) (u : Utxo) : Prop where
  script : ∃ address lock, IsAddress P key address ∧ lockScript P address = .ok lock ∧
    fromHex u.script = .ok lock
  txhash : ∃ txhash, fromHex u.tx = .ok txhash ∧ txhash.length = 32
  n : u.outN ≤ 0xffffffff

/-- Every output of the sources is a deposit. -/
def AllDeposits (sources : List (Source P.PrivateKey)) : Prop :=
  ∀ o ∈ owned sources, Deposit P o.1 o.2

end

variable {P : Primitives}

/-- Whatever is paid to an address of a key is locked by a script of the key. -/
theorem IsAddress.locks (hP : P.Lawful) (hb : StandardBase58 P) {key : P.PrivateKey}
    {address : String} (h : IsAddress P key address) :
    ∃ lock, lockScript P address = .ok lock ∧ OwnLock P (privkey2pubkey P key) lock := by
  obtain ⟨t, ht⟩ := h
  have hlen : (privkey2pubkey P key).length = 33 := hP.format_length _
  rw [lockScript]
  cases t with
  | legacy =>
    rw [← Except.ok.inj ht]
    exact ⟨_, (pubkey2addr_pays hP hb _).1, .p2pkh⟩
  | native =>
    obtain ⟨address', haddress, hpays⟩ := pubkey2segwitAddr_pays hP hlen
    cases haddress.symm.trans ht
    exact ⟨_, hpays.1, .p2wpkh⟩
  | taproot =>
    obtain ⟨output, houtput, hpays⟩ := pubkey2taprootAddr_pays hP ht
    exact ⟨_, hpays.1, .p2tr output houtput⟩

/-- The input builder takes the scripts of its key. -/
theorem requireKey_own (hP : P.Lawful) {pubkey lock : Bytes} (h : OwnLock P pubkey lock) :
    ∃ form, validateUtxoScript lock = .ok form ∧ requireKey P pubkey lock form = .ok () := by
  have hbuilt : ∀ (s : Shape) (e : Exn) {payload : Bytes}, payload.length = s.size →
      extract s e (s.build payload) = .ok payload :=
    fun s e _ hlen => extract_eq_ok.mpr ⟨s.build_fits _ hlen, s.payload_build _ hlen⟩
  cases h with
  | p2pkh =>
    have hlen := hash160_length P hP pubkey
    have hscript : script2pkh (p2pkhShape.build (hash160 P pubkey)) = .ok (hash160 P pubkey) :=
      hbuilt _ _ hlen
    have hsize : (p2pkhShape.build (hash160 P pubkey)).length = 25 := by
      simp [Shape.build, p2pkhShape, hlen]
    refine ⟨.p2pkh, ?_, ?_⟩
    · rw [validateUtxoScript, if_pos hsize, hscript]
      rfl
    · rw [requireKey, hscript, ok_bind, reject_false _ (not_not.mpr rfl)]
  | p2wpkh =>
    have hlen := hash160_length P hP pubkey
    have hscript : extractP2wpkhHash (p2wpkhShape.build (hash160 P pubkey)) =
        .ok (hash160 P pubkey) := hbuilt _ _ hlen
    have hsize : (p2wpkhShape.build (hash160 P pubkey)).length = 22 := by
      simp [Shape.build, p2wpkhShape, hlen]
    refine ⟨.p2wpkh, ?_, ?_⟩
    · rw [validateUtxoScript, hsize, if_neg (by decide), if_neg (by decide), if_pos rfl, hscript]
      rfl
    · rw [requireKey, hscript, ok_bind, reject_false _ (not_not.mpr rfl)]
  | p2tr output hout =>
    have hlen := taprootOutputKey_length hP hout
    have hscript : extractP2trOutputKey (p2trShape.build output) = .ok output := hbuilt _ _ hlen
    have hsize : (p2trShape.build output).length = 34 := by
      simp [Shape.build, p2trShape, hlen]
    refine ⟨.p2tr, ?_, ?_⟩
    · rw [validateUtxoScript, hsize, if_neg (by decide), if_neg (by decide), if_neg (by decide),
        if_pos rfl, hscript]
      rfl
    · rw [requireKey, hscript, ok_bind, hout, ok_bind, reject_false _ (not_not.mpr rfl)]

theorem make_ok {txhash : Bytes} (hlen : txhash.length = 32) {n : Nat} (hn : n ≤ 0xffffffff)
    (script : Bytes) : ∃ vin, CIn.make txhash n script 0xffffffff [] = .ok vin := by
  rw [CIn.make, dif_pos hlen, reject_false _ (by omega), ok_bind, reject_false _ (by omega), ok_bind,
    reject_false _ (by decide), ok_bind, reject_false _ (by decide), ok_bind]
  exact ⟨_, rfl⟩

/-- A deposit is an input. -/
theorem addInput_deposit (hP : P.Lawful) (hb : StandardBase58 P) {key : P.PrivateKey} {u : Utxo}
    (h : Deposit P key u) (inputs : Inputs P) : ∃ more, addInput P key inputs u = .ok more := by
  obtain ⟨address, lock, haddress, hlock, hscript⟩ := h.script
  obtain ⟨lock', hlock', hown⟩ := haddress.locks hP hb
  cases hlock.symm.trans hlock'
  obtain ⟨form, hform, hkey⟩ := requireKey_own hP hown
  obtain ⟨txhash, htxhash, hlen⟩ := h.txhash
  obtain ⟨vin, hvin⟩ := make_ok hlen h.n lock
  rw [addInput, hscript, ok_bind, hform, ok_bind, hkey, ok_bind, htxhash, ok_bind, hvin]
  exact ⟨_, rfl⟩

theorem foldlM_deposits (hP : P.Lawful) (hb : StandardBase58 P)
    {utxos : List (P.PrivateKey × Utxo)} (h : ∀ o ∈ utxos, Deposit P o.1 o.2) (inputs : Inputs P) :
    ∃ more, utxos.foldlM (fun b o => addInput P o.1 b o.2) inputs = .ok more := by
  induction utxos generalizing inputs with
  | nil => exact ⟨inputs, rfl⟩
  | cons o utxos ih =>
    obtain ⟨ho, hrest⟩ := List.forall_mem_cons.mp h
    obtain ⟨next, hnext⟩ := addInput_deposit hP hb ho inputs
    obtain ⟨more, hmore⟩ := ih hrest next
    exact ⟨more, by rw [List.foldlM_cons, hnext, ok_bind, hmore]⟩

/-- Deposits are the inputs of a transaction. -/
theorem makeVin_deposits (hP : P.Lawful) (hb : StandardBase58 P)
    {sources : List (Source P.PrivateKey)} (h : AllDeposits P sources) :
    ∃ entries, makeVin P sources = .ok (ofEntries entries) ∧
      List.Forall₂ SpendsUtxo (owned sources) entries := by
  obtain ⟨inputs, hinputs⟩ := foldlM_deposits hP hb h (noInputs P)
  have hvin : makeVin P sources = .ok inputs := by
    rw [makeVin, foldlM_owned, hinputs]
  obtain ⟨entries, hentries, rfl⟩ := makeVin_entries hvin
  exact ⟨entries, hvin, hentries⟩

section Signing

variable {E : Type} [AddCommGroup E] {C : XOnly.Curve E Bytes} {point : P.PublicKey → E}

/-- A key with a Taproot address can sign for it. -/
theorem taprootSignSighash_ok (hC : Implements P C point) {key : P.PrivateKey}
    (hkey : FromScalar P key) {output : Bytes}
    (hout : taprootOutputKey P (slice (privkey2pubkey P key) 1 33) = .ok output) (digest : Bytes) :
    ∃ sig, taprootSignSighash P key digest = .ok sig := by
  obtain ⟨d, hpos, hlt, hprivate⟩ := hkey
  obtain ⟨key', hkey', hsecret⟩ := hC.privateKey_ok d hpos hlt
  cases hprivate.symm.trans hkey'
  obtain ⟨hne, heven, hx⟩ := hC.evenScalar_point hpos hlt
  obtain ⟨internal, hinternal, htweaked⟩ := hC.taprootOutputKey_eq hne heven
  rw [privkey2pubkey, hC.slice_format, hC.publicKey_eq, hsecret, scalar_toBytesBig hlt, ← hx,
    htweaked] at hout
  obtain ⟨q, hq, -⟩ := bind_eq_ok.mp hout
  have hpoint := hC.tweakPoint_spec (Nat.mod_lt _ (by decide)) hq
  have hscalar : taprootTweakedScalar P key ≠ 0 := by
    intro hzero
    apply hC.point_ne_zero q
    rw [hpoint, hinternal, hx, ← C.tweak_nsmul, ← hC.taprootTweakedScalar_eq hlt hsecret, hzero,
      zero_nsmul]
  obtain ⟨signer, hsigned, -⟩ := hC.taprootSignSighash_eq hscalar digest
  exact ⟨_, hsigned⟩

theorem packQInt_ok {n : Int} (h : 0 ≤ n ∧ n ≤ 0xffffffffffffffff) :
    ∃ data, packQInt n = .ok data := by
  rw [packQInt, reject_false _ (not_not.mpr h)]
  exact ⟨_, rfl⟩

variable {tx : CTransaction} {signers : List (P.PrivateKey × Bytes)} {coins : List SpendInput}
  {i : Nat} {own : CIn} {key : P.PrivateKey} {amount : Int}

/-- An input of a script of its key is signed. -/
theorem signedInput_ok (hP : P.Lawful) (hC : Implements P C point) (hkey : FromScalar P key)
    (hown : tx.vin[i]? = some own) (hsigner : signers[i]? = some (key, privkey2pubkey P key))
    (hcoin : coins[i]? = some ⟨amount, own.script⟩) (hcount : coins.length = tx.vin.length)
    (hamounts : ∀ coin ∈ coins, 0 ≤ coin.amount ∧ coin.amount ≤ 0xffffffffffffffff)
    (hlock : OwnLock P (privkey2pubkey P key) own.script) :
    ∃ signed, signedInput P tx signers (some coins) i = .ok signed := by
  unfold signedInput
  simp only [hsigner, hown, orElseThrow_some, ok_bind]
  have hrange : 0 ≤ amount ∧ amount ≤ 0xffffffffffffffff :=
    hamounts _ (List.mem_of_getElem? hcoin)
  generalize hscript : own.script = script at hlock hcoin ⊢
  cases hlock with
  | p2pkh =>
    have hlen := hash160_length P hP (privkey2pubkey P key)
    have hpubkey : (privkey2pubkey P key).length = 33 := hP.format_length _
    rw [scheme_of_form (formOfScript_p2pkh hlen)]
    simp only [legacyScriptSig, hown, orElseThrow_some, ok_bind, signData]
    generalize dsha256 P _ = digest
    have hsign := hP.sign_length key digest
    have hsize : (P.sign key digest ++ [sighashAll]).length ≤ 73 := by
      rw [List.length_append, List.length_singleton]
      omega
    rw [cScript_pushes (by omega) (by omega)]
    exact ⟨_, rfl⟩
  | p2wpkh =>
    have hlen := hash160_length P hP (privkey2pubkey P key)
    rw [scheme_of_form (formOfScript_p2wpkh hlen)]
    obtain ⟨data, hdata⟩ := packQInt_ok hrange
    have hin : tx.sigTx.vin[i]? = some own.sigIn := by
      rw [CTransaction.sigTx, List.getElem?_map, hown]
      rfl
    simp only [spendInput, Option.bind_some, hcoin, orElseThrow_some, ok_bind,
      bip143SighashInRange, hin, hdata]
    exact ⟨_, rfl⟩
  | p2tr output hout =>
    have hlen := taprootOutputKey_length hP hout
    rw [scheme_of_form (formOfScript_p2tr hlen)]
    have hpacked : ∃ amounts, coins.mapM (fun s => packQInt s.amount) = .ok amounts :=
      mapM_ok_of_forall fun coin hmem => packQInt_ok (hamounts coin hmem)
    obtain ⟨amounts, hpacked⟩ := hpacked
    simp only [ok_bind, reject_false _ (not_not.mpr hcount),
      taprootKeypathSighashInRange, taprootSigMsg, taprootShaFields, hpacked, pure_eq_ok]
    generalize taggedHash P _ _ = digest
    obtain ⟨sig, hsig⟩ := taprootSignSighash_ok hC hkey hout digest
    rw [hsig]
    exact ⟨_, rfl⟩

/-- Inputs of scripts of their keys are signed, whatever the transaction pays. -/
theorem signSegwit_ok (hP : P.Lawful) (hC : Implements P C point)
    {utxos : List (P.PrivateKey × Utxo)} (hkeys : ∀ o ∈ utxos, FromScalar P o.1)
    (hamounts : ∀ o ∈ utxos, o.2.amount ≤ 0xffffffffffffffff)
    {entries : List (Entry P)} (hentries : List.Forall₂ SpendsUtxo utxos entries)
    (vout : List COut) :
    ∃ stx, signSegwit P ⟨(ofEntries entries).vin, vout, 0⟩ (ofEntries entries).signers
      (some (ofEntries entries).spend) = .ok stx := by
  have hutxo : ∀ e ∈ entries, ∃ o ∈ utxos, SpendsUtxo o e := by
    intro e he
    obtain ⟨i, hi, rfl⟩ := List.getElem_of_mem he
    have hi' : i < utxos.length := hentries.length_eq ▸ hi
    exact ⟨utxos[i], List.getElem_mem hi', hentries.get hi' hi⟩
  have hrange : ∀ coin ∈ (ofEntries entries).spend,
      0 ≤ coin.amount ∧ coin.amount ≤ 0xffffffffffffffff := by
    intro coin hcoin
    obtain ⟨e, he, rfl⟩ := List.mem_map.mp hcoin
    obtain ⟨o, ho, hspends⟩ := hutxo e he
    have hle := hamounts o ho
    dsimp only
    rw [hspends.amount]
    omega
  have hsigned : ∀ i ∈ List.range entries.length, ∃ signed,
      signedInput P ⟨(ofEntries entries).vin, vout, 0⟩ (ofEntries entries).signers
        (some (ofEntries entries).spend) i = .ok signed := by
    intro i hi
    obtain ⟨e, hget⟩ : ∃ e, entries[i]? = some e :=
      ⟨_, List.getElem?_eq_getElem (List.mem_range.mp hi)⟩
    obtain ⟨o, ho, hspends⟩ := hutxo e (List.mem_of_getElem? hget)
    have hkey : FromScalar P e.key := hspends.key ▸ hkeys o ho
    have hown : (ofEntries entries).vin[i]? = some e.vin := by
      simp [ofEntries, hget]
    have hsigner : (ofEntries entries).signers[i]? = some (e.key, privkey2pubkey P e.key) := by
      simp [ofEntries, hget]
    have hcoin : (ofEntries entries).spend[i]? = some ⟨e.amount, e.vin.script⟩ := by
      simp [ofEntries, hget]
    exact signedInput_ok hP hC hkey hown hsigner hcoin (by simp [ofEntries]) hrange hspends.lock
  obtain ⟨vin, hvin⟩ := mapM_ok_of_forall hsigned
  rw [signSegwit_eq, reject_false _ (by simp [ofEntries]), ok_bind]
  refine ⟨⟨vin, vout, 0⟩, bind_eq_ok.mpr ⟨vin, ?_, rfl⟩⟩
  rw [← hvin]
  simp [ofEntries]

end Signing

theorem coutMake_ok {amount : Int} (h : 0 ≤ amount ∧ amount ≤ 0xffffffffffffffff)
    (script : Bytes) : ∃ out, COut.make amount script = .ok out :=
  ⟨_, make_eq_ok.mpr ⟨h, rfl⟩⟩

/-- For addresses that lock, outputs are made of what the inputs hold. -/
theorem makeVout_ok_iff {lock : String → Except Exn Bytes} {src dst : String} {inAmount fee : Int}
    {amount : Option Int} {back script : Bytes} (hsrc : lock src = .ok back)
    (hdst : lock dst = .ok script) (hfee : 0 ≤ fee) (hamount : ∀ a, amount = some a → 0 ≤ a)
    (hin : inAmount ≤ 0xffffffffffffffff) :
    (∃ result, makeVout lock src dst inAmount amount fee = .ok result) ↔
      amount.getD 0 + fee ≤ inAmount := by
  constructor
  · rintro ⟨result, h⟩
    obtain ⟨_, -, ⟨hall, out, hout, -⟩ | ⟨a, rfl, hlt, -⟩⟩ := makeVout_cases h
    · have hnonneg := (make_eq_ok.mp hout).1.1
      cases amount with
      | none =>
        rw [Option.getD_none]
        omega
      | some a => exact (hall a rfl).le
    · exact hlt.le
  · intro hcovers
    have hfits : ¬ inAmount < fee := by
      cases amount with
      | none =>
        rw [Option.getD_none] at hcovers
        omega
      | some a =>
        have ha := hamount a rfl
        rw [Option.getD_some] at hcovers
        omega
    have hpays : ¬ ∃ a, amount = some a ∧ a + fee > inAmount := by
      rintro ⟨a, rfl, hgt⟩
      rw [Option.getD_some] at hcovers
      omega
    rw [makeVout, reject_false _ hfits, ok_bind, reject_false _ hpays, ok_bind, hdst, ok_bind]
    split
    · obtain ⟨out, hout⟩ := @coutMake_ok (inAmount - fee) (by omega) script
      rw [hout]
      exact ⟨_, rfl⟩
    · next hsome =>
      cases amount with
      | none => exact absurd (fun a ha => by cases ha) hsome
      | some a =>
        have ha := hamount a rfl
        simp only [Option.getD_some] at hcovers ⊢
        obtain ⟨change, hchange⟩ := @coutMake_ok (inAmount - a - fee) (by omega) back
        obtain ⟨out, hout⟩ := @coutMake_ok a (by omega) script
        rw [hsrc, ok_bind, hchange, ok_bind, hout]
        exact ⟨_, rfl⟩

/-- The fees that a payment tries: the one that was asked for, or those of the loop. -/
def Asks (p : Pricing CTransaction) (fee f : Int) : Prop := if fee = 0 then Tries p f else f = fee

/-- What the inputs hold pays the amount with every fee that is tried. -/
def Covers (inputs : Inputs P) (src dst : String) (amount : Option Int) (feekb fee : Int) : Prop :=
  ∀ f, Asks (transactionPricing P (lockScript P) inputs src dst amount feekb) fee f →
    amount.getD 0 + f ≤ inputs.inAmount

theorem tries_nonneg {inputs : Inputs P} {lock : String → Except Exn Bytes} {src dst : String}
    {amount : Option Int} {feekb f : Int} (hrate : 0 ≤ feekb)
    (h : Tries (transactionPricing P lock inputs src dst amount feekb) f) : 0 ≤ f := by
  refine tries_induct (fun fee => 0 ≤ fee) le_rfl (fun size fee hfee => ?_) h
  exact truncDiv_nonneg (transactionPricing_price P inputs src dst amount feekb size hfee)
    (Int.mul_nonneg (Int.natCast_nonneg _) hrate)

/-- A payment from deposits is asked for: its change comes back to an address of the wallet, and
its fee is explicit or at an ordinary rate. -/
structure Transfer (P : Primitives) (sources : List (Source P.PrivateKey)) (src dst : String)
    (amount : Option Int) (feekb fee : Int) : Prop where
  deposits : AllDeposits P sources
  keys : ∀ o ∈ owned sources, FromScalar P o.1
  total : valueOf sources ≤ 0xffffffffffffffff
  change : ∃ key, IsAddress P key src
  destination : ∃ script, lockScript P dst = .ok script
  amount_nonneg : ∀ a, amount = some a → 0 ≤ a
  fee_nonneg : 0 ≤ fee
  rate : fee = 0 → minRelayTxFee ≤ feekb ∧ ∀ inputs, makeVin P sources = .ok inputs →
    Affordable (transactionPricing P (lockScript P) inputs src dst amount feekb) feekb

section Payments

variable {V : Verifier} {E : Type} [AddCommGroup E] {C : XOnly.Curve E Bytes}
  {point : P.PublicKey → E} {sources : List (Source P.PrivateKey)} {src dst : String}
  {amount : Option Int} {feekb fee : Int}

theorem amount_le_valueOf {o : P.PrivateKey × Utxo} (h : o ∈ owned sources) :
    o.2.amount ≤ valueOf sources := by
  obtain ⟨source, hsource, ho⟩ := List.mem_flatMap.mp h
  obtain ⟨u, hu, rfl⟩ := List.mem_map.mp ho
  have hone : u.amount ≤ amountOf source.2 :=
    List.single_le_sum (fun _ _ => Nat.zero_le _) _ (List.mem_map_of_mem hu)
  exact hone.trans (List.single_le_sum (fun _ _ => Nat.zero_le _) _ (List.mem_map_of_mem hsource))

/-- For deposits only the outputs can be refused. -/
theorem build_ok_iff (hP : P.Lawful) (hC : Implements P C point) {lock : String → Except Exn Bytes}
    {utxos : List (P.PrivateKey × Utxo)} (hkeys : ∀ o ∈ utxos, FromScalar P o.1)
    (hamounts : ∀ o ∈ utxos, o.2.amount ≤ 0xffffffffffffffff) {entries : List (Entry P)}
    (hentries : List.Forall₂ SpendsUtxo utxos entries) :
    (∃ built, buildTransaction P lock (ofEntries entries) src dst amount fee = .ok built) ↔
      ∃ vout, makeVout lock src dst (ofEntries entries).inAmount amount fee = .ok vout := by
  constructor
  · rintro ⟨built, h⟩
    obtain ⟨vout, hvout, -⟩ := bind_eq_ok.mp h
    exact ⟨vout, hvout⟩
  · rintro ⟨vout, hvout⟩
    obtain ⟨stx, hstx⟩ := signSegwit_ok hP hC hkeys hamounts hentries vout.vout
    exact ⟨(vout, stx), bind_eq_ok.mpr ⟨vout, hvout, bind_eq_ok.mpr ⟨stx, hstx, rfl⟩⟩⟩

/-- A payment from deposits returns exactly when they cover it. -/
theorem made_iff (hP : P.Lawful) (hC : Implements P C point) (hb : StandardBase58 P)
    (h : Transfer P sources src dst amount feekb fee) : ∃ entries,
      makeVin P sources = .ok (ofEntries entries) ∧
      List.Forall₂ SpendsUtxo (owned sources) entries ∧
      ((∃ result, MakeTransaction P (lockScript P) sources src dst amount feekb fee (.ok result)) ↔
        Covers (ofEntries entries) src dst amount feekb fee) := by
  obtain ⟨entries, hvin, hentries⟩ := makeVin_deposits hP hb h.deposits
  refine ⟨entries, hvin, hentries, ?_⟩
  obtain ⟨key, haddress⟩ := h.change
  obtain ⟨back, hback, -⟩ := haddress.locks hP hb
  obtain ⟨script, hscript⟩ := h.destination
  have hin : (ofEntries entries).inAmount = valueOf sources := by
    rw [makeVin_amount hvin, valueOf, Nat.cast_list_sum, List.map_map]
    rfl
  have htotal : (ofEntries entries).inAmount ≤ 0xffffffffffffffff := by
    rw [hin]
    exact_mod_cast h.total
  have hbuild : ∀ f, 0 ≤ f → ((∃ built, buildTransaction P (lockScript P) (ofEntries entries) src
      dst amount f = .ok built) ↔ amount.getD 0 + f ≤ (ofEntries entries).inAmount) := by
    intro f hf
    rw [build_ok_iff hP hC h.keys (fun o ho => (amount_le_valueOf ho).trans h.total) hentries]
    exact makeVout_ok_iff hback hscript hf h.amount_nonneg htotal
  unfold MakeTransaction
  rw [hvin]
  dsimp only
  by_cases hfee : fee = 0
  · subst hfee
    simp only [ne_eq, not_true_eq_false, if_false]
    obtain ⟨hrate, haffordable⟩ := h.rate rfl
    have hrate' : (0 : Int) ≤ feekb := le_trans (by decide) hrate
    obtain ⟨⟨result, hreturns⟩, hordinary⟩ := (haffordable _ hvin).ordinary hrate
      (fun _ hsize => transactionPricing_newFee (lockScript P) P (ofEntries entries) src dst amount
        hrate' hsize)
    have hcovers : Covers (ofEntries entries) src dst amount feekb 0 ↔
        ∀ f, Tries (transactionPricing P (lockScript P) (ofEntries entries) src dst amount feekb) f →
          ∃ built, buildTransaction P (lockScript P) (ofEntries entries) src dst amount f =
            .ok built := by
      simp only [Covers, Asks, if_true]
      exact forall₂_congr fun f hf => (hbuild f (tries_nonneg hrate' hf)).symm
    rw [hcovers]
    constructor
    · rintro ⟨_, best, hloop, hbest⟩ f hf
      cases hrefused : buildTransaction P (lockScript P) (ofEntries entries) src dst amount f with
      | ok built => exact ⟨built, rfl⟩
      | error e =>
        cases feeLoop_refused hloop hf hrefused
        cases hbest
    · intro hall
      rcases hordinary _ hreturns with ⟨f, e, hf, hrefused, -⟩ | ⟨best, rfl, -⟩
      · obtain ⟨built, hbuilt⟩ := hall f hf
        cases hbuilt.symm.trans hrefused
      · exact ⟨_, .ok best, hreturns, rfl⟩
  · simp only [ne_eq, hfee, not_false_eq_true, if_true]
    simp only [Covers, Asks, if_neg hfee, forall_eq]
    rw [← hbuild fee h.fee_nonneg]
    constructor
    · rintro ⟨result, hresult⟩
      cases hmade : buildTransaction P (lockScript P) (ofEntries entries) src dst amount fee with
      | ok built => exact ⟨built, rfl⟩
      | error e =>
        rw [hmade] at hresult
        cases hresult
    · rintro ⟨built, hbuilt⟩
      rw [hbuilt]
      exact ⟨_, rfl⟩

/-- A transaction that is returned was built with a fee that was tried. -/
theorem made_built {lock : String → Except Exn Bytes} {result : TxResult}
    (h : MakeTransaction P lock sources src dst amount feekb fee (.ok result)) :
    ∃ inputs vout, makeVin P sources = .ok inputs ∧
      buildTransaction P lock inputs src dst amount result.fee = .ok (vout, result.tx) ∧
      result.cashback = vout.cashback ∧ result.amount = vout.amount ∧
      Asks (transactionPricing P lock inputs src dst amount feekb) fee result.fee := by
  unfold MakeTransaction at h
  cases hvin : makeVin P sources with
  | error e =>
    rw [hvin] at h
    cases h
  | ok inputs =>
    rw [hvin] at h
    dsimp only at h
    by_cases hfee : fee = 0
    · rw [if_neg (not_not.mpr hfee)] at h
      obtain ⟨best, hloop, hbest⟩ := h
      cases best with
      | error e => cases hbest
      | ok best =>
        cases hbest
        obtain ⟨htries, hbuild⟩ := feeLoop_sound hloop
        refine ⟨inputs, best.vout, rfl, hbuild, rfl, rfl, ?_⟩
        rw [Asks, if_pos hfee]
        exact htries
    · rw [if_pos hfee] at h
      cases hbuild : buildTransaction P lock inputs src dst amount fee with
      | error e =>
        rw [hbuild] at h
        cases h
      | ok built =>
        rw [hbuild] at h
        cases h
        refine ⟨inputs, built.1, rfl, hbuild, rfl, rfl, ?_⟩
        rw [Asks, if_neg hfee]

/-- What is returned for keys from scalars spends the outputs of the sources. -/
theorem made_spends (hP : P.Lawful) (hC : Implements P C point) (hV : Accepts P V)
    (hkeys : ∀ o ∈ owned sources, FromScalar P o.1) {lock : String → Except Exn Bytes}
    {result : TxResult}
    (h : MakeTransaction P lock sources src dst amount feekb fee (.ok result)) :
    SpendsAll P V (owned sources) result.tx := by
  obtain ⟨inputs, vout, hvin, hbuild, -⟩ := made_built h
  obtain ⟨entries, hentries, rfl⟩ := makeVin_entries hvin
  exact buildTransaction_spends hP hC hV hkeys hentries hbuild

/-- What is paid to the wallet can be spent by it: for outputs of any of the three forms of address,
in any mixture, a payment returns a transaction that spends them exactly when what they hold covers
the amount with every fee that is tried. Nothing else can refuse it. -/
theorem deposits_spendable (hP : P.Lawful) (hC : Implements P C point) (hV : Accepts P V)
    (hb : StandardBase58 P) (h : Transfer P sources src dst amount feekb fee) :
    ∃ inputs, makeVin P sources = .ok inputs ∧
      ((∃ result, MakeTransaction P (lockScript P) sources src dst amount feekb fee (.ok result) ∧
          SpendsAll P V (owned sources) result.tx) ↔
        Covers inputs src dst amount feekb fee) := by
  obtain ⟨entries, hvin, -, hmade⟩ := made_iff hP hC hb h
  refine ⟨ofEntries entries, hvin, ?_⟩
  rw [← hmade]
  constructor
  · rintro ⟨result, hresult, -⟩
    exact ⟨result, hresult⟩
  · rintro ⟨result, hresult⟩
    exact ⟨result, hresult, made_spends hP hC hV h.keys hresult⟩

end Payments

theorem withBase58_implements {E : Type} [AddCommGroup E] {C : XOnly.Curve E Bytes}
    {point : P.PublicKey → E} (h : Implements P C point) : Implements (withBase58 P) C point :=
  ⟨h.order_eq, h.x_length, h.point_ne_zero, h.format_even, h.format_odd, h.parse_even, h.parse_spec,
    h.privateKey_ok, h.privateKey_zero, h.publicKey_eq, h.combine_ok, h.combine_zero⟩

theorem withBase58_accepts {V : Verifier} (h : Accepts P V) : Accepts (withBase58 P) V :=
  ⟨h.ecdsa, h.schnorr⟩

theorem withBase58_scalar {key : P.PrivateKey} (h : FromScalar P key) :
    FromScalar (withBase58 P) key := h

def residueWallet : Primitives := withBase58 residues

def walletKey : residueWallet.PrivateKey := residueKey

def walletAddress : String := "bc1qq77gnexdee57xyrarm83l0kntuqqqqqqaplrve"

theorem walletAddress_of : IsAddress residueWallet walletKey walletAddress :=
  ⟨.native, by decide +kernel⟩

theorem walletAddress_lock : lockScript residueWallet walletAddress = .ok residueScript := by
  decide +kernel

def walletUtxo : Utxo :=
  ⟨Net.hex (List.replicate 32 9), 0, 100000, Net.hex residueScript, 6⟩

theorem walletDeposit : Deposit residueWallet walletKey walletUtxo where
  script := ⟨walletAddress, residueScript, walletAddress_of, walletAddress_lock,
    QuorumPayment.fromHex_hex _⟩
  txhash := ⟨_, QuorumPayment.fromHex_hex _, List.length_replicate⟩
  n := Nat.zero_le _

def walletSources : List (Source residueWallet.PrivateKey) :=
  [(⟨0, .native, walletKey, walletAddress⟩, [walletUtxo])]

theorem walletSources_owned : owned walletSources = [(walletKey, walletUtxo)] := rfl

theorem walletTransfer : Transfer residueWallet walletSources walletAddress walletAddress
    (some 90000) 1000 1000 where
  deposits := by
    intro o ho
    rw [walletSources_owned, List.mem_singleton] at ho
    rw [ho]
    exact walletDeposit
  keys := by
    intro o _
    exact withBase58_scalar (residues_scalar o.1)
  total := by
    have htotal : valueOf walletSources = 100000 := rfl
    rw [htotal]
    decide
  change := ⟨walletKey, walletAddress_of⟩
  destination := ⟨_, walletAddress_lock⟩
  amount_nonneg := by
    intro a ha
    cases ha
    decide
  fee_nonneg := by decide
  rate := by
    intro hfee
    cases hfee

theorem deposits_spendable_sample : ∃ result,
    MakeTransaction residueWallet (lockScript residueWallet) walletSources walletAddress
        walletAddress (some 90000) 1000 1000 (.ok result) ∧
      SpendsAll residueWallet acceptAll (owned walletSources) result.tx := by
  obtain ⟨inputs, hvin, hiff⟩ := deposits_spendable (withBase58_lawful residues_lawful)
    (withBase58_implements residues_implements) (withBase58_accepts acceptAll_accepts)
    withBase58_standard walletTransfer
  apply hiff.mpr
  intro f hf
  rw [Asks, if_neg (by decide)] at hf
  have hin : inputs.inAmount = 100000 := makeVin_amount hvin
  rw [hin, hf]
  decide

end Yubtc.Deposits
