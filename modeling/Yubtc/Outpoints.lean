import Yubtc.Conservation

/-!
# Outpoints and backends

One chain, two services. blockchain.info names a funding transaction by the hash as it goes on
the wire, Esplora by the same hash in display order; both backends hand their name to the
builders, which write it as it is.
-/
namespace Yubtc.Outpoints

open DynamicJson Wire LittleEndian Errors ExceptRules Transaction Net Wallet Payment QuorumPayment

variable {P : Crypto.Primitives}

/-- An unspent output on the chain; the hash of its transaction is in wire order. -/
structure Funding where
  hash : Bytes
  hash_length : hash.length = 32
  n : Nat
  value : Nat
  script : Bytes
  blockHeight : Option Nat

namespace Funding

/-- What an input that spends it has to serialize. -/
def outpoint (f : Funding) : Bytes := f.hash ++ packLE 4 f.n

def confirmations (tip : Int) (f : Funding) : Nat :=
  match f.blockHeight with
  | none => 0
  | some height => if tip = 0 then 0 else (tip - height + 1).toNat

def blockchainInfoEntry (tip : Int) (f : Funding) : Json :=
  .obj [("tx_hash", .str (hex f.hash)), ("tx_output_n", .num f.n), ("value", .num f.value),
    ("script", .str (hex f.script)), ("confirmations", .num (f.confirmations tip))]

def status (f : Funding) : Json :=
  match f.blockHeight with
  | none => .obj [("confirmed", .bool false)]
  | some height => .obj [("confirmed", .bool true), ("block_height", .num height)]

def esploraEntry (f : Funding) : Json :=
  .obj [("txid", .str (hex f.hash.reverse)), ("vout", .num f.n), ("value", .num f.value),
    ("status", f.status)]

/-- The entry in the wallet's shape, under some name of its transaction. -/
def utxo (tip : Int) (name : Bytes) (f : Funding) : Utxo :=
  ⟨hex name, f.n, f.value, hex f.script, f.confirmations tip⟩

end Funding

def blockchainInfoReply (tip : Int) (fundings : List Funding) : Response :=
  ⟨200, "",
    .ok (.obj [("unspent_outputs", .arr (fundings.map (Funding.blockchainInfoEntry tip)))]), none⟩

/-- A text field. A value of another type is refused here; the source passes it on. -/
def textOf : Json → Except String String
  | .str s => .ok s
  | x => .error ("unexpected " ++ x.typeName)

/-- A count or an amount, likewise. -/
def natOf : Json → Except String Nat
  | .num q => if q.den = 1 ∧ 0 ≤ q.num then .ok q.num.toNat else .error "unexpected number"
  | x => .error ("unexpected " ++ x.typeName)

/-- One entry in `TPrivKey.get_unspent`. -/
def readUtxo (x : Json) : Except String Utxo := do
  let confirmations ← x.subscript "confirmations" >>= natOf
  let tx ← x.subscript "tx_hash" >>= textOf
  let outN ← x.subscript "tx_output_n" >>= natOf
  let amount ← x.subscript "value" >>= natOf
  let script ← x.subscript "script" >>= textOf
  .ok ⟨tx, outN, amount, script, confirmations⟩

def readUnspent (answer : Json) : Except String (List Utxo) := do
  let entries ← answer.iter
  entries.mapM readUtxo

@[simp] theorem natOf_natCast (n : Nat) : natOf (.num n) = .ok n := by
  simp [natOf]

theorem mapM_map_ok {α β γ : Type} {ε : Type} {f : β → Except ε γ} {g : α → β} {h : α → γ}
    {l : List α} (hok : ∀ a ∈ l, f (g a) = .ok (h a)) : (l.map g).mapM f = .ok (l.map h) := by
  rw [mapM_eq_ok, List.forall₂_map_left_iff, List.forall₂_map_right_iff, List.forall₂_same]
  exact hok

/-- blockchain.info's entries arrive under the wire-order hash. -/
theorem blockchainInfo_unspent (tip : Int) (fundings : List Funding) :
    (BlockchainInfoBackend.decodeUnspent (blockchainInfoReply tip fundings) >>= readUnspent) =
      .ok (fundings.map fun f => f.utxo tip f.hash) := by
  have hbody : BlockchainInfoBackend.decodeUnspent (blockchainInfoReply tip fundings) =
      .ok (.arr (fundings.map (Funding.blockchainInfoEntry tip))) := rfl
  rw [hbody, ok_bind, readUnspent]
  refine mapM_map_ok fun f _ => ?_
  simp [readUtxo, Funding.blockchainInfoEntry, Json.subscript, List.lookup, textOf, Funding.utxo]

theorem confirmationsOf_height (tip : Int) (height : Nat) :
    EsploraBackend.confirmationsOf tip ((Json.num height).or (.num 0)) =
      .ok (.num ((if tip = 0 then 0 else (tip - height + 1).toNat : Nat) : ℚ)) := by
  have hor : (Json.num height).or (.num 0) = .num height := by
    by_cases hzero : height = 0
    · simp [Json.or, hzero]
    · simp [Json.or, hzero]
  have hmax : max 0 ((tip : ℚ) - height + 1) = ((tip - height + 1).toNat : ℚ) := by
    have hint : max 0 (tip - height + 1) = ((tip - height + 1).toNat : Int) := by omega
    have hcast := congrArg (fun z : Int => (z : ℚ)) hint
    push_cast at hcast
    simpa using hcast
  rw [hor, EsploraBackend.confirmationsOf]
  split
  · simp
  · simp [hmax]

theorem esplora_confirmations (tip : Int) (f : Funding) :
    EsploraBackend.confirmationsIn tip (f.status.or (.obj [])) =
      .ok (.num (f.confirmations tip)) := by
  unfold Funding.status Funding.confirmations
  cases f.blockHeight with
  | none => simp [EsploraBackend.confirmationsIn, Json.or, Json.truthy, Json.get, List.lookup]
  | some height =>
    have hheight := confirmationsOf_height tip height
    simpa [EsploraBackend.confirmationsIn, Json.or, Json.truthy, Json.get, List.lookup] using hheight

/-- Esplora's entries arrive under the display-order hash. -/
theorem esplora_unspent (tip : Int) (script : Bytes) (fundings : List Funding)
    (hscript : ∀ f ∈ fundings, f.script = script) :
    (EsploraBackend.decodeEntries tip script (.arr (fundings.map Funding.esploraEntry)) >>=
        readUnspent) = .ok (fundings.map fun f => f.utxo tip f.hash.reverse) := by
  have hentries : EsploraBackend.decodeEntries tip script
      (.arr (fundings.map Funding.esploraEntry)) =
        .ok (.arr (fundings.map fun f => .obj [("tx_hash", .str (hex f.hash.reverse)),
          ("tx_output_n", .num f.n), ("value", .num f.value), ("script", .str (hex script)),
          ("confirmations", .num (f.confirmations tip))])) := by
    have hmap := mapM_map_ok (f := EsploraBackend.decodeEntry tip script)
      (g := Funding.esploraEntry) (l := fundings) (h := fun f =>
        .obj [("tx_hash", .str (hex f.hash.reverse)), ("tx_output_n", .num f.n),
          ("value", .num f.value), ("script", .str (hex script)),
          ("confirmations", .num (f.confirmations tip))]) fun f _ => by
            have hconf := esplora_confirmations tip f
            simp [EsploraBackend.decodeEntry, Funding.esploraEntry, Json.get, Json.subscript,
              List.lookup, hconf]
    rw [EsploraBackend.decodeEntries]
    exact bind_eq_ok.mpr ⟨_, rfl, bind_eq_ok.mpr ⟨_, hmap, rfl⟩⟩
  rw [hentries, ok_bind, readUnspent]
  refine mapM_map_ok fun f hf => ?_
  simp [readUtxo, Json.subscript, List.lookup, textOf, Funding.utxo, hscript f hf]

def cInOutpoint (i : CIn) : Bytes := i.txhash ++ packL i.n

theorem cIn_make_eq_ok {txhash script : Bytes} {n : Nat} {vin : CIn} :
    CIn.make txhash n script 0xffffffff [] = .ok vin ↔
      ∃ h : txhash.length = 32, n ≤ 0xffffffff ∧
        vin = ⟨txhash, h, UInt32.ofNat n, script, 0xffffffff, []⟩ := by
  unfold CIn.make
  by_cases h : txhash.length = 32
  · rw [dif_pos h, reject_bind_eq_ok, reject_bind_eq_ok, reject_bind_eq_ok, reject_bind_eq_ok,
      pure_eq_ok, Except.ok.injEq]
    constructor
    · rintro ⟨-, hn, -, -, rfl⟩
      exact ⟨h, by omega, rfl⟩
    · rintro ⟨_, hn, rfl⟩
      exact ⟨by omega, by omega, by decide, by decide, rfl⟩
  · rw [dif_neg h]
    exact ⟨nofun, fun ⟨h', _⟩ => absurd h' h⟩

theorem packL_ofNat {n : Nat} (h : n ≤ 0xffffffff) : packL (UInt32.ofNat n) = packLE 4 n := by
  rw [packL, UInt32.toNat_ofNat', Nat.mod_eq_of_lt (by omega)]

/-- A UTXO whose transaction is named by 32 bytes becomes an input under that name; the name
decides nothing else. -/
theorem addInput_utxo {privkey : P.PrivateKey} {inputs inputs' : Inputs P} {tip : Int}
    {name : Bytes} {f : Funding}
    (h : addInput P privkey inputs (f.utxo tip name) = .ok inputs') :
    inputs'.vin.map cInOutpoint = inputs.vin.map cInOutpoint ++ [name ++ packLE 4 f.n] ∧
      ∀ (other : Inputs P) (tip' : Int) (name' : Bytes), name'.length = 32 →
        ∃ other', addInput P privkey other (f.utxo tip' name') = .ok other' := by
  obtain ⟨script, hscript, h⟩ := bind_eq_ok.mp h
  obtain ⟨form, hform, h⟩ := bind_eq_ok.mp h
  obtain ⟨_, hkey, h⟩ := bind_eq_ok.mp h
  obtain ⟨txhash, htxhash, h⟩ := bind_eq_ok.mp h
  obtain ⟨vin, hvin, h⟩ := bind_eq_ok.mp h
  cases h
  have hname : ∀ name : Bytes, fromHex (f.utxo tip name).tx = .ok name := fun name => fromHex_hex name
  cases (hname name).symm.trans htxhash
  obtain ⟨_, hn, rfl⟩ := cIn_make_eq_ok.mp hvin
  constructor
  · simp only [List.map_append, List.map_cons, List.map_nil, cInOutpoint, packL_ofNat hn]
    rfl
  · intro other tip' name' hname'
    have hmake : CIn.make name' f.n script 0xffffffff [] =
        .ok ⟨name', hname', UInt32.ofNat f.n, script, 0xffffffff, []⟩ :=
      cIn_make_eq_ok.mpr ⟨hname', hn, rfl⟩
    exact ⟨_, bind_eq_ok.mpr ⟨script, hscript, bind_eq_ok.mpr ⟨form, hform, bind_eq_ok.mpr
      ⟨_, hkey, bind_eq_ok.mpr ⟨name', hname name', bind_eq_ok.mpr ⟨_, hmake, rfl⟩⟩⟩⟩⟩⟩

/-- The same for all UTXOs of a key. -/
theorem addInputs_utxo {privkey : P.PrivateKey} {tip : Int} (tip' : Int) (name name' : Funding → Bytes)
    (hname' : ∀ f, (name' f).length = 32) {fundings : List Funding} {inputs inputs' : Inputs P}
    (h : (fundings.map fun f => f.utxo tip (name f)).foldlM (addInput P privkey) inputs =
      .ok inputs') :
    inputs'.vin.map cInOutpoint =
        inputs.vin.map cInOutpoint ++ fundings.map (fun f => name f ++ packLE 4 f.n) ∧
      ∀ other : Inputs P, ∃ other', (fundings.map fun f => f.utxo tip' (name' f)).foldlM
        (addInput P privkey) other = .ok other' := by
  induction fundings generalizing inputs with
  | nil =>
    cases h
    exact ⟨by simp, fun other => ⟨other, rfl⟩⟩
  | cons f fundings ih =>
    rw [List.map_cons, List.foldlM_cons] at h
    obtain ⟨middle, hadd, h⟩ := bind_eq_ok.mp h
    obtain ⟨hone, hany⟩ := addInput_utxo hadd
    obtain ⟨hrest, hothers⟩ := ih h
    constructor
    · rw [hrest, hone, List.append_assoc]
      rfl
    · intro other
      obtain ⟨middle', hmiddle'⟩ := hany other tip' (name' f) (hname' f)
      obtain ⟨other', hother'⟩ := hothers middle'
      refine ⟨other', ?_⟩
      rw [List.map_cons, List.foldlM_cons, hmiddle', ok_bind, hother']

/-- The sources that the wallet selects, under some naming of their transactions. -/
def namedSources (tip : Int) (name : Funding → Bytes)
    (selected : List (TPrivKey P.PrivateKey × List Funding)) : List (Source P.PrivateKey) :=
  selected.map fun source => (source.1, source.2.map fun f => f.utxo tip (name f))

def fundingsOf (selected : List (TPrivKey P.PrivateKey × List Funding)) : List Funding :=
  selected.flatMap Prod.snd

theorem makeVin_utxo {tip : Int} (tip' : Int) (name name' : Funding → Bytes)
    (hname' : ∀ f, (name' f).length = 32)
    {selected : List (TPrivKey P.PrivateKey × List Funding)} {inputs : Inputs P}
    (h : makeVin P (namedSources tip name selected) = .ok inputs) :
    inputs.vin.map cInOutpoint =
        (fundingsOf selected).map (fun f => name f ++ packLE 4 f.n) ∧
      ∃ inputs', makeVin P (namedSources tip' name' selected) = .ok inputs' := by
  suffices hall : ∀ acc : Inputs P,
      (namedSources tip name selected).foldlM
        (fun inputs source => source.2.foldlM (addInput P source.1.privkey) inputs) acc =
          .ok inputs →
      inputs.vin.map cInOutpoint = acc.vin.map cInOutpoint ++
          (fundingsOf selected).map (fun f => name f ++ packLE 4 f.n) ∧
        ∀ other : Inputs P, ∃ inputs', (namedSources tip' name' selected).foldlM
          (fun inputs source => source.2.foldlM (addInput P source.1.privkey) inputs) other =
            .ok inputs' by
    obtain ⟨hvin, hothers⟩ := hall (noInputs P) h
    exact ⟨by simpa [noInputs] using hvin, hothers (noInputs P)⟩
  clear h
  intro acc h
  induction selected generalizing acc with
  | nil =>
    cases h
    exact ⟨by simp [fundingsOf], fun other => ⟨other, rfl⟩⟩
  | cons source selected ih =>
    rw [namedSources, List.map_cons, List.foldlM_cons] at h
    obtain ⟨middle, hadd, h⟩ := bind_eq_ok.mp h
    obtain ⟨hone, hany⟩ := addInputs_utxo tip' name name' hname' hadd
    obtain ⟨hrest, hothers⟩ := ih middle h
    constructor
    · rw [hrest, hone, List.append_assoc, ← List.map_append]
      rfl
    · intro other
      obtain ⟨middle', hmiddle'⟩ := hany other
      obtain ⟨inputs', hinputs'⟩ := hothers middle'
      refine ⟨inputs', ?_⟩
      rw [namedSources, List.map_cons, List.foldlM_cons]
      exact bind_eq_ok.mpr ⟨middle', hmiddle', hinputs'⟩

theorem mapM_outpointOf {tip : Int} (name : Funding → Bytes) {fundings : List Funding}
    (hn : ∀ f ∈ fundings, f.n ≤ 0xffffffff) :
    (fundings.map fun f => f.utxo tip (name f)).mapM outpointOf =
      .ok (fundings.map fun f => (name f, UInt32.ofNat f.n)) := by
  refine mapM_map_ok fun f hf => ?_
  have hname : fromHex (f.utxo tip (name f)).tx = .ok (name f) := fromHex_hex (name f)
  have hfits : ¬(f.utxo tip (name f)).outN > 0xffffffff := Nat.not_lt.mpr (hn f hf)
  rw [outpointOf, hname, ok_bind, reject_false _ hfits]
  rfl

/-- The wallet's inputs have the outpoints of the outputs they spend. -/
def WalletSpends (P : Crypto.Primitives) (tip : Int) (name : Funding → Bytes)
    (selected : List (TPrivKey P.PrivateKey × List Funding)) : Prop :=
  ∃ inputs, makeVin P (namedSources tip name selected) = .ok inputs ∧
    inputs.vin.map cInOutpoint = (fundingsOf selected).map Funding.outpoint

/-- So have the quorum's, sized or not. -/
def QuorumSpends (tip : Int) (name : Funding → Bytes) (fundings : List Funding) : Prop :=
  ∃ txhashes, (fundings.map fun f => f.utxo tip (name f)).mapM outpointOf = .ok txhashes ∧
    ∀ (s : QuorumSizing) (sized : Bool),
      (s.buildVin txhashes sized).map (fun i => i.txhash ++ packL i.n) =
        fundings.map Funding.outpoint

/-- Names that read the same in both directions. -/
def Palindromic (fundings : List Funding) : Prop := ∀ f ∈ fundings, f.hash.reverse = f.hash

theorem named_outpoints_iff (name : Funding → Bytes) (fundings : List Funding) :
    (fundings.map fun f => name f ++ packLE 4 f.n) = fundings.map Funding.outpoint ↔
      ∀ f ∈ fundings, name f = f.hash := by
  rw [List.map_inj_left]
  simp only [Funding.outpoint, List.append_cancel_right_eq]

theorem walletSpends_iff {tip tip' : Int} (name : Funding → Bytes)
    (hname : ∀ f, (name f).length = 32) {selected : List (TPrivKey P.PrivateKey × List Funding)}
    (h : ∃ inputs, makeVin P (namedSources tip Funding.hash selected) = .ok inputs) :
    WalletSpends P tip' name selected ↔ ∀ f ∈ fundingsOf selected, name f = f.hash := by
  rw [← named_outpoints_iff]
  obtain ⟨_, hwire⟩ := h
  obtain ⟨-, inputs, hinputs⟩ := makeVin_utxo tip' Funding.hash name hname hwire
  obtain ⟨hvin, -⟩ := makeVin_utxo tip' name name hname hinputs
  constructor
  · rintro ⟨inputs', hinputs', heq⟩
    cases hinputs.symm.trans hinputs'
    rw [← hvin, heq]
  · intro heq
    exact ⟨inputs, hinputs, by rw [hvin, heq]⟩

theorem quorumSpends_iff {tip : Int} (name : Funding → Bytes) {fundings : List Funding}
    (hn : ∀ f ∈ fundings, f.n ≤ 0xffffffff) :
    QuorumSpends tip name fundings ↔ ∀ f ∈ fundings, name f = f.hash := by
  rw [← named_outpoints_iff]
  have htxhashes := @mapM_outpointOf tip name _ hn
  have hvin : ∀ (s : QuorumSizing) (sized : Bool),
      (s.buildVin (fundings.map fun f => (name f, UInt32.ofNat f.n)) sized).map
        (fun i => i.txhash ++ packL i.n) = fundings.map fun f => name f ++ packLE 4 f.n := by
    intro s sized
    rw [QuorumSizing.buildVin, List.map_map, List.map_map]
    refine List.map_congr_left fun f hf => ?_
    simp only [Function.comp_apply, packL_ofNat (hn f hf)]
  constructor
  · rintro ⟨txhashes, htxhashes', heq⟩
    cases htxhashes.symm.trans htxhashes'
    rw [← hvin ⟨.p2sh, 0, [], 0, []⟩ false, heq]
  · intro heq
    exact ⟨_, htxhashes, fun s sized => by rw [hvin, heq]⟩

/-- What either service reports of the same outputs, and what the builders make of it: inputs
with the right outpoints from blockchain.info, and from Esplora exactly when the hashes of all
funding transactions read the same in both directions. -/
theorem outpoints_iff (P : Crypto.Primitives) (tip tip' : Int)
    (selected : List (TPrivKey P.PrivateKey × List Funding)) (fundings : List Funding)
    (hbuilt : ∃ inputs, makeVin P (namedSources tip Funding.hash selected) = .ok inputs)
    (hn : ∀ f ∈ fundings, f.n ≤ 0xffffffff) :
    (∀ reported : List Funding, (BlockchainInfoBackend.decodeUnspent (blockchainInfoReply tip reported) >>=
        readUnspent) = .ok (reported.map fun f => f.utxo tip f.hash)) ∧
      (∀ (script : Bytes) (reported : List Funding), (∀ f ∈ reported, f.script = script) →
        (EsploraBackend.decodeEntries tip' script (.arr (reported.map Funding.esploraEntry)) >>=
          readUnspent) = .ok (reported.map fun f => f.utxo tip' f.hash.reverse)) ∧
      WalletSpends P tip Funding.hash selected ∧ QuorumSpends tip Funding.hash fundings ∧
      (WalletSpends P tip' (fun f => f.hash.reverse) selected ↔
        Palindromic (fundingsOf selected)) ∧
      (QuorumSpends tip' (fun f => f.hash.reverse) fundings ↔ Palindromic fundings) := by
  have hreverse : ∀ f : Funding, f.hash.reverse.length = 32 := fun f => by
    rw [List.length_reverse, f.hash_length]
  refine ⟨blockchainInfo_unspent tip, esplora_unspent tip', ?_, ?_, ?_, ?_⟩
  · exact (walletSpends_iff Funding.hash Funding.hash_length hbuilt).mpr fun _ _ => rfl
  · exact (quorumSpends_iff Funding.hash hn).mpr fun _ _ => rfl
  · exact walletSpends_iff _ hreverse hbuilt
  · exact quorumSpends_iff _ hn

/-- An output whose transaction has different names in the two orders. -/
def sampleFunding : Funding :=
  ⟨1 :: List.replicate 31 7, rfl, 0, 100000, Conservation.ownScript, some 800000⟩

def sampleSelected : List (TPrivKey Crypto.standIn.PrivateKey × List Funding) :=
  [(⟨0, .native, sampleSigner, "bc1q0"⟩, [sampleFunding])]

theorem makeVin_sampleSelected :
    ∃ inputs, makeVin Crypto.standIn (namedSources 800005 Funding.hash sampleSelected) =
      .ok inputs := by
  have hkey : requireKey Crypto.standIn (Crypto.privkey2pubkey Crypto.standIn sampleSigner)
      Conservation.ownScript .p2wpkh = .ok () := by decide +kernel
  have hform : validateUtxoScript Conservation.ownScript = .ok .p2wpkh := by decide +kernel
  simp only [makeVin, namedSources, sampleSelected, List.map_cons, List.map_nil,
    List.foldlM_cons, List.foldlM_nil, addInput, Funding.utxo, fromHex_hex, ok_bind,
    sampleFunding, hform, hkey]
  exact ⟨_, rfl⟩

theorem esplora_outpoints_differ :
    ¬∀ (selected : List (TPrivKey Crypto.standIn.PrivateKey × List Funding)) (tip tip' : Int),
      (∃ inputs, makeVin Crypto.standIn (namedSources tip Funding.hash selected) = .ok inputs) →
      WalletSpends Crypto.standIn tip' (fun f => f.hash.reverse) selected := by
  intro h
  have hspends := h sampleSelected 800005 800005 makeVin_sampleSelected
  have hreverse : ∀ f : Funding, f.hash.reverse.length = 32 := fun f => by
    rw [List.length_reverse, f.hash_length]
  have hnames := (walletSpends_iff _ hreverse makeVin_sampleSelected).mp hspends
  have hname := hnames sampleFunding (by simp [fundingsOf, sampleSelected])
  exact absurd hname (by decide)

theorem outpoints_iff_sample :
    WalletSpends Crypto.standIn 800005 (fun f => f.hash.reverse) sampleSelected ↔
      Palindromic (fundingsOf sampleSelected) :=
  (outpoints_iff Crypto.standIn 800005 800005 sampleSelected [sampleFunding]
    makeVin_sampleSelected (by decide)).2.2.2.2.1

end Yubtc.Outpoints
