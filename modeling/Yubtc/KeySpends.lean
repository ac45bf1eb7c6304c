import Yubtc.Addresses
import Yubtc.Conservation
import Yubtc.TaprootKeys
import Yubtc.TxCodec
import Yubtc.Pipeline
import Yubtc.Lib.KeyScripts

/-!
# Spending the outputs of a key

The rules by which an input spends an output of a key, read off the signed transaction and the
outputs it spends, and every transaction the wallet builds against them. The digest is taken of the
signed transaction, as a node takes it, and not of the one the signer had before it.
-/
namespace Yubtc.KeySpends

open Wire Errors ExceptRules Crypto Script Transaction PsbtData PsbtCodec PsbtRoles TxCodec
  Wallet FeeLoop DirectSigning Payment Pipeline TaprootKeys Addresses
open ScriptVm (Instr)

/-- The signature checks of a node, on a compressed key and on the coordinate of a key. -/
structure Verifier where
  ecdsa : Bytes → Bytes → Bytes → Bool
  schnorr : Bytes → Bytes → Bytes → Bool

/-- They accept what the curve package signs. -/
structure Accepts (P : Primitives) (V : Verifier) : Prop where
  ecdsa : ∀ key digest, V.ecdsa (privkey2pubkey P key) digest (P.sign key digest) = true
  schnorr : ∀ key digest,
    V.schnorr (slice (privkey2pubkey P key) 1 33) digest (P.signSchnorr key digest) = true

/-- What the opcode enumeration names the bytes of a key-hash script. -/
def keyTable (b : UInt8) : Option KeyScripts.Opcode :=
  if b = opDup then some .dup
  else if b = opHash160 then some .hash
  else if b = opEqualverify then some .equalVerify
  else if b = opChecksig then some .checkSig
  else none

section Rules

variable (P : Primitives) (V : Verifier)

/-- A signature with its hash type at the end. -/
def validEcdsa (digest sig key : Bytes) : Bool :=
  sig.getLast? = some sighashAll && V.ecdsa key digest sig.dropLast

def keyContext (digest : Bytes) : KeyScripts.Context :=
  ⟨keyTable, hash160 P, validEcdsa V digest⟩

/-- The transaction with the script of the spent output in the signed input, no script in any
other, and the hash type behind it. -/
def legacyDigest (tx : PsbtTransaction) (i : Nat) (lock : Bytes) : Bytes :=
  dsha256 P
    (PsbtTransaction.serializeStripped
      { tx with
        vin := tx.vin.mapIdx fun j vin => { vin with script := if j = i then lock else [] } } ++
      sighashAllLE)

/-- Input `i` of a signed transaction spends an output of a key. -/
inductive Unlocks (tx : PsbtTransaction) (coins : List SpendInput) (i : Nat) (vin : PsbtTxIn)
    (coin : SpendInput) : Prop
  | p2pkh (hash : Bytes) (items : List Bytes) (hlen : hash.length = 20)
    (hlock : coin.scriptPubkey = p2pkhShape.build hash) (hwitness : vin.witness = [])
    (hitems : ScriptVm.decode vin.script = some (items.map Instr.push))
    (hrun : KeyScripts.Succeeds (keyContext P V (legacyDigest P tx i coin.scriptPubkey))
      coin.scriptPubkey items.reverse)
  | p2wpkh (hash digest : Bytes) (hlen : hash.length = 20)
    (hlock : coin.scriptPubkey = p2wpkhShape.build hash) (hscript : vin.script = [])
    (hdigest : bip143Sighash P tx.sigTx i (compactSize 25 ++ p2pkhShape.build hash) coin.amount =
      .ok digest)
    (hcount : vin.witness.length = 2)
    (hrun : KeyScripts.Succeeds (keyContext P V digest) (p2pkhShape.build hash)
      vin.witness.reverse)
  | p2tr (output digest sig : Bytes) (hlen : output.length = 32)
    (hlock : coin.scriptPubkey = p2trShape.build output) (hscript : vin.script = [])
    (hdigest : taprootKeypathSighash P tx.sigTx i coins = .ok digest)
    (hwitness : vin.witness = [sig]) (hsize : sig.length = 64)
    (hvalid : V.schnorr output digest sig = true)

end Rules

variable {P : Primitives} {V : Verifier}

theorem p2pkh_eq {hash : Bytes} (h : hash.length = 20) :
    p2pkhShape.build hash =
      KeyScripts.keyHashScript opDup opHash160 opEqualverify opChecksig hash := by
  rw [KeyScripts.keyHashScript, h]
  rfl

theorem keyContext_names (digest : Bytes) :
    KeyScripts.Names (keyContext P V digest) opDup opHash160 opEqualverify opChecksig where
  above := by simp [opDup, opHash160, opEqualverify, opChecksig]
  dup := rfl
  hash := rfl
  equalVerify := rfl
  checkSig := rfl

/-- A signature with its hash type and the key of the hash succeed on the script. -/
theorem keyHash_succeeds (hV : Accepts P V) {key : P.PrivateKey} {hash : Bytes}
    (hlen : hash.length = 20) (hhash : hash160 P (privkey2pubkey P key) = hash) (digest : Bytes) :
    KeyScripts.Succeeds (keyContext P V digest) (p2pkhShape.build hash)
      [privkey2pubkey P key, P.sign key digest ++ [sighashAll]] := by
  rw [p2pkh_eq hlen]
  refine (KeyScripts.keyHash_succeeds_iff (keyContext_names digest) (by omega) _ _).mpr
    ⟨hhash, ?_⟩
  simp [keyContext, validEcdsa, hV.ecdsa]

/-- What the digests see of a signed transaction. -/
structure SignedFrom (tx stx : CTransaction) : Prop where
  vin : List.Forall₂ Alike stx.vin tx.vin
  vout : stx.vout = tx.vout
  locktime : stx.locktime = tx.locktime

theorem container_sigTx (tx : CTransaction) : (container tx).sigTx = tx.sigTx := by
  simp only [PsbtTransaction.sigTx, container, CTransaction.sigTx, List.map_map]
  rfl

theorem SignedFrom.sigTx_eq {tx stx : CTransaction} (h : SignedFrom tx stx) :
    (container stx).sigTx = tx.sigTx := by
  have hstx : stx = { tx with vin := stx.vin } := by
    cases stx
    cases tx
    obtain ⟨-, rfl, rfl⟩ := h
    rfl
  have halike := sigTx_alike h.vin
  rw [← hstx] at halike
  rw [container_sigTx, halike]

/-- Blanked inputs and the one that is signed are written the same for both transactions. -/
theorem blanked_serialize {vin vin' : List CIn} (h : List.Forall₂ Alike vin' vin) {i : Nat}
    {own : CIn} (hown : vin[i]? = some own) :
    ((vin'.map containerIn).mapIdx fun j (vin : PsbtTxIn) =>
        { vin with script := if j = i then own.script else [] }).map PsbtTxIn.serialize =
      ((vin.map fun vin => { vin with script := [] }).set i own).map CIn.serialize := by
  have hlen := h.length_eq
  have hi := (List.getElem?_eq_some_iff.mp hown).1
  apply List.ext_getElem (by simp [hlen])
  intro j hj hj'
  simp only [List.length_map, List.length_mapIdx] at hj
  have halike : Alike vin'[j] vin[j] := h.get hj (hlen ▸ hj)
  simp only [Alike, CIn.sigIn, SigIn.mk.injEq] at halike
  simp only [List.getElem_map, List.getElem_mapIdx, List.getElem_set]
  by_cases hij : i = j
  · subst hij
    rw [List.getElem?_eq_getElem hi] at hown
    cases hown
    simp only [PsbtTxIn.serialize, containerIn, CIn.serialize, halike, if_true]
  · simp only [PsbtTxIn.serialize, containerIn, CIn.serialize, halike, hij, Ne.symm hij, if_false]

/-- The legacy preimage of the signed transaction is the one that was signed. -/
theorem SignedFrom.legacyDigest_eq {tx stx : CTransaction} (h : SignedFrom tx stx) {i : Nat}
    {own : CIn} (hown : tx.vin[i]? = some own) :
    legacyDigest P (container stx) i own.script =
      dsha256 P (({ tx with
        vin := (tx.vin.map fun vin => { vin with script := [] }).set i own } :
          CTransaction).serialize ++ LittleEndian.packLE 4 0x01) := by
  have hvin := blanked_serialize h.vin hown
  have hlen := congrArg List.length hvin
  simp only [List.length_map] at hlen
  have hflat := congrArg List.flatten hvin
  rw [← List.flatMap_def, ← List.flatMap_def] at hflat
  have hvout : stx.vout.map containerOut = tx.vout.map containerOut := by rw [h.vout]
  refine congrArg (dsha256 P) (congrArg (· ++ sighashAllLE) ?_)
  simp only [PsbtTransaction.serializeStripped, CTransaction.serialize,
    CTransaction.serializeStripped, container, hflat, hlen, hvout, h.locktime, List.length_map,
    List.flatMap_map]
  rfl

/-- The scripts of the three addresses of a key. -/
inductive OwnLock (P : Primitives) (pubkey : Bytes) : Bytes → Prop
  | p2pkh : OwnLock P pubkey (p2pkhShape.build (hash160 P pubkey))
  | p2wpkh : OwnLock P pubkey (p2wpkhShape.build (hash160 P pubkey))
  | p2tr (output : Bytes) (h : taprootOutputKey P (slice pubkey 1 33) = .ok output) :
    OwnLock P pubkey (p2trShape.build output)

theorem build_payload {s : Shape} {script : Bytes} (h : s.Fits script) :
    s.build (s.payload script) = script := by
  obtain ⟨-, hhead, htail⟩ := h
  have hsize : s.head.length + s.size - s.head.length = s.size := by omega
  have hmid : s.payload script ++ s.tail = script.drop s.head.length := by
    rw [Shape.payload, slice, hsize, ← htail, ← List.drop_drop, List.take_append_drop]
  rw [Shape.build, List.append_assoc, hmid]
  conv_rhs => rw [← List.take_append_drop s.head.length script, hhead]

theorem extract_eq_ok {s : Shape} {e : Exn} {script payload : Bytes} :
    extract s e script = .ok payload ↔ s.Fits script ∧ s.payload script = payload := by
  rw [extract, reject_bind_eq_ok, not_not, pure_eq_ok, Except.ok.injEq]

/-- What the input builder lets pass is a script of the key. -/
theorem ownLock_of_required {pubkey script : Bytes} {form : UtxoForm}
    (h : requireKey P pubkey script form = .ok ()) : OwnLock P pubkey script := by
  cases form with
  | p2sh => cases h
  | p2pkh =>
    obtain ⟨hash, hextract, h⟩ := bind_eq_ok.mp h
    obtain ⟨hfits, rfl⟩ := extract_eq_ok.mp hextract
    have hhash := not_not.mp (reject_eq_ok.mp h)
    rw [← build_payload hfits, hhash]
    exact .p2pkh
  | p2wpkh =>
    obtain ⟨hash, hextract, h⟩ := bind_eq_ok.mp h
    obtain ⟨hfits, rfl⟩ := extract_eq_ok.mp hextract
    have hhash := not_not.mp (reject_eq_ok.mp h)
    rw [← build_payload hfits, hhash]
    exact .p2wpkh
  | p2tr =>
    obtain ⟨key, hextract, h⟩ := bind_eq_ok.mp h
    obtain ⟨hfits, rfl⟩ := extract_eq_ok.mp hextract
    obtain ⟨output, hout, h⟩ := bind_eq_ok.mp h
    have hkey := not_not.mp (reject_eq_ok.mp h)
    rw [← build_payload hfits, hkey]
    exact .p2tr output hout

/-- A key that the curve package has made from a scalar. -/
def FromScalar (P : Primitives) (key : P.PrivateKey) : Prop :=
  ∃ d, 0 < d ∧ d < secp256k1N ∧ P.privateKey (toBytesBig 32 d) = some key

theorem taprootSignSighash_signer {key : P.PrivateKey} {digest sig : Bytes}
    (h : taprootSignSighash P key digest = .ok sig) :
    ∃ signer, P.signSchnorr signer digest = sig := by
  rw [taprootSignSighash] at h
  split at h
  · cases h
  · next signer _ =>
    cases h
    exact ⟨signer, rfl⟩

/-- A key-path signature is valid under the output key of the address. -/
theorem keyPath_valid {E : Type} [AddCommGroup E] {C : XOnly.Curve E Bytes}
    {point : P.PublicKey → E} (hC : Implements P C point) (hV : Accepts P V) {key : P.PrivateKey}
    (hkey : FromScalar P key) {output digest sig : Bytes}
    (hout : taprootOutputKey P (slice (privkey2pubkey P key) 1 33) = .ok output)
    (hsign : taprootSignSighash P key digest = .ok sig) :
    V.schnorr output digest sig = true := by
  obtain ⟨d, hpos, hlt, hprivate⟩ := hkey
  have hx : slice (privkey2pubkey P key) 1 33 = C.x (d • C.gen) := by
    obtain ⟨key', hkey', hsecret⟩ := hC.privateKey_ok d hpos hlt
    cases hprivate.symm.trans hkey'
    rw [privkey2pubkey, hC.slice_format, hC.publicKey_eq, hsecret, scalar_toBytesBig hlt]
  rw [hx] at hout
  have htweak : tweakInt P (C.x (d • C.gen)) % secp256k1N ≠ 0 := by
    intro hzero
    rw [hC.keyPath_zero hpos hlt hzero] at hout
    cases hout
  have hscalar : taprootTweakedScalar P key ≠ 0 := by
    intro hzero
    rw [taprootSignSighash, hzero, hC.privateKey_zero] at hsign
    cases hsign
  rw [hC.keyPath hpos hlt hprivate htweak hscalar] at hout
  obtain ⟨signer, hsigner, hxsigner⟩ := hC.taprootSignSighash_eq hscalar digest
  cases hsigner.symm.trans hsign
  rw [← Except.ok.inj hout, ← hxsigner]
  exact hV.schnorr signer digest

theorem decode_pushes {sig pubkey : Bytes} (hsig : sig.length ≤ 0x4b)
    (hpubkey : pubkey.length ≤ 0x4b) :
    ScriptVm.decode (pushes sig pubkey) = some ([sig, pubkey].map Instr.push) := by
  have hlast := ScriptVm.decode_direct pubkey [] hpubkey
  rw [List.append_nil, ScriptVm.decode_nil] at hlast
  rw [pushes, List.cons_append, ScriptVm.decode_direct sig _ hsig, hlast]
  rfl

/-- The script code of a P2WPKH output is the script of its hash. -/
theorem p2wpkhScriptCode_build {hash : Bytes} (h : hash.length = 20) :
    p2wpkhScriptCode (p2wpkhShape.build hash) = compactSize 25 ++ p2pkhShape.build hash := by
  have hpayload : slice (p2wpkhShape.build hash) 2 22 = hash := p2wpkhShape.payload_build _ h
  rw [p2wpkhScriptCode, hpayload]
  rfl

section Input

variable {E : Type} [AddCommGroup E] {C : XOnly.Curve E Bytes} {point : P.PublicKey → E}
  {tx stx : CTransaction} {signers : List (P.PrivateKey × Bytes)} {coins : List SpendInput}
  {i : Nat} {own signed : CIn} {key : P.PrivateKey} {amount : Int}

/-- A signed input of an own script satisfies it, in the transaction it ends up in. -/
theorem signedInput_unlocks (hP : P.Lawful) (hC : Implements P C point) (hV : Accepts P V)
    (hkey : FromScalar P key) (hown : tx.vin[i]? = some own)
    (hsigner : signers[i]? = some (key, privkey2pubkey P key))
    (hcoin : coins[i]? = some ⟨amount, own.script⟩) (hcount : coins.length = tx.vin.length)
    (hwitness : own.witness = []) (hlock : OwnLock P (privkey2pubkey P key) own.script)
    (h : signedInput P tx signers (some coins) i = .ok signed) (hstx : SignedFrom tx stx) :
    Unlocks P V (container stx) coins i (containerIn signed) ⟨amount, own.script⟩ := by
  have hi : i < tx.vin.length := (List.getElem?_eq_some_iff.mp hown).1
  have hsigs : tx.sigTx.vin.length = tx.vin.length := List.length_map _
  unfold signedInput at h
  simp only [hsigner, hown, orElseThrow_some, ok_bind] at h
  generalize hscript : own.script = script at hlock h hcoin ⊢
  cases hlock with
  | p2pkh =>
    have hlen := hash160_length P hP (privkey2pubkey P key)
    rw [scheme_of_form (formOfScript_p2pkh hlen)] at h
    obtain ⟨scriptSig, hsig, h⟩ := bind_eq_ok.mp h
    cases h
    simp only [legacyScriptSig, hown, orElseThrow_some, ok_bind, signData] at hsig
    have hpubkey : (privkey2pubkey P key).length = 33 := hP.format_length _
    have hsame := hstx.legacyDigest_eq (P := P) hown
    rw [hscript] at hsame
    generalize dsha256 P _ = digest at hsame hsig
    have hsign := hP.sign_length key digest
    have hsize : (P.sign key digest ++ [sighashAll]).length ≤ 73 := by
      rw [List.length_append, List.length_singleton]
      omega
    rw [cScript_pushes (by omega) (by omega)] at hsig
    cases hsig
    refine .p2pkh _ _ hlen rfl hwitness (decode_pushes (by omega) (by omega)) ?_
    dsimp only
    rw [hsame]
    exact keyHash_succeeds hV hlen rfl digest
  | p2wpkh =>
    have hlen := hash160_length P hP (privkey2pubkey P key)
    rw [scheme_of_form (formOfScript_p2wpkh hlen)] at h
    obtain ⟨spend, hspend, h⟩ := bind_eq_ok.mp h
    obtain ⟨digest, hdigest, h⟩ := bind_eq_ok.mp h
    cases h
    rw [spendInput, Option.bind_some, hcoin, orElseThrow_some] at hspend
    cases hspend
    refine .p2wpkh _ digest hlen rfl rfl ?_ rfl (keyHash_succeeds hV hlen rfl digest)
    rw [hstx.sigTx_eq, ← p2wpkhScriptCode_build hlen, bip143Sighash, reject_false _ (by omega),
      ok_bind]
    exact hdigest
  | p2tr output hout =>
    have hlen := taprootOutputKey_length hP hout
    rw [scheme_of_form (formOfScript_p2tr hlen)] at h
    obtain ⟨-, h⟩ := reject_bind_eq_ok.mp h
    obtain ⟨digest, hdigest, h⟩ := bind_eq_ok.mp h
    obtain ⟨sig, hsig, h⟩ := bind_eq_ok.mp h
    cases h
    refine .p2tr output digest sig hlen rfl rfl ?_ rfl ?_ (keyPath_valid hC hV hkey hout hsig)
    · rw [hstx.sigTx_eq, taprootKeypathSighash, reject_false _ (by omega), ok_bind,
        reject_false _ (by omega), ok_bind]
      exact hdigest
    · obtain ⟨signer, rfl⟩ := taprootSignSighash_signer hsig
      exact hP.signSchnorr_length signer digest

end Input

/-- An input, the amount it spends and the key that signs it. -/
structure Entry (P : Primitives) where
  vin : CIn
  amount : Int
  key : P.PrivateKey

/-- The inputs of a list of entries. -/
def ofEntries (entries : List (Entry P)) : Inputs P where
  vin := entries.map Entry.vin
  inAmount := (entries.map Entry.amount).sum
  signers := entries.map fun e => (e.key, privkey2pubkey P e.key)
  spend := entries.map fun e => ⟨e.amount, e.vin.script⟩

/-- The UTXOs in the order of the sources, each with its key. -/
def owned (sources : List (Source P.PrivateKey)) : List (P.PrivateKey × Utxo) :=
  sources.flatMap fun source => source.2.map fun u => (source.1.privkey, u)

/-- The entry of a UTXO: its outpoint, its script and its amount. -/
structure SpendsUtxo (o : P.PrivateKey × Utxo) (e : Entry P) : Prop where
  script : fromHex o.2.script = .ok e.vin.script
  txhash : fromHex o.2.tx = .ok e.vin.txhash
  n : e.vin.n.toNat = o.2.outN
  witness : e.vin.witness = []
  amount : e.amount = o.2.amount
  key : e.key = o.1
  lock : OwnLock P (privkey2pubkey P e.key) e.vin.script

theorem make_fields {txhash script : Bytes} {n sequence : Int} {witness : List Bytes} {vin : CIn}
    (h : CIn.make txhash n script sequence witness = .ok vin) :
    vin.txhash = txhash ∧ (vin.n.toNat : Int) = n ∧ vin.script = script ∧
      vin.witness = witness := by
  unfold CIn.make at h
  split at h
  · obtain ⟨hneg, h⟩ := reject_bind_eq_ok.mp h
    obtain ⟨hlarge, h⟩ := reject_bind_eq_ok.mp h
    obtain ⟨-, h⟩ := reject_bind_eq_ok.mp h
    obtain ⟨-, h⟩ := reject_bind_eq_ok.mp h
    cases h
    refine ⟨rfl, ?_, rfl, rfl⟩
    have hlt : n.toNat < 2 ^ 32 := by omega
    have hn : (UInt32.ofNat n.toNat).toNat = n.toNat := UInt32.toNat_ofNat_of_lt' hlt
    rw [hn]
    omega
  · cases h

theorem addInput_entry {o : P.PrivateKey × Utxo} {entries : List (Entry P)} {inputs : Inputs P}
    (h : addInput P o.1 (ofEntries entries) o.2 = .ok inputs) :
    ∃ e, SpendsUtxo o e ∧ inputs = ofEntries (entries ++ [e]) := by
  obtain ⟨script, hscript, h⟩ := bind_eq_ok.mp h
  obtain ⟨form, -, h⟩ := bind_eq_ok.mp h
  obtain ⟨_, hkey, h⟩ := bind_eq_ok.mp h
  obtain ⟨txhash, htxhash, h⟩ := bind_eq_ok.mp h
  obtain ⟨vin, hvin, h⟩ := bind_eq_ok.mp h
  cases h
  obtain ⟨hhash, hn, hlock, hwitness⟩ := make_fields hvin
  refine ⟨⟨vin, o.2.amount, o.1⟩, ⟨?_, ?_, ?_, hwitness, rfl, rfl, ?_⟩, ?_⟩
  · rw [hscript, hlock]
  · rw [htxhash, hhash]
  · exact_mod_cast hn
  · rw [hlock]
    exact ownLock_of_required hkey
  · simp [ofEntries, hlock]

theorem foldlM_owned {β : Type} (f : P.PrivateKey → β → Utxo → Except Exn β)
    (sources : List (Source P.PrivateKey)) (b : β) :
    sources.foldlM (fun b source => source.2.foldlM (f source.1.privkey) b) b =
      (owned sources).foldlM (fun b o => f o.1 b o.2) b := by
  induction sources generalizing b with
  | nil => rfl
  | cons source sources ih =>
    rw [owned, List.flatMap_cons, List.foldlM_append, List.foldlM_map, List.foldlM_cons, funext ih]
    rfl

theorem makeVin_entries {sources : List (Source P.PrivateKey)} {inputs : Inputs P}
    (h : makeVin P sources = .ok inputs) :
    ∃ entries, List.Forall₂ SpendsUtxo (owned sources) entries ∧ inputs = ofEntries entries := by
  rw [makeVin, foldlM_owned] at h
  refine foldlM_induct (motive := fun done r =>
    ∃ entries, List.Forall₂ SpendsUtxo done entries ∧ r = ofEntries entries) ⟨[], .nil, rfl⟩ ?_ h
  intro done o rest b b' _ hb hadd
  obtain ⟨entries, hall, rfl⟩ := hb
  obtain ⟨e, he, rfl⟩ := addInput_entry hadd
  exact ⟨entries ++ [e], List.rel_append hall (.cons he .nil), rfl⟩

/-- What is built is signed from the gathered inputs. -/
theorem buildTransaction_signed {entries : List (Entry P)}
    {makeLockScript : String → Except Exn Bytes}
    {src dst : String} {amount : Option Int} {fee : Int} {built : VoutResult × CTransaction}
    (h : buildTransaction P makeLockScript (ofEntries entries) src dst amount fee = .ok built) :
    ∃ vout vin, (List.range entries.length).mapM
        (signedInput P ⟨entries.map Entry.vin, vout, 0⟩ (ofEntries entries).signers
          (some (ofEntries entries).spend)) = .ok vin ∧ built.2 = ⟨vin, vout, 0⟩ := by
  obtain ⟨voutResult, -, h⟩ := bind_eq_ok.mp h
  obtain ⟨stx, hstx, h⟩ := bind_eq_ok.mp h
  cases h
  rw [signSegwit_eq] at hstx
  obtain ⟨-, hstx⟩ := reject_bind_eq_ok.mp hstx
  obtain ⟨vin, hvin, hstx⟩ := bind_eq_ok.mp hstx
  cases hstx
  refine ⟨voutResult.vout, vin, ?_, rfl⟩
  rw [← hvin]
  simp [ofEntries]

/-- A node's view of the outputs that the UTXOs name. -/
def Coin (o : P.PrivateKey × Utxo) (coin : SpendInput) : Prop :=
  coin.amount = o.2.amount ∧ fromHex o.2.script = .ok coin.scriptPubkey

/-- An input that names the outpoint of a UTXO. -/
def NamesOutpoint (o : P.PrivateKey × Utxo) (vin : CIn) : Prop :=
  fromHex o.2.tx = .ok vin.txhash ∧ vin.n.toNat = o.2.outN

/-- A transaction spends these UTXOs: one input for each, in order, that names its outpoint and
satisfies its script. -/
def SpendsAll (P : Primitives) (V : Verifier) (utxos : List (P.PrivateKey × Utxo))
    (tx : CTransaction) : Prop :=
  ∃ coins, List.Forall₂ Coin utxos coins ∧ List.Forall₂ NamesOutpoint utxos tx.vin ∧
    ∀ (i : Nat) vin coin, tx.vin[i]? = some vin → coins[i]? = some coin →
      Unlocks P V (container tx) coins i (containerIn vin) coin

section Transaction

variable {E : Type} [AddCommGroup E] {C : XOnly.Curve E Bytes} {point : P.PublicKey → E}
  {makeLockScript : String → Except Exn Bytes} {src dst : String} {amount : Option Int}

theorem buildTransaction_spends (hP : P.Lawful) (hC : Implements P C point) (hV : Accepts P V)
    {utxos : List (P.PrivateKey × Utxo)} (hkeys : ∀ o ∈ utxos, FromScalar P o.1)
    {entries : List (Entry P)} (hentries : List.Forall₂ SpendsUtxo utxos entries) {fee : Int}
    {built : VoutResult × CTransaction}
    (h : buildTransaction P makeLockScript (ofEntries entries) src dst amount fee = .ok built) :
    SpendsAll P V utxos built.2 := by
  obtain ⟨vout, vin, hvin, hbuilt⟩ := buildTransaction_signed h
  rw [hbuilt]
  have hcount : vin.length = entries.length := by
    rw [mapM_length hvin, List.length_range]
  have hsigned : ∀ (i : Nat) signed, vin[i]? = some signed → ∃ e, entries[i]? = some e ∧
      signedInput P ⟨entries.map Entry.vin, vout, 0⟩ (ofEntries entries).signers
        (some (ofEntries entries).spend) i = .ok signed := by
    intro i signed hi
    have hlt : i < entries.length := hcount ▸ (List.getElem?_eq_some_iff.mp hi).1
    obtain ⟨j, hj, hone⟩ := mapM_getElem? hvin i signed hi
    rw [List.getElem?_range hlt] at hj
    cases hj
    exact ⟨entries[i], List.getElem?_eq_getElem hlt, hone⟩
  have hutxo : ∀ (i : Nat) e, entries[i]? = some e → ∃ o, utxos[i]? = some o ∧ SpendsUtxo o e := by
    intro i e he
    obtain ⟨hi, rfl⟩ := List.getElem?_eq_some_iff.mp he
    have hi' : i < utxos.length := hentries.length_eq ▸ hi
    exact ⟨utxos[i], List.getElem?_eq_getElem hi', hentries.get hi' hi⟩
  have hown : ∀ (i : Nat) e, entries[i]? = some e →
      (⟨entries.map Entry.vin, vout, 0⟩ : CTransaction).vin[i]? = some e.vin := by
    intro i e he
    rw [List.getElem?_map, he]
    rfl
  have halike : List.Forall₂ Alike vin (entries.map Entry.vin) := by
    refine List.forall₂_iff_get.mpr ⟨by rw [hcount, List.length_map], ?_⟩
    intro i hi hi'
    obtain ⟨e, he, hone⟩ := hsigned i _ (List.getElem?_eq_getElem hi)
    have hget : (entries.map Entry.vin).get ⟨i, hi'⟩ = e.vin := by
      have hmap := hown i e he
      rw [List.getElem?_eq_getElem hi'] at hmap
      exact Option.some.inj hmap
    rw [hget]
    exact signedInput_alike P i e.vin _ (hown i e he) hone
  refine ⟨(ofEntries entries).spend, ?_, ?_, ?_⟩
  · refine List.forall₂_map_right_iff.mpr (hentries.imp ?_)
    exact fun o e he => ⟨he.amount, he.script⟩
  · refine List.forall₂_iff_get.mpr ⟨by rw [hcount, hentries.length_eq], fun i hi hi' => ?_⟩
    obtain ⟨e, he, hone⟩ := hsigned i _ (List.getElem?_eq_getElem hi')
    obtain ⟨o, ho, hspends⟩ := hutxo i e he
    rw [List.getElem?_eq_getElem hi] at ho
    cases ho
    have hsame := signedInput_alike P i e.vin _ (hown i e he) hone
    simp only [Alike, CIn.sigIn, SigIn.mk.injEq] at hsame
    simp only [NamesOutpoint, List.get_eq_getElem, hsame]
    exact ⟨hspends.txhash, hspends.n⟩
  · intro i signed coin hi hcoin
    obtain ⟨e, he, hone⟩ := hsigned i signed hi
    obtain ⟨o, ho, hspends⟩ := hutxo i e he
    have hsame : (ofEntries entries).spend[i]? = some ⟨e.amount, e.vin.script⟩ := by
      simp [ofEntries, he]
    cases hsame.symm.trans hcoin
    have hsigner : (ofEntries entries).signers[i]? = some (e.key, privkey2pubkey P e.key) := by
      simp [ofEntries, he]
    have hfrom : FromScalar P e.key := hspends.key ▸ hkeys o (List.mem_of_getElem? ho)
    exact signedInput_unlocks hP hC hV hfrom (hown i e he) hsigner hsame (by simp [ofEntries])
      hspends.witness hspends.lock hone ⟨halike, rfl, rfl⟩

/-- Every transaction the wallet returns spends the UTXOs of its sources: whatever it pays, by
whatever fee and whichever mix of forms, each input satisfies the script of the output it names, by
the digest of the transaction that is returned. -/
theorem transaction_spends (hP : P.Lawful) (hC : Implements P C point) (hV : Accepts P V)
    {sources : List (Source P.PrivateKey)} {feekb fee : Int} {result : TxResult}
    (hkeys : ∀ source ∈ sources, FromScalar P source.1.privkey)
    (h : MakeTransaction P makeLockScript sources src dst amount feekb fee (.ok result)) :
    SpendsAll P V (owned sources) result.tx := by
  have howned : ∀ o ∈ owned sources, FromScalar P o.1 := by
    intro o ho
    obtain ⟨source, hsource, ho⟩ := List.mem_flatMap.mp ho
    obtain ⟨u, -, rfl⟩ := List.mem_map.mp ho
    exact hkeys source hsource
  unfold MakeTransaction at h
  cases hvin : makeVin P sources with
  | error e =>
    rw [hvin] at h
    cases h
  | ok inputs =>
    rw [hvin] at h
    obtain ⟨entries, hentries, rfl⟩ := makeVin_entries hvin
    dsimp only at h
    by_cases hfee : fee = 0
    · rw [if_neg (not_not.mpr hfee)] at h
      obtain ⟨best, hloop, hbest⟩ := h
      cases best with
      | error e => cases hbest
      | ok best =>
        cases hbest
        obtain ⟨-, hbuild⟩ := feeLoop_sound hloop
        exact buildTransaction_spends hP hC hV howned hentries hbuild
    · rw [if_pos hfee] at h
      cases hbuild : buildTransaction P makeLockScript (ofEntries entries) src dst amount fee with
      | error e =>
        rw [hbuild] at h
        cases h
      | ok built =>
        rw [hbuild] at h
        cases h
        exact buildTransaction_spends hP hC hV howned hentries hbuild

end Transaction

def residues : Primitives := constantPrimitives 2

theorem residues_lawful : residues.Lawful where
  sha256_length _ := toBytesBig_length 32 2
  ripemd160_length := standIn_lawful.ripemd160_length
  format_length _ := congrArg Nat.succ (toBytesBig_length 32 _)
  sign_length key := standIn_lawful.sign_length (Subtype.val key)
  signSchnorr_length key := standIn_lawful.signSchnorr_length (Subtype.val key)

def acceptAll : Verifier := ⟨fun _ _ _ => true, fun _ _ _ => true⟩

theorem acceptAll_accepts : Accepts residues acceptAll where
  ecdsa _ _ := rfl
  schnorr _ _ := rfl

theorem residues_implements :
    Implements residues (residueCurve secp256k1N_odd) Subtype.val := constant_implements 2

def residueKey : residues.PrivateKey := (⟨5, by decide, by decide⟩ : Scalar secp256k1N)

theorem residues_privateKey : residues.privateKey = Scalar.read secp256k1N := rfl

theorem read_scalar {n : Nat} (key : Scalar n)
    (hread : fromBytesBig (toBytesBig 32 key.val) = key.val) :
    Scalar.read n (toBytesBig 32 key.val) = some key := by
  have hrange : 0 < fromBytesBig (toBytesBig 32 key.val) ∧
      fromBytesBig (toBytesBig 32 key.val) < n := by
    rw [hread]
    exact key.2
  rw [Scalar.read, dif_pos hrange]
  exact congrArg some (Subtype.ext hread)

theorem residues_scalar (key : Scalar secp256k1N) : FromScalar residues key := by
  have hrange : 0 < key.val ∧ key.val < secp256k1N := key.2
  refine ⟨key.val, hrange.1, hrange.2, ?_⟩
  rw [residues_privateKey]
  exact read_scalar key (scalar_toBytesBig hrange.2)

/-- The P2WPKH script of the key; the digest is the same for all keys. -/
def residueScript : Bytes :=
  p2wpkhShape.build (hash160 residues (privkey2pubkey residues residueKey))

@[irreducible] def residueSources : List (Source residues.PrivateKey) :=
  [(⟨0, .native, residueKey, "bc1q0"⟩,
    [⟨Net.hex (List.replicate 32 9), 0, 100000, Net.hex residueScript, 6⟩])]

def residueInputs : Inputs residues :=
  ⟨[⟨List.replicate 32 9, List.length_replicate, 0, residueScript, 0xffffffff, []⟩], 100000,
    [(residueKey, privkey2pubkey residues residueKey)], [⟨100000, residueScript⟩]⟩

theorem makeVin_residueSources : makeVin residues residueSources = .ok residueInputs := by
  have hkey : requireKey residues (privkey2pubkey residues residueKey) residueScript .p2wpkh =
      .ok () := by decide +kernel
  have hform : validateUtxoScript residueScript = .ok .p2wpkh := by decide +kernel
  simp only [makeVin, residueSources, List.foldlM_cons, List.foldlM_nil, addInput,
    QuorumPayment.fromHex_hex, ok_bind, hform, hkey]
  rfl

theorem residues_made : ∃ result, MakeTransaction residues sampleLockScript residueSources "src"
    "dst" (some 90000) 1000 1000 (.ok result) := by
  have hbuilt : (buildTransaction residues sampleLockScript residueInputs "src" "dst" (some 90000)
      1000).toBool = true := by decide +kernel
  cases hbuild : buildTransaction residues sampleLockScript residueInputs "src" "dst" (some 90000)
      1000 with
  | error e =>
    rw [hbuild] at hbuilt
    cases hbuilt
  | ok built =>
    refine ⟨⟨built.2, built.1.cashback, built.1.amount, 1000⟩, ?_⟩
    unfold MakeTransaction
    rw [makeVin_residueSources]
    dsimp only
    rw [if_pos (by decide), hbuild]
    rfl

theorem transaction_spends_sample : ∃ result,
    MakeTransaction residues sampleLockScript residueSources "src" "dst" (some 90000) 1000 1000
      (.ok result) ∧ SpendsAll residues acceptAll (owned residueSources) result.tx := by
  obtain ⟨result, hmade⟩ := residues_made
  have hkeys : ∀ source ∈ residueSources, FromScalar residues source.1.privkey :=
    fun source _ => residues_scalar source.1.privkey
  exact ⟨result, hmade, transaction_spends residues_lawful residues_implements acceptAll_accepts
    hkeys hmade⟩

end Yubtc.KeySpends
