import Yubtc.Lib.Hex
import Yubtc.FeeLoop
import Yubtc.DirectSigning
import Yubtc.Sizes
import Yubtc.QuorumPsbt
import Yubtc.Wallet

/-!
# Building transactions

`_make_vin`, `make_transaction` after its inputs are selected, and the sizing and the loop of
`ms_create_psbt`. The chosen outputs, the change address and the lock scripts of addresses are
given.
-/
namespace Yubtc.Payment

open Wire Errors ExceptRules Crypto Script Transaction PsbtData QuorumPsbt Wallet FeeLoop
  DirectSigning Sizes

/-- `bytes.fromhex`. -/
def fromHex (text : String) : Except Exn Bytes :=
  match Hex.decode text.toList with
  | .ok data => .ok data
  | .error pos => .error (.valueError
      ("non-hexadecimal number found in fromhex() arg at position " ++ toString pos))

inductive UtxoForm where
  | p2pkh
  | p2sh
  | p2wpkh
  | p2tr
  deriving DecidableEq

def validateUtxoScript (script : Bytes) : Except Exn UtxoForm :=
  if script.length = 25 then do
    let _ ← script2pkh script
    .ok .p2pkh
  else if script.length = 23 then do
    reject (script.getD 0 0 ≠ 0xa9 ∨ script.getD 1 0 ≠ 0x14 ∨ script.getD 22 0 ≠ 0x87)
      (.valueError "unsupported utxo script")
    .ok .p2sh
  else if script.length = 22 then do
    let _ ← extractP2wpkhHash script
    .ok .p2wpkh
  else if script.length = 34 then do
    let _ ← extractP2trOutputKey script
    .ok .p2tr
  else .error (.valueError "unsupported utxo script")

section

variable (P : Primitives)

def unknownPubkey : Exn := .valueError "unknown pubkey required"

/-- The key that a script of the form requires is this one. -/
def requireKey (pubkey script : Bytes) : UtxoForm → Except Exn Unit
  | .p2sh => .error (.valueError "p2sh utxo cannot be spent by the wallet")
  | .p2tr => do
    let requiredKey ← extractP2trOutputKey script
    let ownKey ← taprootOutputKey P (slice pubkey 1 33)
    reject (requiredKey ≠ ownKey) unknownPubkey
  | .p2wpkh => do
    let requiredHash ← extractP2wpkhHash script
    reject (requiredHash ≠ hash160 P pubkey) unknownPubkey
  | .p2pkh => do
    let requiredHash ← script2pkh script
    reject (requiredHash ≠ hash160 P pubkey) unknownPubkey

/-- What `_make_vin` gathers: one input, signer and spend entry for every UTXO. -/
structure Inputs where
  vin : List CIn
  inAmount : Int
  signers : List (P.PrivateKey × Bytes)
  spend : List SpendInput

def noInputs : Inputs P := ⟨[], 0, [], []⟩

/-- One UTXO of a key. -/
def addInput (privkey : P.PrivateKey) (inputs : Inputs P) (u : Utxo) : Except Exn (Inputs P) := do
  let pubkey := privkey2pubkey P privkey
  let txLockScript ← fromHex u.script
  let form ← validateUtxoScript txLockScript
  requireKey P pubkey txLockScript form
  let txhash ← fromHex u.tx
  let vin ← CIn.make txhash u.outN txLockScript 0xffffffff []
  .ok ⟨inputs.vin ++ [vin], inputs.inAmount + u.amount, inputs.signers ++ [(privkey, pubkey)],
    inputs.spend ++ [⟨u.amount, txLockScript⟩]⟩

def makeVin (sources : List (Source P.PrivateKey)) : Except Exn (Inputs P) :=
  sources.foldlM (fun inputs source => source.2.foldlM (addInput P source.1.privkey) inputs)
    (noInputs P)

structure TxResult where
  tx : CTransaction
  cashback : Int
  amount : Int
  fee : Int

variable (makeLockScript : String → Except Exn Bytes)

/-- The outputs for a fee, and the signed transaction that has them. -/
def buildTransaction (inputs : Inputs P) (src dst : String) (amount : Option Int) (fee : Int) :
    Except Exn (VoutResult × CTransaction) := do
  let voutResult ← makeVout makeLockScript src dst inputs.inAmount amount fee
  let tx : CTransaction := ⟨inputs.vin, voutResult.vout, 0⟩
  let stx ← signSegwit P tx inputs.signers (some inputs.spend)
  .ok (voutResult, stx)

/-- The loop's view of it; the fee of a size is `int(txsize * feekb / 1000)`. -/
def transactionPricing (inputs : Inputs P) (src dst : String) (amount : Option Int) (feekb : Int) :
    Pricing CTransaction where
  build := buildTransaction P makeLockScript inputs src dst amount
  vsize := CTransaction.vsize
  newFee txsize := orElseThrow .overflowError (Binary64.truncDiv (txsize * feekb) 1000)

/-- `make_transaction` once the inputs and the change address are selected. A fee of 0 asks for
the loop. -/
def MakeTransaction (sources : List (Source P.PrivateKey)) (src dst : String) (amount : Option Int)
    (feekb fee : Int) (result : Except Exn TxResult) : Prop :=
  match makeVin P sources with
  | .error e => result = .error e
  | .ok inputs =>
    if fee ≠ 0 then
      result = (buildTransaction P makeLockScript inputs src dst amount fee).map fun built =>
        ⟨built.2, built.1.cashback, built.1.amount, fee⟩
    else
      ∃ best, FeeLoopReturns (transactionPricing P makeLockScript inputs src dst amount feekb)
          feekb best ∧
        result = best.map fun c => ⟨c.tx, c.vout.cashback, c.vout.amount, c.fee⟩

end

def msSigSizeEstimate : Nat := 73
def msSigSizeEstimateTap : Nat := 66

/-- What the sized spend of a quorum depends on. The last two are for the leaf form only. -/
structure QuorumSizing where
  form : MsForm
  m : Nat
  redeem : Bytes
  nKeys : Nat
  controlBlock : Bytes

namespace QuorumSizing

def scriptSigLen (s : QuorumSizing) : Nat :=
  1 + s.m * (1 + msSigSizeEstimate) + pushDataLen s.redeem.length

def sizedWitness (s : QuorumSizing) (sized : Bool) : List Bytes :=
  if ¬sized then []
  else if s.form = .p2tr then
    List.replicate s.m (List.replicate msSigSizeEstimateTap 0) ++
      List.replicate (s.nKeys - s.m) [] ++ [s.redeem, s.controlBlock]
  else [] :: List.replicate s.m (List.replicate msSigSizeEstimate 0) ++ [s.redeem]

def buildVin (s : QuorumSizing) (txhashes : List (Bytes × UInt32)) (sized : Bool) :
    List PsbtTxIn :=
  txhashes.map fun outpoint =>
    ⟨outpoint.1, outpoint.2,
      if sized ∧ s.form = .p2sh then List.replicate s.scriptSigLen 0 else [],
      0xfffffffe, s.sizedWitness (sized && s.form != .p2sh)⟩

/-- The transaction of either vin with the outputs of `make_vout`. -/
def transaction (s : QuorumSizing) (txhashes : List (Bytes × UInt32)) (sized : Bool)
    (vout : List COut) : PsbtTransaction :=
  ⟨2, s.buildVin txhashes sized, vout.map fun o => ⟨o.amount, o.script⟩, 0⟩

end QuorumSizing

def weight (tx : PsbtTransaction) : Nat :=
  tx.serializeStripped.length * 3 + tx.serializeWire.length

def vsize (tx : PsbtTransaction) : Nat := (weight tx + 3) / 4

variable (makeLockScript : String → Except Exn Bytes)

def quorumPricing (s : QuorumSizing) (txhashes : List (Bytes × UInt32)) (quorumAddr dst : String)
    (inAmount amount feekb : Int) : Pricing PsbtTransaction where
  build fee := do
    let voutResult ← makeVout makeLockScript quorumAddr dst inAmount (some amount) fee
    .ok (voutResult, s.transaction txhashes true voutResult.vout)
  vsize := vsize
  newFee size := .ok (size * feekb / 1000)

/-- The outputs and the fee of `ms_create_psbt`: an explicit fee is positive, any other one
asks for the loop. -/
def QuorumVout (s : QuorumSizing) (txhashes : List (Bytes × UInt32)) (quorumAddr dst : String)
    (inAmount amount feekb fee : Int) (result : Except Exn (VoutResult × Int)) : Prop :=
  if 0 < fee then
    result = (makeVout makeLockScript quorumAddr dst inAmount (some amount) fee).map (·, fee)
  else
    ∃ best, FeeLoopReturns
        (quorumPricing makeLockScript s txhashes quorumAddr dst inAmount amount feekb) feekb best ∧
      result = best.map fun c => (c.vout, c.fee)

/-- Every size the loop can meet has a price that a float holds exactly. -/
def Affordable {τ : Type} (p : Pricing τ) (feekb : Int) : Prop :=
  ∀ fee built, p.build fee = .ok built → p.vsize built.2 * feekb < 2 ^ 53

/-- The size a loop meets at a fee; a refused fee has none. -/
def sizeAt {τ : Type} (p : Pricing τ) (fee : Int) : Nat :=
  match p.build fee with
  | .ok built => p.vsize built.2
  | .error _ => 0

theorem sizeAt_of_build {τ : Type} {p : Pricing τ} {fee : Int} {built : VoutResult × τ}
    (h : p.build fee = .ok built) : sizeAt p fee = p.vsize built.2 := by
  rw [sizeAt, h]

theorem Affordable.sizeAt_lt {τ : Type} {p : Pricing τ} {feekb : Int} (h : Affordable p feekb)
    (fee : Int) : sizeAt p fee * feekb < 2 ^ 53 := by
  cases hbuild : p.build fee with
  | error e => simp [sizeAt, hbuild]
  | ok built =>
    rw [sizeAt_of_build hbuild]
    exact h fee built hbuild

/-- A loop that prices these sizes at an ordinary rate is an ordinary loop. -/
theorem Affordable.ordinary {τ : Type} {p : Pricing τ} {feekb : Int} (h : Affordable p feekb)
    (hrate : minRelayTxFee ≤ feekb)
    (hprice : ∀ size : Nat, size * feekb < 2 ^ 53 → p.newFee size = .ok (size * feekb / 1000)) :
    (∃ result, FeeLoopReturns p feekb result) ∧
      ∀ result, FeeLoopReturns p feekb result → Ordinary p feekb result := by
  have hrate' : (1000 : Int) ≤ feekb := hrate
  have hfinite : (Set.range (sizeAt p)).Finite := by
    refine (Set.finite_Iio (2 ^ 53)).subset ?_
    rintro _ ⟨fee, rfl⟩
    have hlt := h.sizeAt_lt fee
    have hle : (sizeAt p fee : Int) * 1 ≤ sizeAt p fee * feekb :=
      Int.mul_le_mul_of_nonneg_left (by omega) (by omega)
    simp only [Set.mem_Iio]
    omega
  exact feeLoop_ordinary p hrate hfinite (fun fee built hbuild => (sizeAt_of_build hbuild).symm)
    fun fee => hprice _ (h.sizeAt_lt fee)

/-- Below the float range the wallet's price is the exact one. -/
theorem transactionPricing_newFee (P : Primitives) (inputs : Inputs P) (src dst : String)
    (amount : Option Int) {feekb : Int} (hrate : 0 ≤ feekb) {size : Nat}
    (h : size * feekb < 2 ^ 53) :
    (transactionPricing P makeLockScript inputs src dst amount feekb).newFee size =
      .ok (size * feekb / 1000) := by
  lift feekb to Nat using hrate
  have hlt : size * feekb < 2 ^ 53 := by exact_mod_cast h
  have hdiv := Binary64.truncDiv_eq (d := 1000) (by decide) hlt
  simp only [transactionPricing]
  rw [← Nat.cast_mul, hdiv]
  rfl

/-- At an ordinary rate both loops return, each with the refusal of its builder or with a
candidate that pays the rate and the relay floor, of the smallest size among those tried that
do, and then of the smallest fee. -/
theorem loops_ordinary (P : Primitives) (inputs : Inputs P) (s : QuorumSizing)
    (txhashes : List (Bytes × UInt32)) (src dst : String) (amount : Option Int)
    (inAmount msAmount feekb : Int) (hrate : minRelayTxFee ≤ feekb)
    (hwallet : Affordable (transactionPricing P makeLockScript inputs src dst amount feekb) feekb)
    (hquorum : Affordable (quorumPricing makeLockScript s txhashes src dst inAmount msAmount feekb)
      feekb) :
    ((∃ result, FeeLoopReturns (transactionPricing P makeLockScript inputs src dst amount feekb)
          feekb result) ∧
        ∀ result, FeeLoopReturns (transactionPricing P makeLockScript inputs src dst amount feekb)
          feekb result →
          Ordinary (transactionPricing P makeLockScript inputs src dst amount feekb) feekb result) ∧
      (∃ result, FeeLoopReturns
          (quorumPricing makeLockScript s txhashes src dst inAmount msAmount feekb) feekb result) ∧
        ∀ result, FeeLoopReturns
          (quorumPricing makeLockScript s txhashes src dst inAmount msAmount feekb) feekb result →
          Ordinary (quorumPricing makeLockScript s txhashes src dst inAmount msAmount feekb) feekb
            result :=
  ⟨hwallet.ordinary hrate fun _ => transactionPricing_newFee makeLockScript P inputs src dst amount
      (le_trans (by decide) hrate),
    hquorum.ordinary hrate fun _ _ => rfl⟩

/-- One input that the sample wallet can sign. -/
def sampleScript : Bytes := p2wpkhShape.build (List.replicate 20 1)

def sampleVin : CIn := ⟨List.replicate 32 7, rfl, 0, sampleScript, 0xffffffff, []⟩

def sampleSigner : standIn.PrivateKey := (5 : Nat)

def sampleInputs : Inputs standIn :=
  ⟨[sampleVin], 100000, [(sampleSigner, List.replicate 33 2)], [⟨100000, sampleScript⟩]⟩

def sampleLockScript : String → Except Exn Bytes := fun _ => .ok sampleScript

theorem standIn_sign_length (k : standIn.PrivateKey) (digest : Bytes) :
    (signHash standIn k digest).length = 36 := by
  have h : (standInSignature k digest).length = 32 := toBytesBig_length 32 _
  simp [signHash, standIn, h]

/-- A transaction with one P2WPKH input, whatever it pays. -/
theorem oneInput_signed {vin : CIn} {key : standIn.PrivateKey} {pubkey : Bytes}
    {vout : List COut} {spend : List SpendInput} {stx : CTransaction}
    (hscheme : sigSchemeFromScriptPubkey vin.script = .p2wpkh)
    (h : signSegwit standIn ⟨[vin], vout, 0⟩ [(key, pubkey)] (some spend) = .ok stx) :
    ∃ digest, stx = ⟨[{ vin with
      script := []
      witness := [signHash standIn key digest ++ [sighashAll], pubkey] }], vout, 0⟩ := by
  rw [signSegwit_eq] at h
  obtain ⟨-, h⟩ := reject_bind_eq_ok.mp h
  obtain ⟨signed, hsigned, h⟩ := bind_eq_ok.mp h
  cases h
  obtain ⟨signed, rfl⟩ := List.length_eq_one_iff.mp (mapM_length hsigned)
  obtain ⟨i, hi, hsigned⟩ := mapM_getElem? hsigned 0 signed rfl
  obtain rfl : i = 0 := by simpa [eq_comm] using hi
  obtain ⟨digest, rfl⟩ := signedInput_p2wpkh standIn rfl rfl hscheme hsigned
  exact ⟨digest, rfl⟩

theorem sampleInputs_affordable :
    Affordable (transactionPricing standIn sampleLockScript sampleInputs "src" "dst" none 1000)
      1000 := by
  intro fee built hbuild
  obtain ⟨voutResult, hvout, hbuild⟩ := bind_eq_ok.mp hbuild
  obtain ⟨stx, hstx, hbuild⟩ := bind_eq_ok.mp hbuild
  cases hbuild
  have hscheme : sigSchemeFromScriptPubkey sampleVin.script = .p2wpkh := by decide
  obtain ⟨digest, rfl⟩ := oneInput_signed hscheme hstx
  obtain ⟨script, hscript, ⟨-, out, hout, rfl⟩ | ⟨a, ha, -⟩⟩ := makeVout_cases hvout
  · have hlen : script.length = 22 := by
      cases hscript
      decide
    obtain ⟨-, rfl⟩ := make_eq_ok.mp hout
    show ((CTransaction.vsize _ : Nat) : Int) * 1000 < 2 ^ 53
    rw [vsize_of_witness rfl, serializeStripped_length]
    simp [witnessSize, itemSize, inputSize, outputSize, standIn_sign_length, hlen, compactSizeLen]
  · cases ha

def sampleSizing : QuorumSizing := ⟨.p2wsh, 1, [], 0, []⟩

theorem sampleSizing_affordable :
    Affordable (quorumPricing sampleLockScript sampleSizing [(List.replicate 32 7, 0)] "src" "dst"
      100000 5000 1000) 1000 := by
  intro fee built hbuild
  obtain ⟨voutResult, hvout, hbuild⟩ := bind_eq_ok.mp hbuild
  cases hbuild
  have hvin : ∀ i ∈ (sampleSizing.transaction [(List.replicate 32 7, 0)] true voutResult.vout).vin,
      i.txhash.length = 32 := by
    intro i hi
    rw [List.mem_singleton.mp hi]
    rfl
  have hwitness : (sampleSizing.transaction [(List.replicate 32 7, 0)] true
      voutResult.vout).hasWitness = true := rfl
  show ((vsize _ : Nat) : Int) * 1000 < 2 ^ 53
  rw [vsize, weight, psbtWire_length hwitness, psbtStripped_length hvin]
  have hscript : ∀ script, sampleLockScript "dst" = .ok script → script.length = 22 := by
    intro script h
    cases h
    decide
  obtain ⟨script, hdst, ⟨-, out, hout, rfl⟩ |
      ⟨a, ha, -, backScript, back, out, hback, hbackOut, hout, rfl⟩⟩ := makeVout_cases hvout
  · obtain ⟨-, rfl⟩ := make_eq_ok.mp hout
    simp [QuorumSizing.transaction, QuorumSizing.buildVin, sampleSizing,
      QuorumSizing.sizedWitness, witnessSize, itemSize, inputSize, outputSize, compactSizeLen,
      hscript _ hdst, msSigSizeEstimate]
  · obtain ⟨-, rfl⟩ := make_eq_ok.mp hout
    obtain ⟨-, rfl⟩ := make_eq_ok.mp hbackOut
    simp [QuorumSizing.transaction, QuorumSizing.buildVin, sampleSizing,
      QuorumSizing.sizedWitness, witnessSize, itemSize, inputSize, outputSize, compactSizeLen,
      hscript _ hdst, hscript _ hback, msSigSizeEstimate]

theorem loops_ordinary_sample :
    ((∃ result, FeeLoopReturns (transactionPricing standIn sampleLockScript sampleInputs "src" "dst"
          none 1000) 1000 result) ∧
        ∀ result, FeeLoopReturns (transactionPricing standIn sampleLockScript sampleInputs "src"
          "dst" none 1000) 1000 result →
          Ordinary (transactionPricing standIn sampleLockScript sampleInputs "src" "dst" none 1000)
            1000 result) ∧
      (∃ result, FeeLoopReturns (quorumPricing sampleLockScript sampleSizing
          [(List.replicate 32 7, 0)] "src" "dst" 100000 5000 1000) 1000 result) ∧
        ∀ result, FeeLoopReturns (quorumPricing sampleLockScript sampleSizing
          [(List.replicate 32 7, 0)] "src" "dst" 100000 5000 1000) 1000 result →
          Ordinary (quorumPricing sampleLockScript sampleSizing [(List.replicate 32 7, 0)] "src"
            "dst" 100000 5000 1000) 1000 result :=
  loops_ordinary sampleLockScript standIn sampleInputs sampleSizing [(List.replicate 32 7, 0)]
    "src" "dst" none 100000 5000 1000 (by decide) sampleInputs_affordable sampleSizing_affordable

end Yubtc.Payment
