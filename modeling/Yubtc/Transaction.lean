import Yubtc.Script

/-!
# Transactions, digests and the direct signing path

`CIn`, `COut` and `CTransaction` carry the ranges their constructors check. The digest
functions read the same few attributes of either transaction class, which `SigTx` collects.
-/
namespace Yubtc.Transaction

open LittleEndian Wire Errors ExceptRules Crypto Script

/-- A transaction input; the previous hash has been checked to be 32 bytes. -/
structure CIn where
  txhash : Bytes
  txhash_length : txhash.length = 32
  n : UInt32
  script : Bytes
  sequence : UInt32
  witness : List Bytes
  deriving DecidableEq, Repr

/-- The constructor's checks, in their order. -/
def CIn.make (txhash : Bytes) (n : Int) (script : Bytes) (sequence : Int)
    (witness : List Bytes) : Except Exn CIn :=
  if h : txhash.length = 32 then do
    reject (n < 0) (.valueError "n should be non-negative")
    reject (n > 0xffffffff) (.valueError "n should be less or equal than 0xffffffff")
    reject (sequence < 0) (.valueError "sequence should be non-negative")
    reject (sequence > 0xffffffff)
      (.valueError "sequence should be less or equal than 0xffffffff")
    return ⟨txhash, h, UInt32.ofNat n.toNat, script, UInt32.ofNat sequence.toNat, witness⟩
  else .error (.valueError "txhash should be 32 bytes length")

def CIn.serialize (i : CIn) : Bytes :=
  i.txhash ++ packL i.n ++ compactSize i.script.length ++ i.script ++ packL i.sequence

structure COut where
  amount : UInt64
  script : Bytes
  deriving DecidableEq, Repr

def COut.make (amount : Int) (script : Bytes) : Except Exn COut := do
  reject (amount < 0) (.valueError "amount should be non-negative")
  reject (amount > 0xffffffffffffffff)
    (.valueError "amount should be less or equal than 0xffffffffffffffff")
  return ⟨UInt64.ofNat amount.toNat, script⟩

def COut.serialize (o : COut) : Bytes :=
  packQ o.amount ++ compactSize o.script.length ++ o.script

structure CTransaction where
  vin : List CIn
  vout : List COut
  locktime : UInt32
  deriving DecidableEq, Repr

/-- One input's witness stack as the wire layout writes it. -/
def serializeWitness (witness : List Bytes) : Bytes :=
  compactSize witness.length ++ witness.flatMap varBytes

namespace CTransaction

def version (_ : CTransaction) : Int32 := 2

/-- The layout without witnesses, which the transaction id hashes. -/
def serializeStripped (tx : CTransaction) : Bytes :=
  packl tx.version ++ compactSize tx.vin.length ++ tx.vin.flatMap CIn.serialize ++
    compactSize tx.vout.length ++ tx.vout.flatMap COut.serialize ++ packL tx.locktime

def serialize (tx : CTransaction) : Bytes := tx.serializeStripped

def hasWitness (tx : CTransaction) : Bool := tx.vin.any fun i => !i.witness.isEmpty

/-- BIP-144 layout; without any witness it is the stripped one. -/
def serializeWire (tx : CTransaction) : Bytes :=
  if ¬ tx.hasWitness then tx.serializeStripped
  else
    packl tx.version ++ [0x00, 0x01] ++ compactSize tx.vin.length ++
      tx.vin.flatMap CIn.serialize ++ compactSize tx.vout.length ++
      tx.vout.flatMap COut.serialize ++ tx.vin.flatMap (fun i => serializeWitness i.witness) ++
      packL tx.locktime

/-- BIP-141 weight. -/
def weight (tx : CTransaction) : Nat := tx.serializeStripped.length * 3 + tx.serializeWire.length

/-- `ceil(weight / 4)`. -/
def vsize (tx : CTransaction) : Nat := (tx.weight + 3) / 4

/-- Display order: the hash of the stripped layout, reversed. -/
def id (P : Primitives) (tx : CTransaction) : Bytes := (dsha256 P tx.serializeStripped).reverse

def wtxid (P : Primitives) (tx : CTransaction) : Bytes := (dsha256 P tx.serializeWire).reverse

end CTransaction

/-- UTXO metadata of one input. -/
structure SpendInput where
  amount : Int
  scriptPubkey : Bytes
  deriving DecidableEq, Repr

structure SigIn where
  txhash : Bytes
  n : UInt32
  sequence : UInt32
  deriving DecidableEq, Repr

/-- What the digests read of a transaction; `vout` holds the serialized outputs. -/
structure SigTx where
  version : Int32
  vin : List SigIn
  vout : List Bytes
  locktime : UInt32
  deriving DecidableEq, Repr

def SigIn.outpoint (i : SigIn) : Bytes := i.txhash ++ packL i.n

def CIn.sigIn (i : CIn) : SigIn := ⟨i.txhash, i.n, i.sequence⟩

def CTransaction.sigTx (tx : CTransaction) : SigTx :=
  ⟨tx.version, tx.vin.map CIn.sigIn, tx.vout.map COut.serialize, tx.locktime⟩

def sighashAll : UInt8 := 0x01
def sighashAllLE : Bytes := [0x01, 0x00, 0x00, 0x00]
def sighashDefault : UInt8 := 0x00

/-- `pack('<Q', n)` of an unbounded integer. -/
def packQInt (n : Int) : Except Exn Bytes := do
  reject (¬ (0 ≤ n ∧ n ≤ 0xffffffffffffffff)) .structError
  return packLE 8 n.toNat

@[simp] theorem packQInt_uint64 (n : UInt64) : packQInt (n.toNat : Int) = .ok (packQ n) := by
  have h := n.toNat_lt
  have hr : ¬ ¬ (0 ≤ (n.toNat : Int) ∧ (n.toNat : Int) ≤ 0xffffffffffffffff) := by omega
  rw [packQInt, reject_false _ hr]
  rfl

/-- The 26-byte script code rebuilt from a 22-byte witness program. -/
def p2wpkhScriptCode (scriptPubkey : Bytes) : Bytes :=
  [0x19, 0x76, 0xa9, 0x14] ++ slice scriptPubkey 2 22 ++ [0x88, 0xac]

section Digests

variable (P : Primitives)

def bip143SighashInRange (tx : SigTx) (inputIndex : Nat) (scriptCode : Bytes) (amount : Int) :
    Except Exn Bytes := do
  let vin ← orElseThrow .indexError tx.vin[inputIndex]?
  let hashPrevouts := dsha256 P (tx.vin.flatMap SigIn.outpoint)
  let hashSequence := dsha256 P (tx.vin.flatMap fun i => packL i.sequence)
  let hashOutputs := dsha256 P tx.vout.flatten
  let amount ← packQInt amount
  return dsha256 P
    (packl tx.version ++ hashPrevouts ++ hashSequence ++ vin.txhash ++ packL vin.n ++
      scriptCode ++ amount ++ packL vin.sequence ++ hashOutputs ++ packL tx.locktime ++
      sighashAllLE)

def inputIndexError (inputIndex : Nat) (tx : SigTx) : Exn :=
  .valueError ("input index " ++ toString inputIndex ++ " out of range (" ++
    toString tx.vin.length ++ " inputs)")

def bip143Sighash (tx : SigTx) (inputIndex : Nat) (scriptCode : Bytes) (amount : Int) :
    Except Exn Bytes := do
  reject (inputIndex ≥ tx.vin.length) (inputIndexError inputIndex tx)
  bip143SighashInRange P tx inputIndex scriptCode amount

def missingSpendContext : Exn :=
  .valueError ("spend context missing or incomplete (BIP-143/BIP-341 signing needs amounts and " ++
    "scriptPubKeys of all inputs)")

/-- The five single-SHA256 fields every Taproot digest commits to, concatenated. -/
def taprootShaFields (tx : SigTx) (spend : List SpendInput) : Except Exn Bytes := do
  let shaPrevouts := P.sha256 (tx.vin.flatMap SigIn.outpoint)
  let amounts ← spend.mapM fun s => packQInt s.amount
  let shaAmounts := P.sha256 amounts.flatten
  let shaScriptpubkeys := P.sha256 (spend.flatMap fun s => varBytes s.scriptPubkey)
  let shaSequences := P.sha256 (tx.vin.flatMap fun i => packL i.sequence)
  let shaOutputs := P.sha256 tx.vout.flatten
  return shaPrevouts ++ shaAmounts ++ shaScriptpubkeys ++ shaSequences ++ shaOutputs

/-- BIP-341 `SigMsg` without annex. An index into a list in memory packs. -/
def taprootSigMsg (tx : SigTx) (inputIndex : Nat) (spend : List SpendInput)
    (spendType : UInt8) : Except Exn Bytes := do
  let fields ← taprootShaFields P tx spend
  return sighashDefault :: packl tx.version ++ packL tx.locktime ++ fields ++ [spendType] ++
    packLE 4 inputIndex

def taprootKeypathSighashInRange (tx : SigTx) (inputIndex : Nat) (spend : List SpendInput) :
    Except Exn Bytes := do
  let sigMsg ← taprootSigMsg P tx inputIndex spend 0x00
  return taggedHash P (ascii "TapSighash") (0x00 :: sigMsg)

def taprootKeypathSighash (tx : SigTx) (inputIndex : Nat) (spend : List SpendInput) :
    Except Exn Bytes := do
  reject (spend.length ≠ tx.vin.length) missingSpendContext
  reject (inputIndex ≥ tx.vin.length) (inputIndexError inputIndex tx)
  taprootKeypathSighashInRange P tx inputIndex spend

/-- The script-path digest: `SigMsg` extended by the leaf hash, key version 0 and no
`OP_CODESEPARATOR`. -/
def taprootScriptpathSighash (tx : SigTx) (inputIndex : Nat) (spend : List SpendInput)
    (leafHash : Bytes) : Except Exn Bytes := do
  reject (spend.length ≠ tx.vin.length) missingSpendContext
  reject (inputIndex ≥ tx.vin.length) (inputIndexError inputIndex tx)
  let sigMsg ← taprootSigMsg P tx inputIndex spend 0x02
  return taggedHash P (ascii "TapSighash")
    (0x00 :: (sigMsg ++ leafHash ++ [0x00] ++ packLE 4 0xffffffff))

end Digests

inductive SigScheme where
  | legacy
  | p2wpkh
  | p2tr
  deriving DecidableEq, Repr

def sigSchemeFromScriptPubkey (scriptPubkey : Bytes) : SigScheme :=
  if p2wpkhShape.Fits scriptPubkey then .p2wpkh
  else if p2trShape.Fits scriptPubkey then .p2tr
  else .legacy

section Signing

variable (P : Primitives)

/-- Input `i`'s UTXO metadata, refusing short or absent contexts. -/
def spendInput (ctx : Option (List SpendInput)) (i : Nat) : Except Exn SpendInput :=
  orElseThrow missingSpendContext (ctx.bind fun spend => spend[i]?)

/-- SIGHASH_ALL over the blanked serialization: every `scriptSig` emptied except the signed
input's, which holds its UTXO script. -/
def legacyScriptSig (self : CTransaction) (i : Nat) (privkey : P.PrivateKey) (pubkey : Bytes) :
    Except Exn Bytes := do
  let own ← orElseThrow .indexError self.vin[i]?
  let blanked := self.vin.map fun vin => { vin with script := [] }
  let tx : CTransaction := { self with vin := blanked.set i own }
  let sigdata := tx.serialize ++ packLE 4 0x01
  let signature := signData P privkey sigdata ++ [sighashAll]
  cScript [.data signature, .data pubkey]

/-- One step of the signing loop: input `i` of `self` decides the scheme, and the partly
signed `tx` is what the witness digests read and what is updated. -/
def signSegwitInput (self : CTransaction) (signers : List (P.PrivateKey × Bytes))
    (ctx : Option (List SpendInput)) (tx : CTransaction) (i : Nat) :
    Except Exn CTransaction := do
  let (k, w) ← orElseThrow .indexError signers[i]?
  let own ← orElseThrow .indexError self.vin[i]?
  let vin ← orElseThrow .indexError tx.vin[i]?
  match sigSchemeFromScriptPubkey own.script with
  | .legacy =>
    let scriptSig ← legacyScriptSig P self i k w
    return { tx with vin := tx.vin.set i { vin with script := scriptSig } }
  | .p2wpkh =>
    let spend ← spendInput ctx i
    let scriptCode := p2wpkhScriptCode own.script
    let sighash ← bip143SighashInRange P tx.sigTx i scriptCode spend.amount
    let witnessSig := signHash P k sighash ++ [sighashAll]
    return { tx with vin := tx.vin.set i { vin with script := [], witness := [witnessSig, w] } }
  | .p2tr =>
    let spend ← orElseThrow missingSpendContext ctx
    reject (spend.length ≠ tx.vin.length) missingSpendContext
    let sighash ← taprootKeypathSighashInRange P tx.sigTx i spend
    let sig ← taprootSignSighash P k sighash
    return { tx with vin := tx.vin.set i { vin with script := [], witness := [sig] } }

def signSegwit (self : CTransaction) (signers : List (P.PrivateKey × Bytes))
    (spend : Option (List SpendInput)) : Except Exn CTransaction := do
  reject (signers.length ≠ self.vin.length) (.valueError "signers length must match vin length")
  (List.range self.vin.length).foldlM (signSegwitInput P self signers spend) self

end Signing

end Yubtc.Transaction
