import Yubtc.Transaction

/-!
# PSBT data

The transaction classes of the container, its three kinds of maps, and the container itself.
Integer fields have the range of their wire width.
-/
namespace Yubtc.PsbtData

open LittleEndian Wire Errors ExceptRules Crypto Script Transaction

structure PsbtTxIn where
  txhash : Bytes
  n : UInt32
  script : Bytes
  sequence : UInt32
  witness : List Bytes
  deriving DecidableEq, Repr

def PsbtTxIn.serialize (i : PsbtTxIn) : Bytes :=
  i.txhash ++ packL i.n ++ compactSize i.script.length ++ i.script ++ packL i.sequence

structure PsbtTxOut where
  amount : UInt64
  script : Bytes
  deriving DecidableEq, Repr

def PsbtTxOut.serialize (o : PsbtTxOut) : Bytes :=
  packQ o.amount ++ compactSize o.script.length ++ o.script

/-- Unlike the wallet's own transactions, the version is free. -/
structure PsbtTransaction where
  version : Int32
  vin : List PsbtTxIn
  vout : List PsbtTxOut
  locktime : UInt32
  deriving DecidableEq, Repr

namespace PsbtTransaction

def serializeStripped (tx : PsbtTransaction) : Bytes :=
  packl tx.version ++ compactSize tx.vin.length ++ tx.vin.flatMap PsbtTxIn.serialize ++
    compactSize tx.vout.length ++ tx.vout.flatMap PsbtTxOut.serialize ++ packL tx.locktime

def hasWitness (tx : PsbtTransaction) : Bool := tx.vin.any fun i => !i.witness.isEmpty

def serializeWire (tx : PsbtTransaction) : Bytes :=
  if ¬ tx.hasWitness then tx.serializeStripped
  else
    packl tx.version ++ [0x00, 0x01] ++ compactSize tx.vin.length ++
      tx.vin.flatMap PsbtTxIn.serialize ++ compactSize tx.vout.length ++
      tx.vout.flatMap PsbtTxOut.serialize ++
      tx.vin.flatMap (fun i => serializeWitness i.witness) ++ packL tx.locktime

/-- Display order, compared with `PsbtTxIn.txhash` as it is. -/
def id (P : Primitives) (tx : PsbtTransaction) : Bytes :=
  (dsha256 P tx.serializeStripped).reverse

def sigTx (tx : PsbtTransaction) : SigTx :=
  ⟨tx.version, tx.vin.map fun i => ⟨i.txhash, i.n, i.sequence⟩,
    tx.vout.map PsbtTxOut.serialize, tx.locktime⟩

end PsbtTransaction

structure UnknownKv where
  key : Bytes
  value : Bytes
  deriving DecidableEq, Repr

structure TapScriptSig where
  xOnly : Bytes
  leafHash : Bytes
  sig : Bytes
  deriving DecidableEq, Repr

structure TapLeafScript where
  controlBlock : Bytes
  scriptWithVersion : Bytes
  deriving DecidableEq, Repr

/-- Per-input map; `none` is an absent field. -/
structure PsbtIn where
  nonWitnessUtxo : Option PsbtTransaction
  witnessUtxo : Option PsbtTxOut
  partialSigs : List (Bytes × Bytes)
  sighashType : Option UInt32
  redeemScript : Option Bytes
  witnessScript : Option Bytes
  finalScriptsig : Option Bytes
  finalScriptwitness : Option Bytes
  tapScriptSigs : List TapScriptSig
  tapLeafScripts : List TapLeafScript
  tapInternalKey : Option Bytes
  tapMerkleRoot : Option Bytes
  unknown : List UnknownKv
  deriving DecidableEq, Repr

def emptyInput : PsbtIn :=
  ⟨none, none, [], none, none, none, none, none, [], [], none, none, []⟩

structure PsbtOut where
  unknown : List UnknownKv
  deriving DecidableEq, Repr

structure Psbt where
  version : UInt32
  unsignedTx : PsbtTransaction
  inputs : List PsbtIn
  outputs : List PsbtOut
  unknownGlobal : List UnknownKv
  deriving DecidableEq, Repr

end Yubtc.PsbtData
