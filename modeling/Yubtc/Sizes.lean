import Yubtc.PsbtData

/-!
# Serialized sizes

The length of each part of a transaction, from the lengths of its scripts and witness items.
-/
namespace Yubtc.Sizes

open LittleEndian Wire Transaction PsbtData

/-- An input: outpoint, script with its count, sequence. -/
def inputSize (scriptLength : Nat) : Nat := 40 + compactSizeLen scriptLength + scriptLength

/-- An output: amount, script with its count. -/
def outputSize (scriptLength : Nat) : Nat := 8 + compactSizeLen scriptLength + scriptLength

def itemSize (length : Nat) : Nat := compactSizeLen length + length

def witnessSize (witness : List Bytes) : Nat :=
  compactSizeLen witness.length + (witness.map fun item => itemSize item.length).sum

@[simp] theorem cIn_serialize_length (i : CIn) :
    (CIn.serialize i).length = inputSize i.script.length := by
  simp [CIn.serialize, inputSize, i.txhash_length]
  omega

@[simp] theorem cOut_serialize_length (o : COut) :
    (COut.serialize o).length = outputSize o.script.length := by
  simp [COut.serialize, outputSize]
  omega

theorem psbtTxIn_serialize_length {i : PsbtTxIn} (h : i.txhash.length = 32) :
    i.serialize.length = inputSize i.script.length := by
  simp [PsbtTxIn.serialize, inputSize, h]
  omega

@[simp] theorem psbtTxOut_serialize_length (o : PsbtTxOut) :
    o.serialize.length = outputSize o.script.length := by
  simp [PsbtTxOut.serialize, outputSize]
  omega

@[simp] theorem serializeWitness_length (witness : List Bytes) :
    (serializeWitness witness).length = witnessSize witness := by
  simp [serializeWitness, witnessSize, itemSize, varBytes, List.length_flatMap]

theorem serializeStripped_length (tx : CTransaction) :
    tx.serializeStripped.length = 8 + compactSizeLen tx.vin.length +
      (tx.vin.map fun i => inputSize i.script.length).sum + compactSizeLen tx.vout.length +
      (tx.vout.map fun o => outputSize o.script.length).sum := by
  simp [CTransaction.serializeStripped, List.length_flatMap]
  omega

/-- A transaction with a witness adds the marker, the flag and the stacks. -/
theorem serializeWire_length {tx : CTransaction} (h : tx.hasWitness = true) :
    tx.serializeWire.length = tx.serializeStripped.length + 2 +
      (tx.vin.map fun i => witnessSize i.witness).sum := by
  simp [CTransaction.serializeWire, CTransaction.serializeStripped, h, List.length_flatMap]
  omega

/-- The virtual size of a transaction with a witness. -/
theorem vsize_of_witness {tx : CTransaction} (h : tx.hasWitness = true) :
    tx.vsize = (4 * tx.serializeStripped.length + 2 +
      (tx.vin.map fun i => witnessSize i.witness).sum + 3) / 4 := by
  rw [CTransaction.vsize, CTransaction.weight, serializeWire_length h]
  congr 1
  omega

theorem psbtVin_length {vin : List PsbtTxIn} (h : ∀ i ∈ vin, i.txhash.length = 32) :
    (vin.flatMap PsbtTxIn.serialize).length = (vin.map fun i => inputSize i.script.length).sum := by
  rw [List.length_flatMap]
  congr 1
  exact List.map_congr_left fun i hi => psbtTxIn_serialize_length (h i hi)

theorem psbtStripped_length {tx : PsbtTransaction} (h : ∀ i ∈ tx.vin, i.txhash.length = 32) :
    tx.serializeStripped.length = 8 + compactSizeLen tx.vin.length +
      (tx.vin.map fun i => inputSize i.script.length).sum + compactSizeLen tx.vout.length +
      (tx.vout.map fun o => outputSize o.script.length).sum := by
  have hvin := psbtVin_length h
  simp only [PsbtTransaction.serializeStripped, List.length_append, hvin, packl_length,
    packL_length, compactSize_length, List.length_flatMap, psbtTxOut_serialize_length]
  omega

theorem psbtWire_length {tx : PsbtTransaction} (h : tx.hasWitness = true) :
    tx.serializeWire.length = tx.serializeStripped.length + 2 +
      (tx.vin.map fun i => witnessSize i.witness).sum := by
  simp [PsbtTransaction.serializeWire, PsbtTransaction.serializeStripped, h, List.length_flatMap]
  omega

end Yubtc.Sizes
