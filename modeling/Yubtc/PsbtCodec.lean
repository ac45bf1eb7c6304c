import Yubtc.PsbtData

/-!
# The PSBT codec

The reader with every error path, the interpretation of the maps, and the canonical
serializer.
-/
namespace Yubtc.PsbtCodec

open LittleEndian Wire Errors ExceptRules Transaction PsbtData

def tUnsignedTx : UInt8 := 0x00
def tGlobalXpub : UInt8 := 0x01
def tInWitnessUtxo : UInt8 := 0x01
def tPartialSig : UInt8 := 0x02
def tSighashType : UInt8 := 0x03
def tRedeemScript : UInt8 := 0x04
def tWitnessScript : UInt8 := 0x05
def tInBip32Derivation : UInt8 := 0x06
def tFinalScriptsig : UInt8 := 0x07
def tFinalScriptwitness : UInt8 := 0x08
def tInTapScriptSig : UInt8 := 0x14
def tInTapLeafScript : UInt8 := 0x15
def tInTapInternalKey : UInt8 := 0x17
def tInTapMerkleRoot : UInt8 := 0x18
def tVersion : UInt8 := 0xfb

def magic : Bytes := [0x70, 0x73, 0x62, 0x74, 0xff]

def psbtMaxSize : Nat := 4 * 1024 * 1024

/-- A sequential reader; the state is what is left of the data. -/
abbrev Reader (α : Type) := Bytes → Except PsbtError (α × Bytes)

def take (n : Nat) : Reader Bytes := fun r =>
  if n > r.length then .error .truncated else .ok (r.take n, r.drop n)

def readCompactSize : Reader Nat := fun r => do
  let (prefixByte, r) ← take 1 r
  let prefixByte := prefixByte.headD 0
  if prefixByte ≤ 0xfc then return (prefixByte.toNat, r)
  else
    let width := if prefixByte = 0xfd then 2 else if prefixByte = 0xfe then 4 else 8
    let (field, r) ← take width r
    return (unpackLE field, r)

def unpackL (field : Bytes) : UInt32 := UInt32.ofNat (unpackLE field)
def unpackl (field : Bytes) : Int32 := (UInt32.ofNat (unpackLE field)).toInt32
def unpackQ (field : Bytes) : UInt64 := UInt64.ofNat (unpackLE field)

def readL : Reader UInt32 := fun r => do
  let (field, r) ← take 4 r
  return (unpackL field, r)

/-- A count of bytes, then that many bytes. -/
def readVarBytes : Reader Bytes := fun r => do
  let (n, r) ← readCompactSize r
  take n r

/-- The loop `for _ in range(n)` around one read. -/
def readMany {α : Type} (read : Reader α) : Nat → Reader (List α)
  | 0, r => .ok ([], r)
  | n + 1, r => do
    let (a, r) ← read r
    let (rest, r) ← readMany read n r
    return (a :: rest, r)

/-- A counted sequence; a count above the remaining length is truncated data. -/
def readCounted {α : Type} (read : Reader α) : Reader (List α) := fun r => do
  let (n, r) ← readCompactSize r
  reject (n > r.length) .truncated
  readMany read n r

def readTxIn : Reader PsbtTxIn := fun r => do
  let (txhash, r) ← take 32 r
  let (n, r) ← readL r
  let (script, r) ← readVarBytes r
  let (sequence, r) ← readL r
  return (⟨txhash, n, script, sequence, []⟩, r)

def readTxOut : Reader PsbtTxOut := fun r => do
  let (amount, r) ← take 8 r
  let (script, r) ← readVarBytes r
  return (⟨unpackQ amount, script⟩, r)

def parseWitnessSection : Reader (List Bytes) := readCounted readVarBytes

/-- Parse a transaction that takes the whole of `data`. -/
def parseTx (data : Bytes) (segwitAllowed : Bool) : Except PsbtError PsbtTransaction := do
  let (version, r) ← take 4 data
  -- A stripped transaction with an input cannot count its inputs as zero.
  let segwit := segwitAllowed && r.length ≥ 2 && r.take 2 == [0x00, 0x01]
  let r := if segwit then r.drop 2 else r
  let (vin, r) ← readCounted readTxIn r
  let (vout, r) ← readCounted readTxOut r
  let (witnesses, r) ←
    if segwit then readMany parseWitnessSection vin.length r
    else .ok (vin.map fun i => i.witness, r)
  let vin := vin.zipWith (fun i witness => { i with witness := witness }) witnesses
  let (locktime, r) ← readL r
  reject (r ≠ []) .truncated
  return ⟨unpackl version, vin, vout, locktime⟩

def parseWitnessUtxo (data : Bytes) : Except PsbtError PsbtTxOut := do
  let (amount, r) ← take 8 data
  let (script, r) ← readVarBytes r
  reject (r ≠ []) .invalidFieldValue
  return ⟨unpackQ amount, script⟩

def encodeWitnessStack (items : List Bytes) : Bytes :=
  writeCompactSize items.length ++
    items.flatMap fun item => writeCompactSize item.length ++ item

def decodeWitnessStack (data : Bytes) : Except PsbtError (List Bytes) := do
  let (stack, r) ← readCounted readVarBytes data
  reject (r ≠ []) .truncated
  return stack

/-- The multi-byte prefix of a field type: `width` bytes after the marker, and a value that
needs them. -/
def splitWide (width minimum : Nat) (rest : Bytes) : Except PsbtError (Nat × Bytes) := do
  reject (rest.length < width) .truncated
  let v := unpackLE (rest.take width)
  reject (v < minimum) .nonMinimalCompactSize
  return (v, rest.drop width)

/-- Field type and key data of a key. -/
def splitKey (key : Bytes) : Except PsbtError (Nat × Bytes) :=
  match key with
  | [] => .error .truncated
  | prefixByte :: rest =>
    if prefixByte ≤ 0xfc then .ok (prefixByte.toNat, rest)
    else if prefixByte = 0xfd then splitWide 2 0xfd rest
    else if prefixByte = 0xfe then splitWide 4 0x10000 rest
    else splitWide 8 0x100000000 rest

/-- Pubkey-keyed fields: compressed or uncompressed. -/
def pubkeyKeydataLen (keydata : Bytes) : Bool := keydata.length = 33 || keydata.length = 65

/-- One map. Every pass of the source's loop takes at least one byte, which bounds the
passes; `seen` is the keys of `out`. -/
def readMapFrom : Nat → List (Bytes × Bytes) → Reader (List (Bytes × Bytes))
  | 0, _, _ => .error .truncated
  | fuel + 1, out, r => do
    let (keylen, r) ← readCompactSize r
    if keylen = 0 then return (out, r)
    else
      let (key, r) ← take keylen r
      reject (key ∈ out.map Prod.fst) .duplicateKey
      let (value, r) ← readVarBytes r
      readMapFrom fuel (out ++ [(key, value)]) r

def readMap : Reader (List (Bytes × Bytes)) := fun r => readMapFrom (r.length + 1) [] r

/-- "No key data" field types. -/
def noKeydata (ty : UInt8) (keydata : Bytes) : Except PsbtError Unit :=
  reject (keydata ≠ []) (.invalidKeyLength ty.toNat)

def fixedValue (length : Nat) (value : Bytes) : Except PsbtError Unit :=
  reject (value.length ≠ length) .invalidFieldValue

def keepInput (input : PsbtIn) (key value : Bytes) : PsbtIn :=
  { input with unknown := input.unknown ++ [⟨key, value⟩] }

/-- One pair of an input map. -/
def parseInputPair (input : PsbtIn) (pair : Bytes × Bytes) : Except PsbtError PsbtIn := do
  let (key, value) := pair
  let (ty, keydata) ← splitKey key
  if ty > 0xff then return keepInput input key value
  else if ty = tUnsignedTx.toNat then
    noKeydata tUnsignedTx keydata
    let tx ← (parseTx value true).mapError fun _ => .invalidFieldValue
    return { input with nonWitnessUtxo := some tx }
  else if ty = tInWitnessUtxo.toNat then
    noKeydata tInWitnessUtxo keydata
    let out ← parseWitnessUtxo value
    return { input with witnessUtxo := some out }
  else if ty = tPartialSig.toNat then
    reject (¬ pubkeyKeydataLen keydata) (.invalidKeyLength tPartialSig.toNat)
    return { input with partialSigs := input.partialSigs ++ [(keydata, value)] }
  else if ty = tSighashType.toNat then
    noKeydata tSighashType keydata
    fixedValue 4 value
    return { input with sighashType := some (unpackL value) }
  else if ty = tRedeemScript.toNat then
    noKeydata tRedeemScript keydata
    return { input with redeemScript := some value }
  else if ty = tWitnessScript.toNat then
    noKeydata tWitnessScript keydata
    return { input with witnessScript := some value }
  else if ty = tInBip32Derivation.toNat then
    reject (¬ pubkeyKeydataLen keydata) (.invalidKeyLength tInBip32Derivation.toNat)
    return keepInput input key value
  else if ty = tFinalScriptsig.toNat then
    noKeydata tFinalScriptsig keydata
    return { input with finalScriptsig := some value }
  else if ty = tFinalScriptwitness.toNat then
    noKeydata tFinalScriptwitness keydata
    return { input with finalScriptwitness := some value }
  else if ty = tInTapScriptSig.toNat then
    reject (keydata.length ≠ 64) (.invalidKeyLength tInTapScriptSig.toNat)
    let entry : TapScriptSig := ⟨keydata.take 32, keydata.drop 32, value⟩
    return { input with tapScriptSigs := input.tapScriptSigs ++ [entry] }
  else if ty = tInTapLeafScript.toNat then
    reject (keydata.length ≠ 33) (.invalidKeyLength tInTapLeafScript.toNat)
    reject (value = []) .invalidFieldValue
    return { input with tapLeafScripts := input.tapLeafScripts ++ [⟨keydata, value⟩] }
  else if ty = tInTapInternalKey.toNat then
    noKeydata tInTapInternalKey keydata
    fixedValue 32 value
    return { input with tapInternalKey := some value }
  else if ty = tInTapMerkleRoot.toNat then
    noKeydata tInTapMerkleRoot keydata
    fixedValue 32 value
    return { input with tapMerkleRoot := some value }
  else return keepInput input key value

def parseInputMap (pairs : List (Bytes × Bytes)) : Except PsbtError PsbtIn :=
  pairs.foldlM parseInputPair emptyInput

/-- One pair of an output map: the known key shapes are checked, the pair is kept. -/
def parseOutputPair (output : PsbtOut) (pair : Bytes × Bytes) : Except PsbtError PsbtOut := do
  let (key, value) := pair
  let (ty, keydata) ← splitKey key
  if ty = tUnsignedTx.toNat ∨ ty = tInWitnessUtxo.toNat then
    reject (keydata ≠ []) (.invalidKeyLength ty)
  else if ty = tPartialSig.toNat then
    reject (¬ pubkeyKeydataLen keydata) (.invalidKeyLength tPartialSig.toNat)
  return ⟨output.unknown ++ [⟨key, value⟩]⟩

def parseOutputMap (pairs : List (Bytes × Bytes)) : Except PsbtError PsbtOut :=
  pairs.foldlM parseOutputPair ⟨[]⟩

/-- What the global map is read into. -/
structure GlobalMap where
  version : UInt32
  unsignedTx : Option PsbtTransaction
  unknownGlobal : List UnknownKv

/-- One pair of the global map. -/
def parseGlobalPair (globals : GlobalMap) (pair : Bytes × Bytes) :
    Except PsbtError GlobalMap := do
  let (key, value) := pair
  let (ty, keydata) ← splitKey key
  let kept := { globals with unknownGlobal := globals.unknownGlobal ++ [⟨key, value⟩] }
  if ty > 0xff then return kept
  else if ty = tUnsignedTx.toNat then
    noKeydata tUnsignedTx keydata
    let tx ← (parseTx value false).mapError fun _ => .invalidUnsignedTx
    reject (tx.vout = [] ∨ ∃ vin ∈ tx.vin, vin.script ≠ []) .invalidUnsignedTx
    return { globals with unsignedTx := some tx }
  else if ty = tVersion.toNat then
    noKeydata tVersion keydata
    fixedValue 4 value
    let version := unpackL value
    reject (version ≠ 0) (.unsupportedVersion version.toNat)
    return { globals with version := version }
  else if ty = tGlobalXpub.toNat then
    reject (keydata.length ≠ 78) (.invalidKeyLength tGlobalXpub.toNat)
    return kept
  else return kept

/-- One map per input or output of the transaction; data that ends before is a wrong count. -/
def readMaps {α : Type} (parse : List (Bytes × Bytes) → Except PsbtError α) :
    Nat → Reader (List α)
  | 0, r => .ok ([], r)
  | n + 1, r => do
    reject (r = []) .mapCountMismatch
    let (pairs, r) ← readMap r
    let a ← parse pairs
    let (rest, r) ← readMaps parse n r
    return (a :: rest, r)

def parsePsbt (data : Bytes) : Except PsbtError Psbt := do
  reject (data.length > psbtMaxSize) .tooLarge
  reject (data.take magic.length ≠ magic) .invalidMagic
  let body := data.drop magic.length
  let (globalPairs, r) ← readMap body
  let globals ← globalPairs.foldlM parseGlobalPair ⟨0, none, []⟩
  let unsignedTx ← orElseThrow .missingUnsignedTx globals.unsignedTx
  let (inputs, r) ← readMaps parseInputMap unsignedTx.vin.length r
  let (outputs, r) ← readMaps parseOutputMap unsignedTx.vout.length r
  -- The reader's position counts from the end of the magic, the slice does not.
  let pos := body.length - r.length
  reject (r ≠ [] ∧ ∀ b ∈ data.drop pos, b = 0) .truncated
  reject (r ≠ []) .mapCountMismatch
  return ⟨globals.version, unsignedTx, inputs, outputs, globals.unknownGlobal⟩

def encodePair (pair : Bytes × Bytes) : Bytes :=
  writeCompactSize pair.1.length ++ pair.1 ++ writeCompactSize pair.2.length ++ pair.2

/-- One map: pairs in key order, then the terminator. -/
def writeMap (pairs : List (Bytes × Bytes)) : Bytes :=
  (pairs.insertionSort fun a b => a.1 ≤ b.1).flatMap encodePair ++ [0]

/-- A field that is present becomes a pair whose key is its type byte. -/
def fieldPair {α : Type} (ty : UInt8) (encode : α → Bytes) (field : Option α) :
    List (Bytes × Bytes) :=
  (field.map fun v => ([ty], encode v)).toList

def encodeWitnessUtxo (out : PsbtTxOut) : Bytes :=
  packQ out.amount ++ writeCompactSize out.script.length ++ out.script

/-- An empty final field is written as absent. -/
def nonempty (field : Option Bytes) : Option Bytes := field.filter fun v => !v.isEmpty

/-- The pairs of one input map before sorting. -/
def inputPairs (input : PsbtIn) : List (Bytes × Bytes) :=
  fieldPair tUnsignedTx PsbtTransaction.serializeWire input.nonWitnessUtxo ++
  fieldPair tInWitnessUtxo encodeWitnessUtxo input.witnessUtxo ++
  input.partialSigs.map (fun (pubkey, sig) => (tPartialSig :: pubkey, sig)) ++
  fieldPair tSighashType packL input.sighashType ++
  fieldPair tRedeemScript id input.redeemScript ++
  fieldPair tWitnessScript id input.witnessScript ++
  input.tapScriptSigs.map (fun s => (tInTapScriptSig :: (s.xOnly ++ s.leafHash), s.sig)) ++
  input.tapLeafScripts.map
    (fun leaf => (tInTapLeafScript :: leaf.controlBlock, leaf.scriptWithVersion)) ++
  fieldPair tInTapInternalKey id input.tapInternalKey ++
  fieldPair tInTapMerkleRoot id input.tapMerkleRoot ++
  fieldPair tFinalScriptsig id (nonempty input.finalScriptsig) ++
  fieldPair tFinalScriptwitness id (nonempty input.finalScriptwitness) ++
  input.unknown.map fun kv => (kv.key, kv.value)

def serializePsbt (psbt : Psbt) : Bytes :=
  magic ++
  writeMap (([tUnsignedTx], psbt.unsignedTx.serializeStripped) ::
    psbt.unknownGlobal.map fun kv => (kv.key, kv.value)) ++
  psbt.inputs.flatMap (fun input => writeMap (inputPairs input)) ++
  psbt.outputs.flatMap fun output => writeMap (output.unknown.map fun kv => (kv.key, kv.value))

end Yubtc.PsbtCodec
