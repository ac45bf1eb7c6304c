import Yubtc.PsbtCodec
import Yubtc.Lib.KeyedList

/-!
# The roles

Creator, Signer, Combiner, Finalizer and Extractor. A role that changes a PSBT in place first
runs its checks, which read the PSBT and may fail, and writes last; the state of `Role` is the
PSBT, so what an exception leaves behind is part of the model.
-/
namespace Yubtc.PsbtRoles

open LittleEndian Wire Errors ExceptRules Crypto Script Transaction PsbtData PsbtCodec

/-- Script and amount of the output an input spends: `WITNESS_UTXO` when present, else the
output of `NON_WITNESS_UTXO` the outpoint selects. -/
def inputUtxoData (psbt : Psbt) (index : Nat) : Option (Bytes × UInt64) :=
  match psbt.inputs[index]? with
  | none => none
  | some input =>
    match input.witnessUtxo, input.nonWitnessUtxo with
    | some out, _ => some (out.script, out.amount)
    | none, none => none
    | none, some prev =>
      match psbt.unsignedTx.vin[index]? with
      | none => none
      | some vin => prev.vout[vin.n.toNat]?.map fun out => (out.script, out.amount)

/-- The digest context of all inputs; `none` when one of them has no UTXO data. -/
def spendContext (psbt : Psbt) : Option (List SpendInput) :=
  (List.range psbt.unsignedTx.vin.length).mapM fun i =>
    (inputUtxoData psbt i).map fun (scriptPubkey, amount) => ⟨amount.toNat, scriptPubkey⟩

/-- Single-key forms with what the script commits to. -/
inductive Form where
  | legacy (hash : Bytes)
  | p2wpkh (hash : Bytes)
  | p2tr (outputKey : Bytes)
  deriving DecidableEq, Repr

def psbtSighashAll : UInt32 := 0x00000001
def psbtSighashDefault : UInt32 := 0x00000000

def pinnedSighash : Form → UInt32
  | .p2tr _ => psbtSighashDefault
  | .legacy _ | .p2wpkh _ => psbtSighashAll

/-- The extractors are tried in turn; their only failure is a `ValueError`. -/
def formOfScript (scriptPubkey : Bytes) : Option Form :=
  match script2pkh scriptPubkey with
  | .ok hash => some (.legacy hash)
  | .error _ =>
    match extractP2wpkhHash scriptPubkey with
    | .ok hash => some (.p2wpkh hash)
    | .error _ =>
      match extractP2trOutputKey scriptPubkey with
      | .ok key => some (.p2tr key)
      | .error _ => none

def isP2shScript (script : Bytes) : Bool := p2shShape.Fits script
def isP2wshScript (script : Bytes) : Bool := p2wshShape.Fits script
def isP2trScript (script : Bytes) : Bool := p2trShape.Fits script

/-- Legacy preimage: the signed input's `scriptSig` holds the script code, the others none. -/
def blankedSerialization (tx : PsbtTransaction) (index : Nat) (scriptPubkey : Bytes) :
    Except Exn Bytes := do
  let blanked := tx.vin.map fun vin => { vin with script := [], witness := [] }
  let own ← orElseThrow .indexError blanked[index]?
  let vin := blanked.set index { own with script := scriptPubkey }
  return PsbtTransaction.serializeStripped { tx with vin := vin }

/-- Insert before the first larger key. -/
def insertPartialSig (input : PsbtIn) (pubkey sig : Bytes) : PsbtIn :=
  { input with
    partialSigs := input.partialSigs.takeWhile (fun p => p.1 ≤ pubkey) ++
      (pubkey, sig) :: input.partialSigs.dropWhile (fun p => p.1 ≤ pubkey) }

/-- The order of `(x_only, leaf_hash)` pairs. -/
def TapScriptSig.keyLe (a b : TapScriptSig) : Bool :=
  a.xOnly < b.xOnly || (a.xOnly = b.xOnly && a.leafHash ≤ b.leafHash)

def insertTapScriptSig (input : PsbtIn) (entry : TapScriptSig) : PsbtIn :=
  { input with
    tapScriptSigs := input.tapScriptSigs.takeWhile (fun s => TapScriptSig.keyLe s entry) ++
      entry :: input.tapScriptSigs.dropWhile (fun s => TapScriptSig.keyLe s entry) }

def incomplete (index : Nat) : Exn := .psbt (.incompleteInput index)
def unsupported : Exn := .psbt .unsupportedInputScript
def mismatch : Exn := .psbt .utxoMismatch

section Roles

variable (P : Primitives)

/-- The form this key commits to, `none` for a foreign key. -/
def ownForm (scriptPubkey pubkey : Bytes) : Except Exn (Option Form) :=
  let pubhash := hash160 P pubkey
  match formOfScript scriptPubkey with
  | none => .ok none
  | some (.p2tr committed) => do
    let tweaked ← taprootOutputKey P (slice pubkey 1 33)
    return if tweaked ≠ committed then none else some (.p2tr committed)
  | some form =>
    match form with
    | .legacy committed | .p2wpkh committed | .p2tr committed =>
      .ok (if committed ≠ pubhash then none else some form)

/-- The first signature whose compressed key has this hash. -/
def partialSigByHash (input : PsbtIn) (hash : Bytes) : Option (Bytes × Bytes) :=
  input.partialSigs.find? fun (pubkey, _) => pubkey.length = 33 && hash160 P pubkey = hash

/-- The first 64-byte signature whose key tweaks to the output key. A key that is no curve
point is passed over; a 33-byte key raises nothing else. -/
def p2trSigByOutputKey (input : PsbtIn) (outputKey : Bytes) : Option Bytes :=
  (input.partialSigs.find? fun (pubkey, sig) =>
    sig.length = 64 && pubkey.length = 33 &&
      match taprootOutputKey P (slice pubkey 1 33) with
      | .ok tweaked => tweaked = outputKey
      | .error _ => false).map Prod.snd

/-- UTXO metadata of one input. -/
structure CreateInput where
  amount : UInt64
  scriptPubkey : Bytes
  prevTx : Option PsbtTransaction
  redeemScript : Option Bytes := none
  witnessScript : Option Bytes := none
  tapLeafScript : Option Bytes := none

/-- The previous transaction of a legacy input: required, and its id is the outpoint's. -/
def checkedPrevTx (i : Nat) (vin : PsbtTxIn) (create : CreateInput) :
    Except Exn PsbtTransaction := do
  let prev ← orElseThrow (incomplete i) create.prevTx
  reject (prev.id P ≠ vin.txhash) mismatch
  return prev

def quorumScript (script : Bytes) : Except Exn (Nat × List Bytes) :=
  (extractMultisigQuorum script).mapError fun _ => unsupported

def createP2sh (i : Nat) (vin : PsbtTxIn) (create : CreateInput) (redeem : Bytes) :
    Except Exn PsbtIn := do
  let _ ← quorumScript redeem
  reject (hash160 P redeem ≠ slice create.scriptPubkey 2 22) mismatch
  let prev ← checkedPrevTx P i vin create
  return { emptyInput with nonWitnessUtxo := some prev, redeemScript := some redeem }

/-- The input map of a witness form: amount and script of the output. -/
def witnessInput (create : CreateInput) : PsbtIn :=
  { emptyInput with witnessUtxo := some ⟨create.amount, create.scriptPubkey⟩ }

def createP2wsh (create : CreateInput) (redeem : Bytes) : Except Exn PsbtIn := do
  let _ ← quorumScript redeem
  reject (P.sha256 redeem ≠ slice create.scriptPubkey 2 34) mismatch
  return { witnessInput create with witnessScript := some redeem }

/-- A tapscript value: the script and the leaf version byte at its end. -/
def leafScript (leafValue : Bytes) : Except Exn (Bytes × Nat × List Bytes) := do
  reject (leafValue.getLast? ≠ some tapscriptLeafVersion) unsupported
  let script := leafValue.dropLast
  let (m, keys) ← (extractMultisigTapscript script).mapError fun _ => unsupported
  return (script, m, keys)

def createP2tr (create : CreateInput) (leafValue : Bytes) : Except Exn PsbtIn := do
  let (script, _, _) ← leafScript leafValue
  let leafHash := tapscriptLeafHash P script
  let outputKey ← tapscriptOutputKey P msTapscriptInternalKey leafHash
  reject (outputKey ≠ slice create.scriptPubkey 2 34) mismatch
  let controlBlock ← tapscriptControlBlock P msTapscriptInternalKey leafHash
  return { witnessInput create with
    tapLeafScripts := [⟨controlBlock, leafValue⟩]
    tapInternalKey := some msTapscriptInternalKey }

def createInput (i : Nat) (vin : PsbtTxIn) (create : CreateInput) : Except Exn PsbtIn :=
  match formOfScript create.scriptPubkey with
  | some (.legacy _) => do
    let prev ← checkedPrevTx P i vin create
    return { emptyInput with nonWitnessUtxo := some prev }
  | _ =>
    match isP2shScript create.scriptPubkey, create.redeemScript with
    | true, some redeem => createP2sh P i vin create redeem
    | _, _ =>
      match isP2wshScript create.scriptPubkey, create.witnessScript with
      | true, some redeem => createP2wsh P create redeem
      | _, _ =>
        match create.tapLeafScript with
        -- A leaf on any other form is dropped.
        | some leafValue =>
          if isP2trScript create.scriptPubkey then createP2tr P create leafValue
          else .ok (witnessInput create)
        | none => .ok (witnessInput create)

def createPsbt (unsignedTx : PsbtTransaction) (inputs : List CreateInput) :
    Except Exn Psbt := do
  reject (unsignedTx.vout = []) (.psbt .invalidUnsignedTx)
  reject (unsignedTx.vin.length ≠ inputs.length) (.psbt .mapCountMismatch)
  reject (∃ vin ∈ unsignedTx.vin, vin.script ≠ [] ∨ vin.witness ≠ []) (.psbt .invalidUnsignedTx)
  let psbtInputs ← (unsignedTx.vin.zip inputs).zipIdx.mapM
    fun ((vin, create), i) => createInput P i vin create
  return ⟨0, unsignedTx, psbtInputs, unsignedTx.vout.map fun _ => ⟨[]⟩, []⟩

/-- What signing an input comes to: nothing, a record that is there already, or a new one. -/
inductive SignOutcome where
  | skip
  | present
  | partialSig (pubkey sig : Bytes)
  | tapScriptSig (entry : TapScriptSig)
  deriving DecidableEq, Repr

def checkSighashType (input : PsbtIn) (pinned : UInt32) : Except Exn Unit :=
  match input.sighashType with
  | none => .ok ()
  | some t => reject (t ≠ pinned) (.psbt (.unsupportedSighashType t.toNat))

/-- A present `NON_WITNESS_UTXO` has to have the outpoint's id. -/
def checkNonWitnessUtxo (psbt : Psbt) (index : Nat) (input : PsbtIn) : Except Exn Unit :=
  match input.nonWitnessUtxo with
  | none => .ok ()
  | some prev => do
    let vin ← orElseThrow .indexError psbt.unsignedTx.vin[index]?
    reject (prev.id P ≠ vin.txhash) mismatch

/-- A key-hash or key-path signature. `none` is a digest context with a gap. -/
def keySignature (psbt : Psbt) (index : Nat) (scriptPubkey : Bytes) (amount : UInt64)
    (form : Form) (privkey : P.PrivateKey) : Except Exn (Option Bytes) :=
  match form with
  | .legacy _ => do
    let blanked ← blankedSerialization psbt.unsignedTx index scriptPubkey
    return some (signData P privkey (blanked ++ packL psbtSighashAll) ++ [sighashAll])
  | .p2wpkh _ => do
    let sighash ← bip143Sighash P psbt.unsignedTx.sigTx index (p2wpkhScriptCode scriptPubkey)
      amount.toNat
    return some (signHash P privkey sighash ++ [sighashAll])
  | .p2tr _ =>
    match spendContext psbt with
    | none => .ok none
    | some spend => do
      let sighash ← taprootKeypathSighash P psbt.unsignedTx.sigTx index spend
      let sig ← taprootSignSighash P privkey sighash
      return some sig

def signKey (psbt : Psbt) (index : Nat) (input : PsbtIn) (scriptPubkey : Bytes)
    (amount : UInt64) (privkey : P.PrivateKey) : Except Exn SignOutcome := do
  let pubkey := privkey2pubkey P privkey
  match ← ownForm P scriptPubkey pubkey with
  | none => return .skip
  | some form =>
    checkSighashType input (pinnedSighash form)
    checkNonWitnessUtxo P psbt index input
    if pubkey ∈ input.partialSigs.map Prod.fst then return .present
    else
      match ← keySignature P psbt index scriptPubkey amount form privkey with
      | none => return .skip
      | some sig => return .partialSig pubkey sig

/-- The ladder of the two CHECKMULTISIG forms, which differ in the field that carries the
script, in its commitment and in the digest. -/
def signMultisig (script : Option Bytes) (commitment : Bytes → Bytes) (committed : Bytes)
    (signature : Bytes → Except Exn Bytes) (psbt : Psbt) (index : Nat) (input : PsbtIn)
    (privkey : P.PrivateKey) : Except Exn SignOutcome := do
  let pubkey := privkey2pubkey P privkey
  let redeem ← orElseThrow unsupported script
  let (_, keys) ← quorumScript redeem
  reject (commitment redeem ≠ committed) mismatch
  if pubkey ∉ keys then return .skip
  else
    checkSighashType input psbtSighashAll
    checkNonWitnessUtxo P psbt index input
    if pubkey ∈ input.partialSigs.map Prod.fst then return .present
    else
      let sig ← signature redeem
      return .partialSig pubkey sig

def p2shSignature (psbt : Psbt) (index : Nat) (privkey : P.PrivateKey) (redeem : Bytes) :
    Except Exn Bytes := do
  let blanked ← blankedSerialization psbt.unsignedTx index redeem
  return signData P privkey (blanked ++ packL psbtSighashAll) ++ [sighashAll]

def signP2shMultisig (psbt : Psbt) (index : Nat) (input : PsbtIn) (scriptPubkey : Bytes)
    (privkey : P.PrivateKey) : Except Exn SignOutcome :=
  signMultisig P input.redeemScript (hash160 P) (slice scriptPubkey 2 22)
    (p2shSignature P psbt index privkey) psbt index input privkey

def p2wshSignature (psbt : Psbt) (index : Nat) (amount : UInt64) (privkey : P.PrivateKey)
    (redeem : Bytes) : Except Exn Bytes := do
  let sighash ← bip143Sighash P psbt.unsignedTx.sigTx index
    (compactSize redeem.length ++ redeem) amount.toNat
  return signHash P privkey sighash ++ [sighashAll]

def signP2wshMultisig (psbt : Psbt) (index : Nat) (input : PsbtIn) (scriptPubkey : Bytes)
    (amount : UInt64) (privkey : P.PrivateKey) : Except Exn SignOutcome :=
  signMultisig P input.witnessScript P.sha256 (slice scriptPubkey 2 34)
    (p2wshSignature P psbt index amount privkey) psbt index input privkey

/-- A leaf that passed the structural and commitment checks. -/
structure RevealedLeaf where
  controlBlock : Bytes
  script : Bytes
  m : Nat
  keys : List Bytes
  leafHash : Bytes
  deriving DecidableEq, Repr

/-- The checks Signer and Finalizer run on the first revealed leaf. -/
def revealedLeaf (input : PsbtIn) (leaf : TapLeafScript) (scriptPubkey : Bytes) :
    Except Exn RevealedLeaf := do
  let controlBlock := leaf.controlBlock
  reject (controlBlock.length ≠ 33 ∨ controlBlock.headD 0 &&& 0xfe ≠ tapscriptLeafVersion ∨
    slice controlBlock 1 33 ≠ msTapscriptInternalKey) unsupported
  let (script, m, keys) ← leafScript leaf.scriptWithVersion
  let leafHash := tapscriptLeafHash P script
  let outputKey ← tapscriptOutputKey P msTapscriptInternalKey leafHash
  reject (outputKey ≠ slice scriptPubkey 2 34) mismatch
  -- The tree is one leaf, so a present root is the leaf hash.
  reject (∃ root ∈ input.tapMerkleRoot, root ≠ leafHash) mismatch
  return ⟨controlBlock, script, m, keys, leafHash⟩

def signP2trScriptpath (psbt : Psbt) (index : Nat) (input : PsbtIn) (leaf : TapLeafScript)
    (scriptPubkey : Bytes) (privkey : P.PrivateKey) : Except Exn SignOutcome := do
  let xOnly := slice (privkey2pubkey P privkey) 1 33
  let leaf ← revealedLeaf P input leaf scriptPubkey
  if xOnly ∉ leaf.keys then return .skip
  else
    checkSighashType input psbtSighashDefault
    checkNonWitnessUtxo P psbt index input
    if ∃ s ∈ input.tapScriptSigs, s.xOnly = xOnly ∧ s.leafHash = leaf.leafHash then
      return .present
    else
      match spendContext psbt with
      | none => return .skip
      | some spend =>
        let sighash ← taprootScriptpathSighash P psbt.unsignedTx.sigTx index spend leaf.leafHash
        return .tapScriptSig
          ⟨xOnly, leaf.leafHash, taprootSignSighashUntweaked P privkey sighash⟩

/-- The checks of `sign_psbt_input` and what they come to. -/
def signOutcome (psbt : Psbt) (index : Nat) (privkey : P.PrivateKey) : Except Exn SignOutcome :=
  match psbt.inputs[index]?, inputUtxoData psbt index with
  | some input, some (scriptPubkey, amount) =>
    if isP2wshScript scriptPubkey then
      signP2wshMultisig P psbt index input scriptPubkey amount privkey
    else if isP2shScript scriptPubkey then
      signP2shMultisig P psbt index input scriptPubkey privkey
    else
      match isP2trScript scriptPubkey, input.tapLeafScripts with
      | true, leaf :: _ => signP2trScriptpath P psbt index input leaf scriptPubkey privkey
      | _, _ => signKey P psbt index input scriptPubkey amount privkey
  | _, _ => .ok .skip

/-- The state a role works on is the PSBT. -/
abbrev Role (α : Type) := EStateM Exn Psbt α

/-- Run checks that only read. -/
def checked {α : Type} (x : Except Exn α) : Role α := fun psbt =>
  match x with
  | .ok a => .ok a psbt
  | .error e => .error e psbt

/-- Replace one input map. -/
def Psbt.modifyInput (psbt : Psbt) (index : Nat) (f : PsbtIn → PsbtIn) : Psbt :=
  { psbt with inputs := psbt.inputs.modify index f }

def signPsbtInput (index : Nat) (privkey : P.PrivateKey) : Role Bool := do
  let psbt ← get
  match ← checked (signOutcome P psbt index privkey) with
  | .skip => return false
  | .present => return true
  | .partialSig pubkey sig =>
    set (Psbt.modifyInput psbt index fun input => insertPartialSig input pubkey sig)
    return true
  | .tapScriptSig entry =>
    set (Psbt.modifyInput psbt index fun input => insertTapScriptSig input entry)
    return true

/-- Absent sides are filled from the other, present ones have to be equal. -/
def mergeField {α : Type} [DecidableEq α] : Option α → Option α → Except PsbtError (Option α)
  | none, b => .ok b
  | some a, none => .ok (some a)
  | some a, some b => if a = b then .ok (some a) else .error .conflictingField

def mergeUnknown (a b : List UnknownKv) : Except PsbtError (List UnknownKv) :=
  KeyedList.mergeBy UnknownKv.key (fun x y => x.value ≠ y.value) .conflictingField a b

def mergePartialSigs (a b : List (Bytes × Bytes)) : Except PsbtError (List (Bytes × Bytes)) := do
  let out ← KeyedList.mergeBy Prod.fst (fun x y => x.2 ≠ y.2) .conflictingField a b
  return out.insertionSort fun x y => x.1 ≤ y.1

/-- Merge two typed lists and sort the result as tuples. -/
def mergeTypedList {α : Type} [DecidableEq α] (keyOf : α → Bytes) (le : α → α → Bool)
    (a b : List α) : Except PsbtError (List α) := do
  let out ← KeyedList.mergeBy keyOf (fun x y => x ≠ y) .conflictingField a b
  return out.insertionSort fun x y => le x y

/-- Tuple order, field by field. -/
def TapScriptSig.le (a b : TapScriptSig) : Bool :=
  a.xOnly < b.xOnly || (a.xOnly = b.xOnly &&
    (a.leafHash < b.leafHash || (a.leafHash = b.leafHash && a.sig ≤ b.sig)))

def TapLeafScript.le (a b : TapLeafScript) : Bool :=
  a.controlBlock < b.controlBlock ||
    (a.controlBlock = b.controlBlock && a.scriptWithVersion ≤ b.scriptWithVersion)

def mergeInput (a b : PsbtIn) : Except PsbtError PsbtIn := do
  let partialSigs ← mergePartialSigs a.partialSigs b.partialSigs
  let tapScriptSigs ← mergeTypedList (fun s => s.xOnly ++ s.leafHash) TapScriptSig.le
    a.tapScriptSigs b.tapScriptSigs
  let tapLeafScripts ← mergeTypedList TapLeafScript.controlBlock TapLeafScript.le
    a.tapLeafScripts b.tapLeafScripts
  let nonWitnessUtxo ← mergeField a.nonWitnessUtxo b.nonWitnessUtxo
  let witnessUtxo ← mergeField a.witnessUtxo b.witnessUtxo
  let sighashType ← mergeField a.sighashType b.sighashType
  let redeemScript ← mergeField a.redeemScript b.redeemScript
  let witnessScript ← mergeField a.witnessScript b.witnessScript
  let finalScriptsig ← mergeField a.finalScriptsig b.finalScriptsig
  let finalScriptwitness ← mergeField a.finalScriptwitness b.finalScriptwitness
  let tapInternalKey ← mergeField a.tapInternalKey b.tapInternalKey
  let tapMerkleRoot ← mergeField a.tapMerkleRoot b.tapMerkleRoot
  let unknown ← mergeUnknown a.unknown b.unknown
  return ⟨nonWitnessUtxo, witnessUtxo, partialSigs, sighashType, redeemScript, witnessScript,
    finalScriptsig, finalScriptwitness, tapScriptSigs, tapLeafScripts, tapInternalKey,
    tapMerkleRoot, unknown⟩

def mergeOutput (a b : PsbtOut) : Except PsbtError PsbtOut := do
  let unknown ← mergeUnknown a.unknown b.unknown
  return ⟨unknown⟩

def combinePsbt (psbt other : Psbt) : Except PsbtError Psbt := do
  reject (psbt.unsignedTx.serializeStripped ≠ other.unsignedTx.serializeStripped)
    .foreignTransaction
  let unknownGlobal ← mergeUnknown psbt.unknownGlobal other.unknownGlobal
  let inputs ← (psbt.inputs.zip other.inputs).mapM fun (a, b) => mergeInput a b
  let outputs ← (psbt.outputs.zip other.outputs).mapM fun (a, b) => mergeOutput a b
  return ⟨psbt.version, psbt.unsignedTx, inputs, outputs, unknownGlobal⟩

/-- Intermediate fields out, UTXOs and unknown pairs stay. -/
def clearIntermediates (input : PsbtIn) : PsbtIn :=
  { input with partialSigs := [], sighashType := none, redeemScript := none,
               witnessScript := none }

/-- A present sighash type other than the pinned one blocks the input. -/
def blockedSighash (input : PsbtIn) (pinned : UInt32) : Prop :=
  ∃ t ∈ input.sighashType, t ≠ pinned

instance (input : PsbtIn) (pinned : UInt32) : Decidable (blockedSighash input pinned) :=
  inferInstanceAs (Decidable (∃ t ∈ input.sighashType, t ≠ pinned))

/-- The key-hash signature with its key, after the sighash byte check. -/
def finalKeySig (index : Nat) (input : PsbtIn) (committed : Bytes) :
    Except Exn (Bytes × Bytes) := do
  let (pubkey, sig) ← orElseThrow (incomplete index) (partialSigByHash P input committed)
  reject (sig.getLast? ≠ some sighashAll) (incomplete index)
  return (pubkey, sig)

def finalizeKey (index : Nat) (input : PsbtIn) (scriptPubkey : Bytes) : Except Exn PsbtIn := do
  let form ← orElseThrow (incomplete index) (formOfScript scriptPubkey)
  reject (blockedSighash input (pinnedSighash form)) (incomplete index)
  match form with
  | .legacy committed =>
    let (pubkey, sig) ← finalKeySig P index input committed
    let scriptsig ← cScript [.data sig, .data pubkey]
    return clearIntermediates { input with finalScriptsig := some scriptsig }
  | .p2wpkh committed =>
    let (pubkey, sig) ← finalKeySig P index input committed
    return clearIntermediates
      { input with finalScriptwitness := some (encodeWitnessStack [sig, pubkey]) }
  | .p2tr committed =>
    let sig ← orElseThrow (incomplete index) (p2trSigByOutputKey P input committed)
    return clearIntermediates
      { input with finalScriptwitness := some (encodeWitnessStack [sig]) }

/-- The signatures present, in the order of the script's keys. -/
def memberSigs (input : PsbtIn) (keys : List Bytes) : List Bytes :=
  keys.filterMap fun key => (input.partialSigs.find? fun p => p.1 = key).map Prod.snd

/-- The script and the first `m` signatures of a CHECKMULTISIG form. -/
def finalizeMultisig (index : Nat) (input : PsbtIn) (script : Option Bytes)
    (commitment : Bytes → Bytes) (committed : Bytes) : Except Exn (Bytes × List Bytes) := do
  let redeem ← orElseThrow (incomplete index) script
  let (m, keys) ← quorumScript redeem
  reject (commitment redeem ≠ committed) mismatch
  reject (blockedSighash input psbtSighashAll) (incomplete index)
  let sigs := memberSigs input keys
  reject (∃ sig ∈ sigs, sig.getLast? ≠ some sighashAll) (incomplete index)
  reject (sigs.length < m) (incomplete index)
  return (redeem, sigs.take m)

def finalizeP2shMultisig (index : Nat) (input : PsbtIn) (scriptPubkey : Bytes) :
    Except Exn PsbtIn := do
  let (redeem, sigs) ← finalizeMultisig index input input.redeemScript (hash160 P)
    (slice scriptPubkey 2 22)
  let scriptsig ← makeMultisigScriptSig redeem sigs
  return clearIntermediates { input with finalScriptsig := some scriptsig }

def finalizeP2wshMultisig (index : Nat) (input : PsbtIn) (scriptPubkey : Bytes) :
    Except Exn PsbtIn := do
  let (redeem, sigs) ← finalizeMultisig index input input.witnessScript P.sha256
    (slice scriptPubkey 2 34)
  let witness := encodeWitnessStack (makeMultisigWitness redeem sigs)
  return clearIntermediates { input with finalScriptwitness := some witness }

/-- Slots in script order: a signature while fewer than `m` are taken, else empty. -/
def sigSlots (index m : Nat) (sigOf : Bytes → Option Bytes) :
    List Bytes → Nat → Except Exn (List (Option Bytes) × Nat)
  | [], taken => .ok ([], taken)
  | key :: keys, taken =>
    match sigOf key, decide (taken < m) with
    | some sig, true => do
      reject (sig.length ≠ 64) (incomplete index)
      let (slots, total) ← sigSlots index m sigOf keys (taken + 1)
      return (some sig :: slots, total)
    | _, _ => do
      let (slots, total) ← sigSlots index m sigOf keys taken
      return (none :: slots, total)

def tapSigOf (input : PsbtIn) (leafHash key : Bytes) : Option Bytes :=
  (input.tapScriptSigs.find? fun s => s.xOnly = key && s.leafHash = leafHash).map
    TapScriptSig.sig

def finalizeP2trScriptpath (index : Nat) (input : PsbtIn) (leaf : TapLeafScript)
    (scriptPubkey : Bytes) : Except Exn PsbtIn := do
  let leaf ← revealedLeaf P input leaf scriptPubkey
  reject (blockedSighash input psbtSighashDefault) (incomplete index)
  let (slots, taken) ← sigSlots index leaf.m (tapSigOf input leaf.leafHash) leaf.keys 0
  reject (taken < leaf.m) (incomplete index)
  let witness := makeMultisigTapscriptWitness leaf.script leaf.controlBlock slots
  return { clearIntermediates { input with finalScriptwitness := some (encodeWitnessStack witness) }
    with tapScriptSigs := [], tapLeafScripts := [], tapInternalKey := none, tapMerkleRoot := none }

/-- The input map finalization leaves. -/
def finalOutcome (psbt : Psbt) (index : Nat) : Except Exn PsbtIn := do
  let input ← orElseThrow (incomplete index) psbt.inputs[index]?
  if input.finalScriptsig.isSome ∨ input.finalScriptwitness.isSome then return input
  else
    let (scriptPubkey, _) ← orElseThrow (incomplete index) (inputUtxoData psbt index)
    if isP2shScript scriptPubkey then finalizeP2shMultisig P index input scriptPubkey
    else if isP2wshScript scriptPubkey then finalizeP2wshMultisig P index input scriptPubkey
    else
      match isP2trScript scriptPubkey, input.tapLeafScripts with
      | true, leaf :: _ => finalizeP2trScriptpath P index input leaf scriptPubkey
      | _, _ => finalizeKey P index input scriptPubkey

def finalizePsbtInput (index : Nat) : Role Unit := do
  let psbt ← get
  let input ← checked (finalOutcome P psbt index)
  set (Psbt.modifyInput psbt index fun _ => input)

/-- The loop over the inputs. A `PsbtError` of one input is passed over. -/
def finalizeInputs : List Nat → Role Unit
  | [] => pure ()
  | index :: rest => fun psbt =>
    match finalizePsbtInput P index psbt with
    | .ok _ psbt' => finalizeInputs rest psbt'
    | .error (.psbt _) psbt' => finalizeInputs rest psbt'
    | .error e psbt' => .error e psbt'

def finalizePsbt : Role Unit := fun psbt =>
  finalizeInputs P (List.range psbt.inputs.length) psbt

end Roles

/-- The final witness stack of an input. -/
def finalStack (i : Nat) (input : PsbtIn) : Except Exn (List Bytes) := do
  let stackBytes ← orElseThrow (.psbt .notFinalized) input.finalScriptwitness
  (decodeWitnessStack stackBytes).mapError fun _ => incomplete i

def extractInput (psbt : Psbt) (i : Nat) (input : PsbtIn) : Except Exn PsbtTxIn := do
  let (scriptPubkey, _) ← orElseThrow (.psbt .notFinalized) (inputUtxoData psbt i)
  match formOfScript scriptPubkey with
  | none =>
    if isP2shScript scriptPubkey then
      reject (input.finalScriptwitness.isSome) (incomplete i)
      let script ← orElseThrow (.psbt .notFinalized) input.finalScriptsig
      let vin ← orElseThrow .indexError psbt.unsignedTx.vin[i]?
      return { vin with script := script }
    else if isP2wshScript scriptPubkey then
      reject (input.finalScriptsig.isSome) (incomplete i)
      let stack ← finalStack i input
      let vin ← orElseThrow .indexError psbt.unsignedTx.vin[i]?
      return { vin with script := [], witness := stack }
    else .error (.psbt .notFinalized)
  | some (.legacy _) =>
    let script ← orElseThrow (.psbt .notFinalized) input.finalScriptsig
    let vin ← orElseThrow .indexError psbt.unsignedTx.vin[i]?
    return { vin with script := script }
  | some _ =>
    reject (input.finalScriptsig.isSome ∧ input.tapLeafScripts ≠ []) (incomplete i)
    let stack ← finalStack i input
    let vin ← orElseThrow .indexError psbt.unsignedTx.vin[i]?
    return { vin with script := [], witness := stack }

def extractTransaction (psbt : Psbt) : Except Exn PsbtTransaction := do
  let vin ← psbt.inputs.zipIdx.mapM fun (input, i) => extractInput psbt i input
  return { psbt.unsignedTx with vin := vin }

end Yubtc.PsbtRoles
