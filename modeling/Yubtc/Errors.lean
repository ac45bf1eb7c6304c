import Yubtc.Text

/-!
# Exceptions

Every exception the modelled functions raise, one constructor a class, with the data
the class carries. `message` gives the texts of the typed PSBT and quorum errors.
-/
namespace Yubtc.Errors

open Text (CodePoint Str)

/-- The `PsbtError` hierarchy. -/
inductive PsbtError where
  | invalidMagic
  | truncated
  | nonMinimalCompactSize
  | invalidKeyLength (fieldType : Nat)
  | duplicateKey
  | unsupportedVersion (version : Nat)
  | missingUnsignedTx
  | invalidUnsignedTx
  | mapCountMismatch
  | invalidFieldValue
  | unsupportedInputScript
  | utxoMismatch
  | unsupportedSighashType (sighashType : Nat)
  | conflictingField
  | foreignTransaction
  | incompleteInput (index : Nat)
  | notFinalized
  | tooLarge
  deriving DecidableEq, Repr

def PsbtError.message : PsbtError → String
  | .invalidMagic => "not a PSBT: bad magic bytes"
  | .truncated => "PSBT data truncated or structurally malformed"
  | .nonMinimalCompactSize => "key type compact size is not minimally encoded"
  | .invalidKeyLength t => "invalid key data length for field type " ++ toString t
  | .duplicateKey => "duplicate key in a PSBT map"
  | .unsupportedVersion v =>
    "unsupported PSBT version " ++ toString v ++ " (only v0 is supported)"
  | .missingUnsignedTx => "global map lacks the UNSIGNED_TX field"
  | .invalidUnsignedTx => "UNSIGNED_TX is not a valid unsigned transaction"
  | .mapCountMismatch => "input/output map count does not match the unsigned transaction"
  | .invalidFieldValue => "field value malformed"
  | .unsupportedInputScript =>
    "input script requires redeem/witness script support (P2SH/P2WSH)"
  | .utxoMismatch => "NON_WITNESS_UTXO does not hash to the referenced prevout txid"
  | .unsupportedSighashType t =>
    "SIGHASH_TYPE " ++ toString t ++ " does not match the sighash pinned for this input form"
  | .conflictingField => "combine conflict: same key with different values"
  | .foreignTransaction => "combine refused: UNSIGNED_TX values differ"
  | .incompleteInput i =>
    "input " ++ toString i ++ " is incomplete for the requested operation"
  | .notFinalized => "not all inputs are finalized; extraction refused"
  | .tooLarge => "PSBT exceeds the 4194304-byte size cap"

/-- The `MsError` hierarchy of the quorum surface. -/
inductive MsError where
  | quorumBounds
  | keyCountMismatch (expected : Int) (got : Nat)
  | duplicateKey
  | foreignWif
  | notAParticipant
  | invalidKeyEncoding
  deriving DecidableEq, Repr

def MsError.message : MsError → String
  | .quorumBounds => "quorum out of bounds: need 1 ≤ M ≤ N ≤ 15"
  | .keyCountMismatch e g =>
    "key count mismatch: expected exactly " ++ toString e ++ " keys, got " ++ toString g
  | .duplicateKey => "duplicate key in the quorum"
  | .foreignWif => "WIF does not match the key derived at this nonce"
  | .notAParticipant => "own key is not a participant of this quorum"
  | .invalidKeyEncoding =>
    "key encoding does not match the form: p2sh/p2wsh need 66-hex compressed keys, " ++
      "p2tr needs 64-hex x-only keys"

/-- The `Bech32Error` hierarchy. -/
inductive Bech32Error where
  | tooLong
  | invalidCharacter (char : CodePoint)
  | mixedCase
  | invalidStructure
  | invalidChecksum
  | invalidDataValue (value : UInt8)
  deriving DecidableEq, Repr

/-- The `SegWitAddrError` hierarchy. -/
inductive SegWitAddrError where
  | invalidCharacter (char : CodePoint)
  | invalidChecksum
  | mixedCase
  | tooLong
  | invalidHrp (hrp : Str)
  | invalidProgramLength (length : Nat)
  | unknownWitnessVersion (version : Nat)
  | unsupportedProgram
  | invalidStructure
  deriving DecidableEq, Repr

/-- Everything a modelled function can raise. -/
inductive Exn where
  | psbt (e : PsbtError)
  | ms (e : MsError)
  | bech32 (e : Bech32Error)
  | segWit (e : SegWitAddrError)
  | invalidMultisigRedeem
  | invalidMultisigTapscript
  | tapTweak (message : String)
  | valueError (message : String)
  | typeError (message : String)
  | keyError (key : String)
  | indexError
  | structError
  | overflowError
  deriving DecidableEq, Repr

/-- What `except ValueError` catches. -/
def Exn.isValueError : Exn → Bool
  | .bech32 _ | .segWit _ | .invalidMultisigRedeem | .invalidMultisigTapscript
  | .tapTweak _ | .valueError _ => true
  | _ => false

end Yubtc.Errors
