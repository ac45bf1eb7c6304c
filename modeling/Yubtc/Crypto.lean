import Yubtc.Errors
import Yubtc.Lib.ExceptRules

/-!
# Third-party primitives and the helpers built on them

The hash, curve and base58 packages are not part of the repository. They are a
parameter of the model, and `Lawful` collects what their documentation promises.
-/
namespace Yubtc.Crypto

open LittleEndian Wire Errors ExceptRules

/-- The packages `Crypto.Hash`, `coincurve` and `base58`. An `Option` result is the
`ValueError` of the package. -/
structure Primitives where
  sha256 : Bytes → Bytes
  ripemd160 : Bytes → Bytes
  PrivateKey : Type
  PublicKey : Type
  privateKey : Bytes → Option PrivateKey
  secret : PrivateKey → Bytes
  publicKey : PrivateKey → PublicKey
  parsePublicKey : Bytes → Option PublicKey
  combine : PublicKey → PublicKey → Option PublicKey
  format : PublicKey → Bytes
  sign : PrivateKey → Bytes → Bytes
  signSchnorr : PrivateKey → Bytes → Bytes
  b58encode : Bytes → String
  b58decode : String → Option Bytes

/-- Sizes the packages document: digest lengths, the compressed point encoding, DER
encodings of low-S signatures and the fixed BIP-340 signature. -/
structure Primitives.Lawful (P : Primitives) : Prop where
  sha256_length : ∀ data, (P.sha256 data).length = 32
  ripemd160_length : ∀ data, (P.ripemd160 data).length = 20
  format_length : ∀ point, (P.format point).length = 33
  sign_length : ∀ key digest, (P.sign key digest).length ≤ 72
  signSchnorr_length : ∀ key digest, (P.signSchnorr key digest).length = 64

variable (P : Primitives)

def hash160 (data : Bytes) : Bytes := P.ripemd160 (P.sha256 data)

/-- BIP-340 tagged hash. -/
def taggedHash (tag msg : Bytes) : Bytes :=
  let tagHash := P.sha256 tag
  P.sha256 (tagHash ++ tagHash ++ msg)

/-- Double SHA-256, in internal (non-reversed) byte order. -/
def dsha256 (data : Bytes) : Bytes := P.sha256 (P.sha256 data)

@[simp] theorem dsha256_length (h : P.Lawful) (data : Bytes) : (dsha256 P data).length = 32 :=
  h.sha256_length _

@[simp] theorem hash160_length (h : P.Lawful) (data : Bytes) : (hash160 P data).length = 20 :=
  h.ripemd160_length _

theorem taggedHash_length (h : P.Lawful) (tag msg : Bytes) :
    (taggedHash P tag msg).length = 32 := h.sha256_length _

/-- The bytes of an ASCII tag. -/
def ascii (s : String) : Bytes := s.toList.map (fun c => UInt8.ofNat c.toNat)

/-- `int.from_bytes(data, 'big')`. -/
def fromBytesBig (data : Bytes) : Nat := unpackLE data.reverse

/-- `n.to_bytes(width, 'big')`, for a value that fits. -/
def toBytesBig (width n : Nat) : Bytes := (packLE width n).reverse

@[simp] theorem toBytesBig_length (width n : Nat) : (toBytesBig width n).length = width := by
  simp [toBytesBig]

theorem fromBytesBig_toBytesBig {width n : Nat} (h : n < 256 ^ width) :
    fromBytesBig (toBytesBig width n) = n := by
  rw [fromBytesBig, toBytesBig, List.reverse_reverse, unpackLE_packLE _ _ h]

theorem toBytesBig_fromBytesBig (data : Bytes) :
    toBytesBig data.length (fromBytesBig data) = data := by
  have h := packLE_unpackLE data.reverse
  rw [List.length_reverse] at h
  rw [fromBytesBig, toBytesBig, h, List.reverse_reverse]

def secp256k1N : Nat := 0xFFFFFFFFFFFFFFFFFFFFFFFFFFFFFFFEBAAEDCE6AF48A03BBFD25E8CD0364141

/-- The 33-byte compressed form. -/
def privkey2pubkey (privkey : P.PrivateKey) : Bytes := P.format (P.publicKey privkey)

def signHash (privkey : P.PrivateKey) (datahash : Bytes) : Bytes := P.sign privkey datahash

def signData (privkey : P.PrivateKey) (data : Bytes) : Bytes := P.sign privkey (dsha256 P data)

/-- `Q = P + t*G` as a point; a zero scalar and the point at infinity are the same error. -/
def tweakPoint (p : P.PublicKey) (t : Nat) : Except Exn P.PublicKey :=
  orElseThrow
    (.tapTweak "taproot tweak failed: output key Q is the point at infinity (p ~ 2^-128)")
    ((P.privateKey (toBytesBig 32 t)).bind (fun k => P.combine p (P.publicKey k)))

/-- The x-only form of the tweaked key. -/
def tweakOutputKey (p : P.PublicKey) (t : Nat) : Except Exn Bytes := do
  let tweaked ← tweakPoint P p t
  return slice (P.format tweaked) 1 33

/-- The even-Y point of an x-only key. -/
def liftX (xonly : Bytes) : Except Exn P.PublicKey :=
  orElseThrow (.tapTweak "taproot tweak failed: internal pubkey is not a valid curve point")
    (P.parsePublicKey (0x02 :: xonly))

def internalLengthError (data : Bytes) : Exn :=
  .valueError ("internal pubkey must be 32 bytes, got " ++ toString data.length)

/-- BIP-86 key-path TapTweak of an x-only internal key. -/
def taprootOutputKey (internalXonly : Bytes) : Except Exn Bytes := do
  reject (internalXonly.length ≠ 32) (internalLengthError internalXonly)
  let p ← liftX P internalXonly
  let t := fromBytesBig (taggedHash P (ascii "TapTweak") internalXonly) % secp256k1N
  tweakOutputKey P p t

/-- BIP-341 refuses a script-path tweak at or above the curve order. -/
def tweakScriptScalarFromDigest (tBytes : Bytes) : Except Exn Nat := do
  let t := fromBytesBig tBytes
  reject (t ≥ secp256k1N) (.tapTweak "script-path tweak scalar ≥ curve order (p ≈ 2^-128)")
  return t

/-- The internal point and the script-path tweak, in the order the checks run. -/
def scriptTweak (internalXonly leafHash : Bytes) : Except Exn (P.PublicKey × Nat) := do
  reject (internalXonly.length ≠ 32) (internalLengthError internalXonly)
  reject (leafHash.length ≠ 32)
    (.valueError ("leaf hash must be 32 bytes, got " ++ toString leafHash.length))
  let p ← liftX P internalXonly
  let t ← tweakScriptScalarFromDigest (taggedHash P (ascii "TapTweak") (internalXonly ++ leafHash))
  return (p, t)

/-- BIP-341 script-path output key of a single-leaf tree. -/
def tapscriptOutputKey (internalXonly leafHash : Bytes) : Except Exn Bytes := do
  let (p, t) ← scriptTweak P internalXonly leafHash
  tweakOutputKey P p t

def tapscriptLeafVersion : UInt8 := 0xc0

/-- The 33-byte control block of a single-leaf tree: leaf version and parity, then the
internal key. -/
def tapscriptControlBlock (internalXonly leafHash : Bytes) : Except Exn Bytes := do
  let (p, t) ← scriptTweak P internalXonly leafHash
  let q ← tweakPoint P p t
  -- The SEC prefix byte carries the parity of y(Q).
  let parity := (P.format q).headD 0 &&& 1
  return (tapscriptLeafVersion ||| parity) :: internalXonly

/-- BIP-86/BIP-341 signing scalar: even-Y normalization, then the tweak. -/
def taprootTweakedScalar (privkey : P.PrivateKey) : Nat :=
  let pubkey := privkey2pubkey P privkey
  let xonly := slice pubkey 1 33
  let t := fromBytesBig (taggedHash P (ascii "TapTweak") xonly) % secp256k1N
  let d := fromBytesBig (P.secret privkey)
  let d := if pubkey.headD 0 = 0x03 then secp256k1N - d else d
  (d + t) % secp256k1N

/-- Key-path Schnorr signature under the tweaked key. -/
def taprootSignSighash (privkey : P.PrivateKey) (sighash : Bytes) : Except Exn Bytes :=
  match P.privateKey (toBytesBig 32 (taprootTweakedScalar P privkey)) with
  | none => .error (.valueError "Secret scalar must be greater than 0 and less than the order")
  | some tweakedKey => .ok (P.signSchnorr tweakedKey sighash)

/-- Script-path Schnorr signature under the key in the script itself. -/
def taprootSignSighashUntweaked (privkey : P.PrivateKey) (sighash : Bytes) : Bytes :=
  P.signSchnorr privkey sighash

/-- A digest of the given width. -/
def standInDigest (width : Nat) (data : Bytes) : Bytes :=
  packLE width (data.foldl (fun h b => (h * 1000003 + b.toNat + 1) % (2 ^ 127 - 1)) data.length)

/-- A number that depends on the key and on every bit of the digest. -/
def standInSignature (k : Nat) (digest : Bytes) : Bytes :=
  toBytesBig 32 (k * (fromBytesBig digest + 1))

/-- Small computable functions with the documented sizes, for running the model on an input. A
public key is its own discrete logarithm. -/
def standIn : Primitives where
  sha256 := standInDigest 32
  ripemd160 := standInDigest 20
  PrivateKey := Nat
  PublicKey := Nat
  privateKey secret :=
    let k := fromBytesBig secret
    if 0 < k ∧ k < secp256k1N then some k else none
  secret := toBytesBig 32
  publicKey k := k
  parsePublicKey data := if data.length = 33 then some (fromBytesBig (data.drop 1)) else none
  combine p q := if (p + q) % secp256k1N = 0 then none else some ((p + q) % secp256k1N)
  format p := 0x02 :: toBytesBig 32 p
  sign k digest := [0x30, 0x22, 0x02, 0x20] ++ standInSignature k digest
  signSchnorr k digest := toBytesBig 32 k ++ standInSignature k digest
  b58encode _ := ""
  b58decode _ := none

theorem standIn_lawful : standIn.Lawful where
  sha256_length := fun _ => packLE_length 32 _
  ripemd160_length := fun _ => packLE_length 20 _
  format_length := fun point => congrArg Nat.succ (toBytesBig_length 32 point)
  sign_length := fun key digest => by
    have h : (standInSignature key digest).length = 32 := toBytesBig_length 32 _
    simp [standIn, h]
  signSchnorr_length := fun key digest => by
    have h : (standInSignature key digest).length = 32 := toBytesBig_length 32 _
    have hk : (toBytesBig 32 key).length = 32 := toBytesBig_length 32 _
    simp [standIn, h, hk]

end Yubtc.Crypto
