import Yubtc.Crypto
import Yubtc.Lib.ScriptVm

/-!
# Scripts

The opcodes the wallet's scripts use, the five canonical lock scripts, data pushes, and the
builders and strict extractors of the two quorum scripts. A script is a byte string.
-/
namespace Yubtc.Script

open LittleEndian Wire Errors ExceptRules Crypto

def op0 : UInt8 := 0x00
def opPushbytes20 : UInt8 := 0x14
def opPushbytes32 : UInt8 := 0x20
def opPushdata1 : UInt8 := 0x4c
def opPushdata2 : UInt8 := 0x4d
def op1 : UInt8 := 0x51
def op16 : UInt8 := 0x60
def opDup : UInt8 := 0x76
def opEqual : UInt8 := 0x87
def opEqualverify : UInt8 := 0x88
def opNumequal : UInt8 := 0x9c
def opNumequalverify : UInt8 := 0x9d
def opHash160 : UInt8 := 0xa9
def opChecksig : UInt8 := 0xac
def opCheckmultisig : UInt8 := 0xae
def opChecksigadd : UInt8 := 0xba

/-- The byte that ends a quorum leaf. The source gives it the name of another opcode. -/
def tapscriptNumequal : UInt8 := 0x9d

/-- What the opcode enumeration names the bytes of the quorum scripts. -/
def opcodeTable (b : UInt8) : Option ScriptVm.Opcode :=
  if op1 ≤ b ∧ b ≤ op16 then some (.num (b.toNat - 0x50))
  else if b = opNumequal then some .numEqual
  else if b = opNumequalverify then some .numEqualVerify
  else if b = opChecksig then some .checkSig
  else if b = opChecksigadd then some .checkSigAdd
  else if b = opCheckmultisig then some .checkMultiSig
  else none

/-- An element of the iterable a `CScript` is built from. -/
inductive ScriptItem where
  | op (code : UInt8)
  | data (bytes : Bytes)

/-- One element: an opcode byte, or an inline push. -/
def ScriptItem.encode : ScriptItem → Except Exn Bytes
  | .op code => .ok [code]
  | .data d => do
    reject (d.length ≥ 0x4c) (.valueError "pushdata too long for inline encoding")
    return UInt8.ofNat d.length :: d

def cScript (value : List ScriptItem) : Except Exn Bytes := do
  let parts ← value.mapM ScriptItem.encode
  return parts.flatten

/-- A script that is a fixed head, a payload of a fixed size and a fixed tail. -/
structure Shape where
  head : Bytes
  size : Nat
  tail : Bytes
  deriving DecidableEq

namespace Shape

def length (s : Shape) : Nat := s.head.length + s.size + s.tail.length

def build (s : Shape) (payload : Bytes) : Bytes := s.head ++ payload ++ s.tail

/-- The strict check: the exact length, and the fixed bytes where they belong. -/
def Fits (s : Shape) (script : Bytes) : Prop :=
  script.length = s.length ∧ script.take s.head.length = s.head ∧
    script.drop (s.head.length + s.size) = s.tail

instance (s : Shape) (script : Bytes) : Decidable (s.Fits script) :=
  inferInstanceAs (Decidable (_ ∧ _ ∧ _))

def payload (s : Shape) (script : Bytes) : Bytes :=
  slice script s.head.length (s.head.length + s.size)

theorem build_fits (s : Shape) (payload : Bytes) (h : payload.length = s.size) :
    s.Fits (s.build payload) := by
  refine ⟨by simp [build, length, h, Nat.add_assoc], by simp [build], ?_⟩
  rw [build, ← h, ← List.length_append, List.drop_left]

theorem payload_build (s : Shape) (payload : Bytes) (h : payload.length = s.size) :
    s.payload (s.build payload) = payload := by
  simp [Shape.payload, slice, build, ← h]

theorem payload_length {s : Shape} {script : Bytes} (h : s.Fits script) :
    (s.payload script).length = s.size := by
  simp only [Shape.payload, slice, List.length_take, List.length_drop, h.1, length]
  omega

end Shape

def p2pkhShape : Shape := ⟨[opDup, opHash160, 20], 20, [opEqualverify, opChecksig]⟩
def p2shShape : Shape := ⟨[opHash160, 0x14], 20, [opEqual]⟩
def p2wpkhShape : Shape := ⟨[op0, opPushbytes20], 20, []⟩
def p2wshShape : Shape := ⟨[op0, opPushbytes32], 32, []⟩
def p2trShape : Shape := ⟨[op1, opPushbytes32], 32, []⟩

/-- A lock script of the given shape, after the payload's length check. -/
def makeLock (s : Shape) (name : String) (payload : Bytes) : Except Exn Bytes := do
  reject (payload.length ≠ s.size)
    (.valueError
      (name ++ " must be " ++ toString s.size ++ " bytes, got " ++ toString payload.length))
  return s.build payload

/-- The payload of a script of the given shape, or the extractor's `ValueError`. -/
def extract (s : Shape) (error : Exn) (script : Bytes) : Except Exn Bytes := do
  reject (¬ s.Fits script) error
  return s.payload script

def layoutError (layout : String) (script : Bytes) : Exn :=
  .valueError ("invalid script: expected " ++ layout ++ " layout, got " ++
    toString script.length ++ " bytes")

def script2pkh (script : Bytes) : Except Exn Bytes :=
  extract p2pkhShape (.valueError "invalid script") script
def makeP2wpkhLockScript (hash160 : Bytes) : Except Exn Bytes :=
  makeLock p2wpkhShape "hash160" hash160
def makeP2trLockScript (outputKey : Bytes) : Except Exn Bytes :=
  makeLock p2trShape "output key" outputKey
def extractP2wpkhHash (script : Bytes) : Except Exn Bytes :=
  extract p2wpkhShape (layoutError "P2WPKH" script) script
def extractP2trOutputKey (script : Bytes) : Except Exn Bytes :=
  extract p2trShape (layoutError "P2TR" script) script
def makeP2wshLockScript (sha256 : Bytes) : Except Exn Bytes :=
  makeLock p2wshShape "sha256" sha256
def makeP2shLockScript (hash160 : Bytes) : Except Exn Bytes :=
  makeLock p2shShape "hash160" hash160

/-- A single-item push: direct, `OP_PUSHDATA1` or `OP_PUSHDATA2` by the item's length. -/
def pushData (data : Bytes) : Except Exn Bytes := do
  reject (data.length > 0xffff)
    (.valueError ("item too long for a single/OP_PUSHDATA1/OP_PUSHDATA2 push: " ++
      toString data.length ++ " bytes"))
  if data.length ≤ 0x4b then return UInt8.ofNat data.length :: data
  else if data.length ≤ 0xff then return opPushdata1 :: packLE 1 data.length ++ data
  else return opPushdata2 :: packLE 2 data.length ++ data

/-- The length of a push's prefix. -/
def pushDataLen (length : Nat) : Nat :=
  if length ≤ 0x4b then 1 else if length ≤ 0xff then 2 else 3

/-- What `pushData` writes for an item it accepts. -/
def pushed (data : Bytes) : Bytes :=
  if data.length ≤ 0x4b then UInt8.ofNat data.length :: data
  else if data.length ≤ 0xff then opPushdata1 :: packLE 1 data.length ++ data
  else opPushdata2 :: packLE 2 data.length ++ data

theorem pushData_eq_ok {data out : Bytes} :
    pushData data = .ok out ↔ data.length ≤ 0xffff ∧ pushed data = out := by
  unfold pushData pushed
  rw [reject_bind_eq_ok, Nat.not_lt]
  refine and_congr_right fun _ => ?_
  split
  · simp
  · split <;> simp

theorem pushed_length (data : Bytes) :
    (pushed data).length = pushDataLen data.length + data.length := by
  unfold pushed pushDataLen
  split
  · simp; omega
  · split <;> simp <;> omega

/-- A push decodes to the item it pushes. -/
theorem decode_pushed (data rest : Bytes) (h : data.length ≤ 0xffff) :
    ScriptVm.decode (pushed data ++ rest) =
      (ScriptVm.decode rest).map (.push data :: ·) := by
  unfold pushed
  split
  · next hs => exact ScriptVm.decode_direct data rest hs
  · split
    · next hs =>
      simpa [opPushdata1] using ScriptVm.decode_pushdata1 data rest (by omega)
    · simpa [opPushdata2] using ScriptVm.decode_pushdata2 data rest (by omega)

def msMaxPubkeys : Nat := 15

/-- `OP_N`, as a number before it is written to a byte. -/
def opN (n : Int) : Int := 0x50 + n

/-- `bytearray.append`. -/
def byteOf (v : Int) : Except Exn UInt8 := do
  reject (¬ (0 ≤ v ∧ v < 256)) (.valueError "byte must be in range(0, 256)")
  return UInt8.ofNat v.toNat

def isCanonicalCompressedPubkey (key : Bytes) : Bool :=
  key.getD 0 0 = 0x02 || key.getD 0 0 = 0x03

/-- `sorted(keys)`. -/
def sortedKeys (keys : List Bytes) : List Bytes := keys.insertionSort (· ≤ ·)

/-- The bounds, length and duplicate checks both builders share, and the sorted keys. -/
def checkedKeys (keyLength : Nat) (error : Exn) (m : Int) (keys : List Bytes) :
    Except Exn (List Bytes) := do
  let n := keys.length
  reject (n = 0 ∨ m = 0 ∨ m > n ∨ n > msMaxPubkeys) error
  reject (∃ k ∈ keys, k.length ≠ keyLength) error
  let sortedKeys := sortedKeys keys
  reject (∃ p ∈ sortedKeys.zip sortedKeys.tail, p.1 = p.2) error
  return sortedKeys

/-- The bare M-of-N redeem script, keys in lexicographic order. -/
def makeMultisigRedeemScript (m : Int) (keys : List Bytes) : Except Exn Bytes := do
  let n := keys.length
  let sortedKeys ← checkedKeys 33 .invalidMultisigRedeem m keys
  let mOp ← byteOf (opN m)
  let nOp ← byteOf (opN n)
  return mOp :: sortedKeys.flatMap (fun key => 0x21 :: key) ++ [nOp, opCheckmultisig]

/-- One key slot of a redeem script. -/
def quorumSlot (script : Bytes) (i : Nat) : Except Exn Bytes := do
  let start := 1 + i * 34
  reject (script.getD start 0 ≠ 0x21) .invalidMultisigRedeem
  let key := slice script (start + 1) (start + 34)
  reject (¬ isCanonicalCompressedPubkey key) .invalidMultisigRedeem
  return key

/-- The quorum of a canonical redeem script, keys in script order. -/
def extractMultisigQuorum (script : Bytes) : Except Exn (Nat × List Bytes) := do
  reject (script.length < 3 + 34) .invalidMultisigRedeem
  let mOp := (script.getD 0 0).toNat
  let nOp := (script.getD (script.length - 2) 0).toNat
  reject (script.getD (script.length - 1) 0 ≠ opCheckmultisig) .invalidMultisigRedeem
  let opBound := 0x50 + msMaxPubkeys
  reject (¬ (0x51 ≤ mOp ∧ mOp ≤ opBound) ∨ ¬ (0x51 ≤ nOp ∧ nOp ≤ opBound))
    .invalidMultisigRedeem
  let m := mOp - 0x50
  let n := nOp - 0x50
  reject (m > n) .invalidMultisigRedeem
  reject (script.length - 3 ≠ n * 34) .invalidMultisigRedeem
  let keys ← (List.range n).mapM (quorumSlot script)
  reject (¬ keys.Nodup) .invalidMultisigRedeem
  return (m, keys)

/-- `OP_0`, the signatures in key order, the redeem script. -/
def makeMultisigScriptSig (redeem : Bytes) (sigs : List Bytes) : Except Exn Bytes := do
  let pushes ← sigs.mapM pushData
  let last ← pushData redeem
  return op0 :: pushes.flatten ++ last

/-- The empty dummy, the signatures in key order, the witness script. -/
def makeMultisigWitness (redeem : Bytes) (sigs : List Bytes) : List Bytes :=
  [] :: sigs ++ [redeem]

/-- `OP_CHECKSIG` starts the counter, `OP_CHECKSIGADD` advances it. -/
def slotOpcode (i : Nat) : UInt8 := if i = 0 then opChecksig else opChecksigadd

/-- The M-of-N tapscript leaf, keys in lexicographic order. -/
def makeMultisigTapscript (m : Int) (keys : List Bytes) : Except Exn Bytes := do
  let sortedKeys ← checkedKeys 32 .invalidMultisigTapscript m keys
  let body := (sortedKeys.mapIdx fun i key => 0x20 :: key ++ [slotOpcode i]).flatten
  let mOp ← byteOf (opN m)
  return body ++ [mOp, tapscriptNumequal]

/-- One key slot of a tapscript leaf. -/
def tapscriptSlot (script : Bytes) (i : Nat) : Except Exn Bytes := do
  let start := i * 34
  reject (script.getD start 0 ≠ 0x20) .invalidMultisigTapscript
  reject (script.getD (start + 33) 0 ≠ slotOpcode i) .invalidMultisigTapscript
  return slice script (start + 1) (start + 33)

/-- The quorum of a canonical tapscript leaf, keys in script order. -/
def extractMultisigTapscript (script : Bytes) : Except Exn (Nat × List Bytes) := do
  reject (script.length < 34 + 2) .invalidMultisigTapscript
  let mOp := (script.getD (script.length - 2) 0).toNat
  reject (script.getD (script.length - 1) 0 ≠ tapscriptNumequal ∨ ¬ (0x51 ≤ mOp ∧ mOp ≤ 0x5f))
    .invalidMultisigTapscript
  let m := mOp - 0x50
  let body := script.length - 2
  reject (body % 34 ≠ 0) .invalidMultisigTapscript
  let n := body / 34
  reject (m > n ∨ n > msMaxPubkeys) .invalidMultisigTapscript
  let keys ← (List.range n).mapM (tapscriptSlot script)
  reject (¬ keys.Nodup) .invalidMultisigTapscript
  return (m, keys)

/-- BIP-341 leaf hash. -/
def tapscriptLeafHash (P : Primitives) (script : Bytes) : Bytes :=
  taggedHash P (ascii "TapLeaf") (tapscriptLeafVersion :: compactSize script.length ++ script)

/-- The slots in reverse key order, then the leaf and its control block. -/
def makeMultisigTapscriptWitness (script controlBlock : Bytes) (sigSlots : List (Option Bytes)) :
    List Bytes :=
  sigSlots.reverse.map (fun slot => slot.getD []) ++ [script, controlBlock]

/-- The BIP-341 NUMS point, the internal key of every quorum leaf. -/
def msTapscriptInternalKey : Bytes :=
  [0x50, 0x92, 0x9b, 0x74, 0xc1, 0xa0, 0x49, 0x54, 0xb7, 0x8b, 0x4b, 0x60, 0x35, 0xe9, 0x7a,
   0x5e, 0x07, 0x8a, 0x5a, 0x0f, 0x28, 0xec, 0x96, 0xd5, 0x47, 0xbf, 0xee, 0x9a, 0xce, 0x80,
   0x3a, 0xc0]

end Yubtc.Script
