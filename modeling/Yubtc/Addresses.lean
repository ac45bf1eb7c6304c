import Yubtc.Bech32
import Yubtc.QuorumPayment
import Yubtc.Lib.Base58

/-!
# Addresses

The six address builders and the decoder chain behind `make_lock_script`: bech32 addresses by
their prefix, everything else as base58check.
-/
namespace Yubtc.Addresses

open Wire Text Errors ExceptRules Crypto Script Bech32 PsbtRoles QuorumPsbt QuorumPayment

variable (P : Primitives)

def prefixP2pkh : UInt8 := 0x00
def prefixP2sh : UInt8 := 0x05

def hrpMainnet : Str := str "bc"

/-- `b58decode` of a string; a surrogate is a foreign character. -/
def b58decode (s : Str) : Option Bytes := (toString? s).bind P.b58decode

def base58CheckEncode (payload : Bytes) : Str :=
  let checksum := (P.sha256 (P.sha256 payload)).take 4
  str (P.b58encode (payload ++ checksum))

def base58CheckDecode (s : Str) : Except Exn Bytes := do
  let decoded ← orElseThrow (.valueError "Invalid character") (b58decode P s)
  let checksum := decoded.drop (decoded.length - 4)
  let payload := decoded.take (decoded.length - 4)
  reject ((P.sha256 (P.sha256 payload)).take 4 ≠ checksum) (.valueError "invalid checksum")
  return payload

/-- The version byte and the rest. -/
def unpackAddress (address : Str) : Except Exn (UInt8 × Bytes) := do
  match ← base58CheckDecode P address with
  | [] => .error .indexError
  | version :: dsthash => .ok (version, dsthash)

def pubkey2addr (pubkey : Bytes) : Str := base58CheckEncode P (prefixP2pkh :: hash160 P pubkey)

/-- A witness program as an address. -/
def segwitAddr (encoding : Encoding) (version : UInt8) (program : Bytes) : Except Exn Str :=
  (encode hrpMainnet encoding (version :: bytesTo5bit program)).mapError .bech32

def pubkeyLengthError (pubkey : Bytes) : Exn :=
  .valueError ("pubkey must be 33 bytes, got " ++ toString pubkey.length)

def pubkey2segwitAddr (pubkey : Bytes) : Except Exn Str := do
  reject (pubkey.length ≠ 33) (pubkeyLengthError pubkey)
  segwitAddr .bech32 0 (hash160 P pubkey)

def pubkey2taprootAddr (pubkey : Bytes) : Except Exn Str := do
  reject (pubkey.length ≠ 33) (pubkeyLengthError pubkey)
  let outputKey ← taprootOutputKey P (slice pubkey 1 33)
  segwitAddr .bech32m 1 outputKey

def redeem2p2shAddr (redeem : Bytes) : Str := base58CheckEncode P (prefixP2sh :: hash160 P redeem)

def redeem2p2wshAddr (redeem : Bytes) : Except Exn Str := segwitAddr .bech32 0 (P.sha256 redeem)

def redeem2taprootAddr (script : Bytes) : Except Exn Str := do
  let leafHash := tapscriptLeafHash P script
  let outputKey ← tapscriptOutputKey P msTapscriptInternalKey leafHash
  segwitAddr .bech32m 1 outputKey

def mapBech32Error : Bech32Error → SegWitAddrError
  | .tooLong => .tooLong
  | .invalidCharacter c => .invalidCharacter c
  | .mixedCase => .mixedCase
  | .invalidChecksum => .invalidChecksum
  | .invalidStructure | .invalidDataValue _ => .invalidStructure

structure WitnessProgram where
  version : Nat
  program : Bytes
  deriving DecidableEq, Repr

/-- What both decoders do first: checksum, network, version and regrouping. -/
def witnessProgram (address : Str) : Except SegWitAddrError (Encoding × WitnessProgram) := do
  let (hrp, encoding, data) ← (decode address).mapError mapBech32Error
  reject (hrp ≠ hrpMainnet) (.invalidHrp hrp)
  match data with
  | [] => .error .invalidStructure
  | version :: rest =>
    let program ← orElseThrow .invalidStructure (fiveBitToBytes rest)
    return (encoding, ⟨version.toNat, program⟩)

def decodeSegwitAddr (address : Str) : Except SegWitAddrError WitnessProgram := do
  let (encoding, wp) ← witnessProgram address
  let length := wp.program.length
  reject (length < 2 ∨ length > 40) (.invalidProgramLength length)
  reject (wp.version > 16) (.unknownWitnessVersion wp.version)
  reject (wp.version = 0 ∧ length ≠ 20 ∧ length ≠ 32) (.invalidProgramLength length)
  reject (wp.version = 0 ∧ encoding ≠ .bech32) .invalidChecksum
  reject (wp.version ≠ 0 ∧ encoding ≠ .bech32m) .invalidChecksum
  reject (wp.version = 0 ∧ length = 32) .unsupportedProgram
  reject (wp.version > 1) (.unknownWitnessVersion wp.version)
  return wp

def decodeP2wshAddr (address : Str) : Except SegWitAddrError WitnessProgram := do
  let (encoding, wp) ← witnessProgram address
  reject (wp.version ≠ 0) .unsupportedProgram
  reject (wp.program.length ≠ 32) .unsupportedProgram
  reject (encoding ≠ .bech32) .invalidChecksum
  return wp

/-- `address.startswith(('bc1', 'BC1'))`. -/
def isBech32 (address : Str) : Bool :=
  startsWith (str "bc1") address || startsWith (str "BC1") address

def makeLockScript (address : Str) : Except Exn Bytes :=
  if isBech32 address then
    match decodeP2wshAddr address with
    | .ok wp => makeP2wshLockScript wp.program
    | .error .unsupportedProgram => do
      let wp ← (decodeSegwitAddr address).mapError .segWit
      if wp.version = 0 then makeP2wpkhLockScript wp.program else makeP2trLockScript wp.program
    | .error e => .error (.segWit e)
  else do
    let (version, dsthash) ← unpackAddress P address
    if version = prefixP2pkh then
      cScript [.op opDup, .op opHash160, .data dsthash, .op opEqualverify, .op opChecksig]
    else if version = prefixP2sh then cScript [.op opHash160, .data dsthash, .op opEqual]
    else .error (.valueError "address not supported")

variable {P}

theorem makeLock_length {s : Shape} {name : String} {payload : Bytes}
    (h : payload.length = s.size) : makeLock s name payload = .ok (s.build payload) := by
  rw [makeLock, reject_false _ (not_not.mpr h)]
  rfl

theorem makeLock_cases (s : Shape) (name : String) (payload : Bytes) :
    (∃ message, makeLock s name payload = .error (.valueError message)) ∨
      ∃ script, makeLock s name payload = .ok script ∧ s.Fits script := by
  by_cases h : payload.length = s.size
  · exact .inr ⟨_, makeLock_length h, s.build_fits payload h⟩
  · exact .inl ⟨_, by rw [makeLock, reject_true _ h]; rfl⟩

def standardShapes : List Shape := [p2pkhShape, p2shShape, p2wpkhShape, p2wshShape, p2trShape]

/-- The script of one standard form, or a `ValueError`. -/
def Standard (result : Except Exn Bytes) : Prop :=
  (∃ e, result = .error e ∧ e.isValueError = true) ∨
    ∃ script, result = .ok script ∧ ∃! s, s ∈ standardShapes ∧ s.Fits script

theorem fits_head {s : Shape} {script : Bytes} (hs : s ∈ standardShapes) (h : s.Fits script) :
    s.head.head? = script.head? := by
  have hne : ∀ s ∈ standardShapes, s.head.length ≠ 0 := by decide
  rw [← h.2.1, List.head?_take, if_neg (hne s hs)]

/-- The standard forms differ in length or in their first byte. -/
theorem standardShapes_unique {s t : Shape} (hs : s ∈ standardShapes) (ht : t ∈ standardShapes)
    {script : Bytes} (hfs : s.Fits script) (hft : t.Fits script) : s = t := by
  have hlen : s.length = t.length := hfs.1.symm.trans hft.1
  have hhead : s.head.head? = t.head.head? := (fits_head hs hfs).trans (fits_head ht hft).symm
  have hall : ∀ s ∈ standardShapes, ∀ t ∈ standardShapes,
      s.length = t.length → s.head.head? = t.head.head? → s = t := by decide
  exact hall s hs t ht hlen hhead

theorem standard_of_fits {s : Shape} (hs : s ∈ standardShapes) {script : Bytes}
    (h : s.Fits script) : Standard (.ok script) :=
  .inr ⟨script, rfl, s, ⟨hs, h⟩, fun _ ht => standardShapes_unique ht.1 hs ht.2 h⟩

theorem standard_makeLock {s : Shape} (hs : s ∈ standardShapes) (name : String) (payload : Bytes) :
    Standard (makeLock s name payload) := by
  rcases makeLock_cases s name payload with ⟨message, h⟩ | ⟨script, h, hfits⟩
  · exact .inl ⟨_, h, rfl⟩
  · exact h ▸ standard_of_fits hs hfits

/-- The decoders check the program, so a bech32 address is never a problem. -/
theorem standard_bech32 {address : Str} (h : isBech32 address = true) :
    Standard (makeLockScript P address) := by
  rw [makeLockScript, if_pos h]
  cases hp2wsh : decodeP2wshAddr address with
  | ok wp => exact standard_makeLock (by decide) _ _
  | error e =>
    cases e with
    | unsupportedProgram =>
      cases hsegwit : decodeSegwitAddr address with
      | error e => exact .inl ⟨_, rfl, rfl⟩
      | ok wp =>
        change Standard (if wp.version = 0 then makeP2wpkhLockScript wp.program
          else makeP2trLockScript wp.program)
        split
        · exact standard_makeLock (by decide) _ _
        · exact standard_makeLock (by decide) _ _
    | _ => exact .inl ⟨_, rfl, rfl⟩

/-- An inline push of a short item. -/
theorem encode_data {d : Bytes} (h : d.length < 0x4c) :
    (ScriptItem.data d).encode = .ok (UInt8.ofNat d.length :: d) := by
  rw [ScriptItem.encode, reject_false _ (Nat.not_le.mpr h)]
  rfl

theorem encode_data_long {d : Bytes} (h : 0x4c ≤ d.length) : (ScriptItem.data d).encode =
    .error (.valueError "pushdata too long for inline encoding") := by
  rw [ScriptItem.encode, reject_true _ h]
  rfl

@[simp] theorem encode_op (code : UInt8) : (ScriptItem.op code).encode = .ok [code] := rfl

theorem cScript_p2pkh {d : Bytes} (h : d.length < 0x4c) :
    cScript [.op opDup, .op opHash160, .data d, .op opEqualverify, .op opChecksig] =
      .ok (opDup :: opHash160 :: UInt8.ofNat d.length :: (d ++ [opEqualverify, opChecksig])) := by
  simp [cScript, List.mapM_cons, encode_data h]

theorem cScript_p2sh {d : Bytes} (h : d.length < 0x4c) :
    cScript [.op opHash160, .data d, .op opEqual] =
      .ok (opHash160 :: UInt8.ofNat d.length :: (d ++ [opEqual])) := by
  simp [cScript, List.mapM_cons, encode_data h]

/-- With a payload of another size there is no standard form for the script. -/
theorem not_standard {t : Shape} (ht : t = p2pkhShape ∨ t = p2shShape) {script : Bytes} {size : Nat}
    (hhead : t.head.head? = script.head?) (hlen : script.length + t.size = t.length + size)
    (hsize : size ≠ t.size) : ¬ Standard (.ok script) := by
  rintro (⟨e, he, -⟩ | ⟨script', he, s, ⟨hs, hfits⟩, -⟩)
  · cases he
  · cases he
    have hall : ∀ s ∈ standardShapes, ∀ t ∈ [p2pkhShape, p2shShape],
        s.head.head? = t.head.head? → s = t := by decide
    obtain rfl := hall s hs t (by simpa using ht) ((fits_head hs hfits).trans hhead.symm)
    have := hfits.1
    omega

/-- What is left of a base58check address: a version that is refused, a hash of the right size,
or one that is too long to be pushed. -/
def Payable : Bytes → Prop
  | [] => False
  | version :: dsthash => version = prefixP2pkh ∨ version = prefixP2sh →
    dsthash.length = 20 ∨ 0x4c ≤ dsthash.length

theorem standard_p2pkh_iff (d : Bytes) :
    Standard (cScript [.op opDup, .op opHash160, .data d, .op opEqualverify, .op opChecksig]) ↔
      d.length = 20 ∨ 0x4c ≤ d.length := by
  rcases Nat.lt_or_ge d.length 0x4c with hlt | hge
  · rw [cScript_p2pkh hlt, or_iff_left (Nat.not_le.mpr hlt)]
    constructor
    · intro h
      by_contra hne
      have hlen : (opDup :: opHash160 :: UInt8.ofNat d.length :: (d ++ [opEqualverify, opChecksig])).length + 20 =
          p2pkhShape.length + d.length := by
        simp [Shape.length, p2pkhShape]
        omega
      exact not_standard (.inl rfl) (by rfl) hlen hne h
    · intro h
      refine standard_of_fits (s := p2pkhShape) (by decide) ?_
      have hbuild := p2pkhShape.build_fits d h
      rwa [show p2pkhShape.build d = opDup :: opHash160 :: UInt8.ofNat d.length ::
        (d ++ [opEqualverify, opChecksig]) by rw [h]; rfl] at hbuild
  · refine iff_of_true (.inl ⟨.valueError "pushdata too long for inline encoding", ?_, rfl⟩) (.inr hge)
    simp only [cScript, List.mapM_cons, encode_op, encode_data_long hge]
    rfl

theorem standard_p2sh_iff (d : Bytes) :
    Standard (cScript [.op opHash160, .data d, .op opEqual]) ↔
      d.length = 20 ∨ 0x4c ≤ d.length := by
  rcases Nat.lt_or_ge d.length 0x4c with hlt | hge
  · rw [cScript_p2sh hlt, or_iff_left (Nat.not_le.mpr hlt)]
    constructor
    · intro h
      by_contra hne
      have hlen : (opHash160 :: UInt8.ofNat d.length :: (d ++ [opEqual])).length + 20 =
          p2shShape.length + d.length := by
        simp [Shape.length, p2shShape]
        omega
      exact not_standard (.inr rfl) (by rfl) hlen hne h
    · intro h
      refine standard_of_fits (s := p2shShape) (by decide) ?_
      have hbuild := p2shShape.build_fits d h
      rwa [show p2shShape.build d = opHash160 :: UInt8.ofNat d.length :: (d ++ [opEqual]) by
        rw [h]; rfl] at hbuild
  · refine iff_of_true (.inl ⟨.valueError "pushdata too long for inline encoding", ?_, rfl⟩) (.inr hge)
    simp only [cScript, List.mapM_cons, encode_op, encode_data_long hge]
    rfl

variable (P) in
/-- Only the size of a base58check payload is left unchecked. -/
theorem makeLockScript_standard_iff (address : Str) : Standard (makeLockScript P address) ↔
    isBech32 address = true ∨
      ∀ payload, base58CheckDecode P address = .ok payload → Payable payload := by
  by_cases hbech : isBech32 address = true
  · exact iff_of_true (standard_bech32 hbech) (.inl hbech)
  rw [or_iff_right hbech, makeLockScript, if_neg hbech, unpackAddress]
  cases hdecode : base58CheckDecode P address with
  | error e =>
    refine iff_of_true (.inl ⟨e, rfl, ?_⟩) nofun
    rcases bind_eq_error.mp hdecode with he | ⟨decoded, -, he⟩
    · cases hb58 : b58decode P address with
      | none =>
        rw [hb58] at he
        cases he
        rfl
      | some decoded =>
        rw [hb58] at he
        cases he
    · rcases bind_eq_error.mp he with he | ⟨_, -, he⟩
      · rw [← (reject_eq_error.mp he).2]
        rfl
      · cases he
  | ok payload =>
    have hsome : (∀ data, Except.ok payload = (.ok data : Except Exn Bytes) → Payable data) ↔
        Payable payload := ⟨fun h => h payload rfl, fun h data he => Except.ok.inj he ▸ h⟩
    rw [hsome, ok_bind]
    cases payload with
    | nil =>
      refine iff_of_false ?_ id
      rintro (⟨e, he, hvalue⟩ | ⟨script, he, -⟩)
      · cases he
        cases hvalue
      · cases he
    | cons version dsthash =>
      change Standard (if version = prefixP2pkh then _ else _) ↔ _
      by_cases hpkh : version = prefixP2pkh
      · rw [if_pos hpkh, standard_p2pkh_iff]
        exact ⟨fun h _ => h, fun h => h (.inl hpkh)⟩
      · rw [if_neg hpkh]
        by_cases hsh : version = prefixP2sh
        · rw [if_pos hsh, standard_p2sh_iff]
          exact ⟨fun h _ => h, fun h => h (.inr hsh)⟩
        · rw [if_neg hsh]
          exact iff_of_true (.inl ⟨_, rfl, rfl⟩) fun h => (h.elim hpkh hsh).elim

/-- Standard base58 in the place of a package's own. -/
def withBase58 (P : Primitives) : Primitives :=
  { P with
    b58encode := Base58.encode
    b58decode := Base58.decode }

/-- Standard base58, and the double hash of the empty string. -/
def emptyHash : Primitives :=
  withBase58 { standIn with
    sha256 := fun _ =>
      [0x5d, 0xf6, 0xe0, 0xe2, 0x76, 0x13, 0x59, 0xd3, 0x0a, 0x82, 0x75, 0x05, 0x8e, 0x29, 0x9f,
       0xcc, 0x03, 0x81, 0x53, 0x45, 0x45, 0xf5, 0x5c, 0xf4, 0x3e, 0x41, 0x98, 0x3f, 0x5d, 0x4c,
       0x94, 0x56] }

/-- The checksum of nothing, as an address. -/
theorem empty_payload_escapes :
    makeLockScript emptyHash (str "3QJmnh") = .error .indexError ∧
      ¬ Standard (makeLockScript emptyHash (str "3QJmnh")) := by
  have h : makeLockScript emptyHash (str "3QJmnh") = .error .indexError := by decide +kernel
  refine ⟨h, ?_⟩
  rw [h]
  rintro (⟨e, he, hvalue⟩ | ⟨script, he, -⟩)
  · cases he
    cases hvalue
  · cases he

variable (P) in
/-- The package encodes standard base58 and decodes what it encodes. -/
structure StandardBase58 : Prop where
  encode : ∀ data, P.b58encode data = Base58.encode data
  inverts : ∀ data, P.b58decode (P.b58encode data) = some data

theorem withBase58_standard : StandardBase58 (withBase58 P) :=
  ⟨fun _ => rfl, Base58.decode_encode⟩

theorem withBase58_lawful (h : P.Lawful) : (withBase58 P).Lawful :=
  ⟨h.sha256_length, h.ripemd160_length, h.format_length, h.sign_length, h.signSchnorr_length⟩

theorem base58CheckDecode_encode (hP : P.Lawful) (hb : StandardBase58 P) (payload : Bytes) :
    base58CheckDecode P (base58CheckEncode P payload) = .ok payload := by
  have hdecode : b58decode P (base58CheckEncode P payload) =
      some (payload ++ (P.sha256 (P.sha256 payload)).take 4) := by
    rw [b58decode, base58CheckEncode, toString?_str, Option.bind_some, hb.inverts]
  have hsize : (payload ++ (P.sha256 (P.sha256 payload)).take 4).length - 4 = payload.length := by
    rw [List.length_append, List.length_take, hP.sha256_length]
    rfl
  rw [base58CheckDecode, hdecode, orElseThrow_some, ok_bind]
  dsimp only
  rw [hsize, List.take_left, List.drop_left, reject_false _ (not_not.mpr rfl), ok_bind]
  rfl

theorem isBech32_of_head {s : Str} {c : CodePoint} (h : s.head? = some c)
    (hc : c ≠ ofChar 'b' ∧ c ≠ ofChar 'B') : isBech32 s = false := by
  cases s with
  | nil => cases h
  | cons d s =>
    cases h
    have hlower : (ofChar 'b' == c) = false := beq_false_of_ne hc.1.symm
    have hupper : (ofChar 'B' == c) = false := beq_false_of_ne hc.2.symm
    change ((ofChar 'b' == c && _) || (ofChar 'B' == c && _)) = false
    rw [hlower, hupper]
    rfl

theorem base58CheckEncode_head (hb : StandardBase58 P) (payload : Bytes) {c : Char}
    (h : (Base58.encode (payload ++ (P.sha256 (P.sha256 payload)).take 4)).toList.head? = some c) :
    (base58CheckEncode P payload).head? = some (ofChar c) := by
  rw [base58CheckEncode, str, List.head?_map, hb.encode, h]
  rfl

/-- A version-zero address starts with a `1`. -/
theorem isBech32_p2pkh (hb : StandardBase58 P) (hash : Bytes) :
    isBech32 (base58CheckEncode P (prefixP2pkh :: hash)) = false :=
  isBech32_of_head (base58CheckEncode_head hb _ (Base58.encode_zero _)) (by decide)

/-- An address of version five and a hash starts with a `3`. -/
theorem isBech32_p2sh (hP : P.Lawful) (hb : StandardBase58 P) {hash : Bytes}
    (h : hash.length = 20) : isBech32 (base58CheckEncode P (prefixP2sh :: hash)) = false := by
  have hlen : (hash ++ (P.sha256 (P.sha256 (prefixP2sh :: hash))).take 4).length = 24 := by
    rw [List.length_append, List.length_take, hP.sha256_length, h]
    rfl
  have hfirst := Base58.encode_first (b := prefixP2sh) (k := 33) (d := 2) (by decide) (by decide)
    (by decide) (by rw [hlen]; decide) (by rw [hlen]; decide)
  exact isBech32_of_head (base58CheckEncode_head hb _ hfirst) (by decide)

theorem hrpMainnet_chars : hrpMainnet = [ofChar 'b', ofChar 'c'] := rfl

theorem readable_mainnet : Readable hrpMainnet := by
  rw [hrpMainnet_chars]
  refine ⟨List.cons_ne_nil _ _, ?_, ?_⟩
  · intro c hc
    rcases List.mem_pair.mp hc with rfl | rfl <;> decide
  · intro c hc
    rcases List.mem_pair.mp hc with rfl | rfl <;> decide

/-- A version and a program fit into an address. -/
theorem program_fits {version : UInt8} {program : Bytes} (hv : version.toNat < 32)
    (hp : program.length ≤ 40) : (∀ v ∈ version :: bytesTo5bit program, v.toNat < 32) ∧
      hrpMainnet.length + (version :: bytesTo5bit program).length + 7 ≤ bech32MaxLen := by
  constructor
  · intro v hmem
    cases List.mem_cons.mp hmem with
    | inl he => exact he ▸ hv
    | inr hmem => exact bytesTo5bit_lt program v hmem
  · have hlen := bytesTo5bit_length program
    rw [List.length_cons, show hrpMainnet.length = 2 by rfl, show bech32MaxLen = 90 by rfl]
    omega

theorem segwitAddr_eq (encoding : Encoding) {version : UInt8} {program : Bytes}
    (hv : version.toNat < 32) (hp : program.length ≤ 40) :
    segwitAddr encoding version program =
      .ok (encoded hrpMainnet encoding (version :: bytesTo5bit program)) := by
  obtain ⟨hlt, hsize⟩ := program_fits hv hp
  rw [segwitAddr, encode_eq hlt hsize]
  rfl

theorem witnessProgram_encoded (encoding : Encoding) {version : UInt8} {program : Bytes}
    (hv : version.toNat < 32) (hp : program.length ≤ 40) :
    witnessProgram (encoded hrpMainnet encoding (version :: bytesTo5bit program)) =
      .ok (encoding, ⟨version.toNat, program⟩) := by
  obtain ⟨hlt, hsize⟩ := program_fits hv hp
  refine bind_eq_ok.mpr ⟨_, mapError_eq_ok.mpr (decode_encoded readable_mainnet hlt hsize), ?_⟩
  refine reject_bind_eq_ok.mpr ⟨not_not.mpr rfl, ?_⟩
  exact bind_eq_ok.mpr ⟨program, by rw [fiveBitToBytes_bytesTo5bit]; rfl, rfl⟩

theorem isBech32_encoded (encoding : Encoding) (data : Bytes) :
    isBech32 (encoded hrpMainnet encoding data) = true := rfl

/-- A twenty-byte version-zero program. -/
theorem makeLockScript_p2wpkh {program : Bytes} (h : program.length = 20) :
    makeLockScript P (encoded hrpMainnet .bech32 (0 :: bytesTo5bit program)) =
      .ok (p2wpkhShape.build program) := by
  have hwp := @witnessProgram_encoded .bech32 0 program (by decide) (by omega)
  have hp2wsh : decodeP2wshAddr (encoded hrpMainnet .bech32 (0 :: bytesTo5bit program)) =
      .error .unsupportedProgram := by
    rw [decodeP2wshAddr, hwp, ok_bind]
    dsimp only
    rw [reject_false _ (by decide), ok_bind, reject_true _ (by omega)]
    rfl
  have hsegwit : decodeSegwitAddr (encoded hrpMainnet .bech32 (0 :: bytesTo5bit program)) =
      .ok ⟨0, program⟩ := by
    rw [decodeSegwitAddr, hwp, ok_bind]
    simp [h]
  rw [makeLockScript, if_pos (isBech32_encoded _ _), hp2wsh, hsegwit]
  exact makeLock_length h

/-- A thirty-two-byte version-zero program. -/
theorem makeLockScript_p2wsh {program : Bytes} (h : program.length = 32) :
    makeLockScript P (encoded hrpMainnet .bech32 (0 :: bytesTo5bit program)) =
      .ok (p2wshShape.build program) := by
  have hwp := @witnessProgram_encoded .bech32 0 program (by decide) (by omega)
  have hp2wsh : decodeP2wshAddr (encoded hrpMainnet .bech32 (0 :: bytesTo5bit program)) =
      .ok ⟨0, program⟩ := by
    rw [decodeP2wshAddr, hwp, ok_bind]
    simp [h]
  rw [makeLockScript, if_pos (isBech32_encoded _ _), hp2wsh]
  exact makeLock_length h

/-- A thirty-two-byte version-one program. -/
theorem makeLockScript_p2tr {program : Bytes} (h : program.length = 32) :
    makeLockScript P (encoded hrpMainnet .bech32m (1 :: bytesTo5bit program)) =
      .ok (p2trShape.build program) := by
  have hwp := @witnessProgram_encoded .bech32m 1 program (by decide) (by omega)
  have hp2wsh : decodeP2wshAddr (encoded hrpMainnet .bech32m (1 :: bytesTo5bit program)) =
      .error .unsupportedProgram := by
    rw [decodeP2wshAddr, hwp, ok_bind]
    dsimp only
    rw [reject_true _ (by decide)]
    rfl
  have hsegwit : decodeSegwitAddr (encoded hrpMainnet .bech32m (1 :: bytesTo5bit program)) =
      .ok ⟨1, program⟩ := by
    rw [decodeSegwitAddr, hwp, ok_bind]
    simp [h]
  rw [makeLockScript, if_pos (isBech32_encoded _ _), hp2wsh, hsegwit]
  exact makeLock_length h

theorem makeLockScript_base58 {address : Str} {version : UInt8} {dsthash : Bytes}
    (h : isBech32 address = false)
    (hdecode : base58CheckDecode P address = .ok (version :: dsthash)) :
    makeLockScript P address =
      if version = prefixP2pkh then
        cScript [.op opDup, .op opHash160, .data dsthash, .op opEqualverify, .op opChecksig]
      else if version = prefixP2sh then cScript [.op opHash160, .data dsthash, .op opEqual]
      else .error (.valueError "address not supported") := by
  rw [makeLockScript, h, unpackAddress, hdecode]
  rfl

theorem formOfScript_p2pkh {hash : Bytes} (h : hash.length = 20) :
    formOfScript (p2pkhShape.build hash) = some (.legacy hash) := by
  rw [formOfScript_eq, if_pos (p2pkhShape.build_fits hash h), p2pkhShape.payload_build hash h]

theorem formOfScript_p2wpkh {hash : Bytes} (h : hash.length = 20) :
    formOfScript (p2wpkhShape.build hash) = some (.p2wpkh hash) := by
  have hfits := p2wpkhShape.build_fits hash h
  have hother : ¬ p2pkhShape.Fits (p2wpkhShape.build hash) := fun hf =>
    absurd (standardShapes_unique (by decide) (by decide) hf hfits) (by decide)
  rw [formOfScript_eq, if_neg hother, if_pos hfits, p2wpkhShape.payload_build hash h]

theorem formOfScript_p2tr {key : Bytes} (h : key.length = 32) :
    formOfScript (p2trShape.build key) = some (.p2tr key) := by
  rw [(forms_of_p2tr (p2trShape.build_fits key h)).1, p2trShape.payload_build key h]

theorem taprootOutputKey_length (hP : P.Lawful) {xonly key : Bytes}
    (h : taprootOutputKey P xonly = .ok key) : key.length = 32 := by
  obtain ⟨-, h⟩ := reject_bind_eq_ok.mp h
  obtain ⟨p, -, h⟩ := bind_eq_ok.mp h
  obtain ⟨q, -, h⟩ := bind_eq_ok.mp h
  cases h
  simp [slice, hP.format_length]

theorem tapscriptOutputKey_length (hP : P.Lawful) {xonly leafHash key : Bytes}
    (h : tapscriptOutputKey P xonly leafHash = .ok key) : key.length = 32 := by
  obtain ⟨⟨p, t⟩, -, h⟩ := bind_eq_ok.mp h
  obtain ⟨q, -, h⟩ := bind_eq_ok.mp h
  cases h
  simp [slice, hP.format_length]

variable (P) in
/-- The address pays to a script that is the key's own, as the signer tells it. -/
def PaysToKey (address : Str) (pubkey : Bytes) (form : Form) (lock : Bytes) : Prop :=
  makeLockScript P address = .ok lock ∧ ownForm P lock pubkey = .ok (some form)

variable (P) in
/-- The address pays to the script that the quorum is spent from. -/
def PaysToQuorum (address : Str) (form : MsForm) (redeem : Bytes) : Prop :=
  ∃ lock, makeLockScript P address = .ok lock ∧ msQuorumLockScript P form redeem = .ok lock

theorem pubkey2addr_pays (hP : P.Lawful) (hb : StandardBase58 P) (pubkey : Bytes) :
    PaysToKey P (pubkey2addr P pubkey) pubkey (.legacy (hash160 P pubkey))
      (p2pkhShape.build (hash160 P pubkey)) := by
  have hlen := hash160_length P hP pubkey
  constructor
  · rw [pubkey2addr, makeLockScript_base58 (isBech32_p2pkh hb _) (base58CheckDecode_encode hP hb _),
      if_pos rfl, cScript_p2pkh (by omega), hlen]
    rfl
  · rw [ownForm, formOfScript_p2pkh hlen]
    exact congrArg Except.ok (if_neg (not_not.mpr rfl))

theorem pubkey2segwitAddr_pays (hP : P.Lawful) {pubkey : Bytes} (h : pubkey.length = 33) :
    ∃ address, pubkey2segwitAddr P pubkey = .ok address ∧
      PaysToKey P address pubkey (.p2wpkh (hash160 P pubkey))
        (p2wpkhShape.build (hash160 P pubkey)) := by
  have hlen := hash160_length P hP pubkey
  refine ⟨_, ?_, makeLockScript_p2wpkh hlen, ?_⟩
  · rw [pubkey2segwitAddr, reject_false _ (not_not.mpr h), ok_bind,
      segwitAddr_eq .bech32 (by decide) (by omega)]
  · rw [ownForm, formOfScript_p2wpkh hlen]
    exact congrArg Except.ok (if_neg (not_not.mpr rfl))

theorem pubkey2taprootAddr_pays (hP : P.Lawful) {pubkey : Bytes} {address : Str}
    (h : pubkey2taprootAddr P pubkey = .ok address) :
    ∃ key, taprootOutputKey P (slice pubkey 1 33) = .ok key ∧
      PaysToKey P address pubkey (.p2tr key) (p2trShape.build key) := by
  obtain ⟨-, h⟩ := reject_bind_eq_ok.mp h
  obtain ⟨key, hkey, h⟩ := bind_eq_ok.mp h
  have hlen := taprootOutputKey_length hP hkey
  rw [segwitAddr_eq .bech32m (by decide) (by omega)] at h
  cases h
  refine ⟨key, hkey, makeLockScript_p2tr hlen, ?_⟩
  rw [ownForm, formOfScript_p2tr hlen]
  refine bind_eq_ok.mpr ⟨key, hkey, ?_⟩
  exact congrArg Except.ok (if_neg (not_not.mpr rfl))

theorem redeem2p2shAddr_pays (hP : P.Lawful) (hb : StandardBase58 P) (redeem : Bytes) :
    PaysToQuorum P (redeem2p2shAddr P redeem) .p2sh redeem := by
  have hlen := hash160_length P hP redeem
  refine ⟨p2shShape.build (hash160 P redeem), ?_, makeLock_length hlen⟩
  rw [redeem2p2shAddr, makeLockScript_base58 (isBech32_p2sh hP hb hlen)
    (base58CheckDecode_encode hP hb _), if_neg (by decide), if_pos rfl, cScript_p2sh (by omega), hlen]
  rfl

theorem redeem2p2wshAddr_pays (hP : P.Lawful) (redeem : Bytes) :
    ∃ address, redeem2p2wshAddr P redeem = .ok address ∧ PaysToQuorum P address .p2wsh redeem := by
  have hlen := hP.sha256_length redeem
  exact ⟨_, segwitAddr_eq .bech32 (by decide) (by omega), _, makeLockScript_p2wsh hlen,
    makeLock_length hlen⟩

theorem redeem2taprootAddr_pays (hP : P.Lawful) {script : Bytes} {address : Str}
    (h : redeem2taprootAddr P script = .ok address) : PaysToQuorum P address .p2tr script := by
  obtain ⟨key, hkey, h⟩ := bind_eq_ok.mp h
  have hlen := tapscriptOutputKey_length hP hkey
  rw [segwitAddr_eq .bech32m (by decide) (by omega)] at h
  cases h
  exact ⟨_, makeLockScript_p2tr hlen, bind_eq_ok.mpr ⟨key, hkey, makeLock_length hlen⟩⟩

/-- Every address that is built pays to the script that its key or script spends from. -/
theorem makeLockScript_built (hP : P.Lawful) (hb : StandardBase58 P) :
    (∀ pubkey : Bytes, pubkey.length = 33 →
      PaysToKey P (pubkey2addr P pubkey) pubkey (.legacy (hash160 P pubkey))
          (p2pkhShape.build (hash160 P pubkey)) ∧
        (∃ address, pubkey2segwitAddr P pubkey = .ok address ∧
          PaysToKey P address pubkey (.p2wpkh (hash160 P pubkey))
            (p2wpkhShape.build (hash160 P pubkey))) ∧
        ∀ address, pubkey2taprootAddr P pubkey = .ok address →
          ∃ key, taprootOutputKey P (slice pubkey 1 33) = .ok key ∧
            PaysToKey P address pubkey (.p2tr key) (p2trShape.build key)) ∧
    ∀ script : Bytes,
      PaysToQuorum P (redeem2p2shAddr P script) .p2sh script ∧
        (∃ address, redeem2p2wshAddr P script = .ok address ∧
          PaysToQuorum P address .p2wsh script) ∧
        ∀ address, redeem2taprootAddr P script = .ok address →
          PaysToQuorum P address .p2tr script :=
  ⟨fun pubkey h => ⟨pubkey2addr_pays hP hb pubkey, pubkey2segwitAddr_pays hP h,
      fun _ => pubkey2taprootAddr_pays hP⟩,
    fun script => ⟨redeem2p2shAddr_pays hP hb script, redeem2p2wshAddr_pays hP script,
      fun _ => redeem2taprootAddr_pays hP⟩⟩

def base58StandIn : Primitives := withBase58 standIn

def samplePubkey : Bytes := 0x02 :: List.replicate 32 0x07

def sampleScript : Bytes := [0x51]

theorem makeLockScript_built_standIn :
    PaysToKey base58StandIn (pubkey2addr base58StandIn samplePubkey) samplePubkey
        (.legacy (hash160 base58StandIn samplePubkey))
        (p2pkhShape.build (hash160 base58StandIn samplePubkey)) ∧
      (∃ address, pubkey2segwitAddr base58StandIn samplePubkey = .ok address ∧
        PaysToKey base58StandIn address samplePubkey
          (.p2wpkh (hash160 base58StandIn samplePubkey))
          (p2wpkhShape.build (hash160 base58StandIn samplePubkey))) ∧
      (∃ address key, pubkey2taprootAddr base58StandIn samplePubkey = .ok address ∧
        PaysToKey base58StandIn address samplePubkey (.p2tr key) (p2trShape.build key)) ∧
      PaysToQuorum base58StandIn (redeem2p2shAddr base58StandIn sampleScript) .p2sh sampleScript ∧
      (∃ address, redeem2p2wshAddr base58StandIn sampleScript = .ok address ∧
        PaysToQuorum base58StandIn address .p2wsh sampleScript) ∧
      ∃ address, redeem2taprootAddr base58StandIn sampleScript = .ok address ∧
        PaysToQuorum base58StandIn address .p2tr sampleScript := by
  have htaproot : (pubkey2taprootAddr base58StandIn samplePubkey).toBool = true := by
    decide +kernel
  have htapscript : (redeem2taprootAddr base58StandIn sampleScript).toBool = true := by
    decide +kernel
  obtain ⟨address, haddress⟩ := succeeds_of_toBool htaproot
  obtain ⟨address', haddress'⟩ := succeeds_of_toBool htapscript
  obtain ⟨hkeys, hscripts⟩ :=
    makeLockScript_built (withBase58_lawful standIn_lawful) withBase58_standard
  obtain ⟨hp2pkh, hp2wpkh, hp2trKey⟩ := hkeys samplePubkey rfl
  obtain ⟨hp2sh, hp2wsh, hp2trScript⟩ := hscripts sampleScript
  obtain ⟨key, -, hpays⟩ := hp2trKey address haddress
  exact ⟨hp2pkh, hp2wpkh, ⟨address, key, haddress, hpays⟩, hp2sh, hp2wsh, address', haddress',
    hp2trScript address' haddress'⟩

end Yubtc.Addresses
