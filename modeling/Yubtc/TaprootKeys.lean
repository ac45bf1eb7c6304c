import Yubtc.Script
import Yubtc.Lib.XOnly

/-!
# Taproot keys

The signer tweaks a scalar, the address tweaks a point, and a leaf is committed to by a point and
opened by a control block. The curve package is read as arithmetic in a group, and the two codings
of the tweak agree there.
-/
namespace Yubtc.TaprootKeys

open LittleEndian Wire Errors ExceptRules Crypto Script

variable {E : Type} [AddCommGroup E]

/-- The curve package computes in the group: keys are its non-zero points, encodings carry the
coordinate with a parity byte, and scalars outside the range are refused. -/
structure Implements (P : Primitives) (C : XOnly.Curve E Bytes) (point : P.PublicKey → E) :
    Prop where
  order_eq : C.order = secp256k1N
  x_length : ∀ p, (C.x p).length = 32
  point_ne_zero : ∀ key, point key ≠ 0
  format_even : ∀ key, C.IsEven (point key) → P.format key = 0x02 :: C.x (point key)
  format_odd : ∀ key, ¬ C.IsEven (point key) → P.format key = 0x03 :: C.x (point key)
  parse_even : ∀ p, p ≠ 0 → C.IsEven p →
    ∃ key, P.parsePublicKey (0x02 :: C.x p) = some key ∧ point key = p
  parse_spec : ∀ xonly key, P.parsePublicKey (0x02 :: xonly) = some key →
    C.IsEven (point key) ∧ C.x (point key) = xonly
  privateKey_ok : ∀ d, 0 < d → d < secp256k1N →
    ∃ key, P.privateKey (toBytesBig 32 d) = some key ∧ P.secret key = toBytesBig 32 d
  privateKey_zero : P.privateKey (toBytesBig 32 0) = none
  publicKey_eq : ∀ key, point (P.publicKey key) = fromBytesBig (P.secret key) • C.gen
  combine_ok : ∀ p q, point p + point q ≠ 0 →
    ∃ r, P.combine p q = some r ∧ point r = point p + point q
  combine_zero : ∀ p q, point p + point q = 0 → P.combine p q = none

theorem scalar_toBytesBig {n : Nat} (h : n < secp256k1N) :
    fromBytesBig (toBytesBig 32 n) = n := fromBytesBig_toBytesBig (h.trans (by decide))

/-- The integer that tweaks an internal key. -/
def tweakInt (P : Primitives) (data : Bytes) : Nat :=
  fromBytesBig (taggedHash P (ascii "TapTweak") data)

namespace Implements

variable {P : Primitives} {C : XOnly.Curve E Bytes} {point : P.PublicKey → E}
  (h : Implements P C point)

include h

theorem slice_format (key : P.PublicKey) : slice (P.format key) 1 33 = C.x (point key) := by
  have hx : (C.x (point key)).take 32 = C.x (point key) :=
    List.take_of_length_le (h.x_length _).le
  by_cases he : C.IsEven (point key)
  · rw [h.format_even key he]
    exact hx
  · rw [h.format_odd key he]
    exact hx

/-- The first byte tells the parity. -/
theorem headD_format (key : P.PublicKey) :
    (C.IsEven (point key) ∧ (P.format key).headD 0 = 0x02) ∨
      (¬ C.IsEven (point key) ∧ (P.format key).headD 0 = 0x03) := by
  by_cases he : C.IsEven (point key)
  · exact .inl ⟨he, by rw [h.format_even key he]; rfl⟩
  · exact .inr ⟨he, by rw [h.format_odd key he]; rfl⟩

/-- A tweak in the range that does not cancel the point. -/
theorem tweakPoint_ok {p : P.PublicKey} {t : Nat} (ht : 0 < t) (hlt : t < secp256k1N)
    (hne : point p + t • C.gen ≠ 0) :
    ∃ q, tweakPoint P p t = .ok q ∧ point q = point p + t • C.gen := by
  obtain ⟨key, hkey, hsecret⟩ := h.privateKey_ok t ht hlt
  have hpub : point (P.publicKey key) = t • C.gen := by
    rw [h.publicKey_eq, hsecret, scalar_toBytesBig hlt]
  rw [← hpub] at hne ⊢
  obtain ⟨q, hq, hpoint⟩ := h.combine_ok p (P.publicKey key) hne
  refine ⟨q, ?_, hpoint⟩
  rw [tweakPoint, hkey, Option.bind_some, hq, orElseThrow_some]

/-- A tweak that gives a point gives the sum. -/
theorem tweakPoint_spec {p q : P.PublicKey} {t : Nat} (hlt : t < secp256k1N)
    (hq : tweakPoint P p t = .ok q) :
    point q = point p + t • C.gen := by
  have hpos : 0 < t := by
    rcases Nat.eq_zero_or_pos t with rfl | hpos
    · rw [tweakPoint, h.privateKey_zero] at hq
      cases hq
    · exact hpos
  have hne : point p + t • C.gen ≠ 0 := by
    intro hzero
    obtain ⟨key, hkey, hsecret⟩ := h.privateKey_ok t hpos hlt
    have hpub : point (P.publicKey key) = t • C.gen := by
      rw [h.publicKey_eq, hsecret, scalar_toBytesBig hlt]
    rw [← hpub] at hzero
    rw [tweakPoint, hkey, Option.bind_some, h.combine_zero _ _ hzero] at hq
    cases hq
  obtain ⟨q', hq', hpoint⟩ := h.tweakPoint_ok hpos hlt hne
  cases hq.symm.trans hq'
  exact hpoint

theorem tweakPoint_zero (p : P.PublicKey) :
    tweakPoint P p 0 =
      .error (.tapTweak "taproot tweak failed: output key Q is the point at infinity (p ~ 2^-128)") := by
  rw [tweakPoint, h.privateKey_zero]
  rfl

theorem liftX_even {p : E} (hp : p ≠ 0) (he : C.IsEven p) :
    ∃ key, liftX P (C.x p) = .ok key ∧ point key = p := by
  obtain ⟨key, hkey, hpoint⟩ := h.parse_even p hp he
  refine ⟨key, ?_, hpoint⟩
  rw [liftX, hkey, orElseThrow_some]

theorem liftX_spec {xonly : Bytes} {key : P.PublicKey} (hkey : liftX P xonly = .ok key) :
    C.IsEven (point key) ∧ C.x (point key) = xonly :=
  h.parse_spec xonly key (orElseThrow_eq_ok.mp hkey)

/-- The scalar that signs: the even scalar plus the tweak of the coordinate. -/
theorem taprootTweakedScalar_eq {key : P.PrivateKey} {d : Nat} (hlt : d < secp256k1N)
    (hsecret : P.secret key = toBytesBig 32 d) :
    taprootTweakedScalar P key =
      (C.evenScalar d + tweakInt P (C.x (d • C.gen)) % secp256k1N) % C.order := by
  have hpub : point (P.publicKey key) = d • C.gen := by
    rw [h.publicKey_eq, hsecret, scalar_toBytesBig hlt]
  have hscalar : (if (privkey2pubkey P key).headD 0 = 0x03 then secp256k1N - d else d) =
      C.evenScalar d := by
    rw [XOnly.Curve.evenScalar, ← hpub, h.order_eq]
    rcases h.headD_format (P.publicKey key) with ⟨he, hhead⟩ | ⟨ho, hhead⟩
    · rw [privkey2pubkey, hhead, if_pos he, if_neg (by decide)]
    · rw [privkey2pubkey, hhead, if_neg ho, if_pos rfl]
  rw [taprootTweakedScalar, hsecret, scalar_toBytesBig hlt, hscalar, privkey2pubkey,
    h.slice_format, hpub, h.order_eq]
  rfl

/-- The output key of a key's coordinate, by its tweak. -/
theorem taprootOutputKey_eq {p : E} (hp : p ≠ 0) (he : C.IsEven p) :
    ∃ key, point key = p ∧
      taprootOutputKey P (C.x p) = tweakOutputKey P key (tweakInt P (C.x p) % secp256k1N) := by
  obtain ⟨key, hkey, hpoint⟩ := h.liftX_even hp he
  refine ⟨key, hpoint, ?_⟩
  rw [taprootOutputKey, reject_false _ (not_not.mpr (h.x_length p)), ok_bind, hkey, ok_bind]
  rfl

/-- The point that a coordinate stands for is the even scalar's. -/
theorem evenScalar_point {d : Nat} (hpos : 0 < d) (hlt : d < secp256k1N) :
    C.evenScalar d • C.gen ≠ 0 ∧ C.IsEven (C.evenScalar d • C.gen) ∧
      C.x (C.evenScalar d • C.gen) = C.x (d • C.gen) := by
  have hlt' : d < C.order := hlt.trans_eq h.order_eq.symm
  have hlift := C.lift_evenScalar hpos hlt'
  refine ⟨?_, hlift.1, C.x_lift hlift⟩
  have hne := C.nsmul_ne_zero hpos hlt'
  rcases hlift.2 with heq | heq
  · rwa [heq]
  · rwa [heq, neg_ne_zero]

/-- The key that signs is the key that the address commits to, in every combination of parities.
A tweak that is zero modulo the order is refused. -/
theorem keyPath {d : Nat} (hpos : 0 < d) (hlt : d < secp256k1N) {key : P.PrivateKey}
    (hkey : P.privateKey (toBytesBig 32 d) = some key)
    (htweak : tweakInt P (C.x (d • C.gen)) % secp256k1N ≠ 0)
    (hscalar : taprootTweakedScalar P key ≠ 0) :
    taprootOutputKey P (C.x (d • C.gen)) = .ok (C.x (taprootTweakedScalar P key • C.gen)) := by
  obtain ⟨hne, heven, hx⟩ := h.evenScalar_point hpos hlt
  obtain ⟨key', hkey', hsecret⟩ := h.privateKey_ok d hpos hlt
  cases hkey.symm.trans hkey'
  have hq := h.taprootTweakedScalar_eq hlt hsecret
  have hpoint : taprootTweakedScalar P key • C.gen =
      C.evenScalar d • C.gen + (tweakInt P (C.x (d • C.gen)) % secp256k1N) • C.gen := by
    rw [hq, C.tweak_nsmul]
  have hsum : C.evenScalar d • C.gen + (tweakInt P (C.x (d • C.gen)) % secp256k1N) • C.gen ≠ 0 := by
    rw [← hpoint]
    refine C.nsmul_ne_zero (Nat.pos_of_ne_zero hscalar) ?_
    rw [hq]
    exact Nat.mod_lt _ (hpos.trans (hlt.trans_eq h.order_eq.symm))
  obtain ⟨internal, hinternal, hout⟩ := h.taprootOutputKey_eq hne heven
  rw [hx] at hout
  rw [← hinternal] at hsum
  obtain ⟨q, hq', hqpoint⟩ := h.tweakPoint_ok (Nat.pos_of_ne_zero htweak)
    (Nat.mod_lt _ (by decide)) hsum
  rw [hout, tweakOutputKey, hq', ok_bind, pure_eq_ok, h.slice_format, hqpoint, hpoint, hinternal]

/-- A refused tweak: the scalar is zero modulo the order. -/
theorem keyPath_zero {d : Nat} (hpos : 0 < d) (hlt : d < secp256k1N)
    (htweak : tweakInt P (C.x (d • C.gen)) % secp256k1N = 0) :
    taprootOutputKey P (C.x (d • C.gen)) =
      .error (.tapTweak "taproot tweak failed: output key Q is the point at infinity (p ~ 2^-128)") := by
  obtain ⟨hne, heven, hx⟩ := h.evenScalar_point hpos hlt
  obtain ⟨internal, -, hout⟩ := h.taprootOutputKey_eq hne heven
  rw [hx, htweak, tweakOutputKey, h.tweakPoint_zero, error_bind] at hout
  exact hout

/-- The signature is made with the key of the tweaked scalar. -/
theorem taprootSignSighash_eq {key : P.PrivateKey} (hscalar : taprootTweakedScalar P key ≠ 0)
    (sighash : Bytes) :
    ∃ signer, taprootSignSighash P key sighash = .ok (P.signSchnorr signer sighash) ∧
      slice (privkey2pubkey P signer) 1 33 = C.x (taprootTweakedScalar P key • C.gen) := by
  have hlt : taprootTweakedScalar P key < secp256k1N := Nat.mod_lt _ (by decide)
  obtain ⟨signer, hsigner, hsecret⟩ := h.privateKey_ok _ (Nat.pos_of_ne_zero hscalar) hlt
  refine ⟨signer, ?_, ?_⟩
  · rw [taprootSignSighash, hsigner]
  · rw [privkey2pubkey, h.slice_format, h.publicKey_eq, hsecret, scalar_toBytesBig hlt]

end Implements

/-- For every private scalar and both parities of its point and of the tweaked point: the address
of the public key commits to the point of the tweaked scalar, which is the point of the key the
wallet signs with. -/
theorem taproot_keys_match {P : Primitives} {C : XOnly.Curve E Bytes} {point : P.PublicKey → E}
    (h : Implements P C point) {d : Nat} (hpos : 0 < d) (hlt : d < secp256k1N)
    {key : P.PrivateKey} (hkey : P.privateKey (toBytesBig 32 d) = some key)
    (htweak : tweakInt P (C.x (d • C.gen)) % secp256k1N ≠ 0)
    (hscalar : taprootTweakedScalar P key ≠ 0) :
    taprootOutputKey P (C.x (d • C.gen)) = .ok (C.x (taprootTweakedScalar P key • C.gen)) ∧
      ∀ sighash, ∃ signer, taprootSignSighash P key sighash = .ok (P.signSchnorr signer sighash) ∧
        taprootOutputKey P (slice (privkey2pubkey P key) 1 33) =
          .ok (slice (privkey2pubkey P signer) 1 33) := by
  have hout := h.keyPath hpos hlt hkey htweak hscalar
  refine ⟨hout, fun sighash => ?_⟩
  obtain ⟨key', hkey', hsecret⟩ := h.privateKey_ok d hpos hlt
  cases hkey.symm.trans hkey'
  obtain ⟨signer, hsign, hsigner⟩ := h.taprootSignSighash_eq hscalar sighash
  refine ⟨signer, hsign, ?_⟩
  rw [privkey2pubkey, h.slice_format, h.publicKey_eq, hsecret, scalar_toBytesBig hlt, hout,
    hsigner]

/-- The tweak a verifier computes from a script and the control block that comes with it: the leaf
version is the first byte without its low bit, the internal key is the rest. -/
def verifierTweak (P : Primitives) (script controlBlock : Bytes) : Nat :=
  let leafVersion := controlBlock.headD 0 &&& 0xfe
  let leaf := taggedHash P (ascii "TapLeaf") (leafVersion :: compactSize script.length ++ script)
  fromBytesBig (taggedHash P (ascii "TapTweak") (controlBlock.drop 1 ++ leaf))

/-- The rules of script-path verification for a tree of one leaf: the control block gives the leaf
version, the internal key and the parity of the output point. -/
structure ScriptPathVerifies (P : Primitives) (C : XOnly.Curve E Bytes)
    (script controlBlock outputKey : Bytes) : Prop where
  length_eq : controlBlock.length = 33
  leafVersion : controlBlock.headD 0 &&& 0xfe = 0xc0
  tweak_lt : verifierTweak P script controlBlock < secp256k1N
  commits : ∃ p q, p ≠ 0 ∧ C.IsEven p ∧ C.x p = controlBlock.drop 1 ∧
    q = p + verifierTweak P script controlBlock • C.gen ∧ q ≠ 0 ∧ C.x q = outputKey ∧
    (C.IsEven q ↔ controlBlock.headD 0 &&& 1 = 0)

/-- What the checks shared by the two functions establish. -/
theorem scriptTweak_spec {P : Primitives} {internal leafHash : Bytes} {p : P.PublicKey} {t : Nat}
    (h : scriptTweak P internal leafHash = .ok (p, t)) :
    internal.length = 32 ∧ liftX P internal = .ok p ∧
      t = tweakInt P (internal ++ leafHash) ∧ t < secp256k1N := by
  obtain ⟨hlen, h⟩ := reject_bind_eq_ok.mp h
  obtain ⟨-, h⟩ := reject_bind_eq_ok.mp h
  obtain ⟨p', hp, h⟩ := bind_eq_ok.mp h
  obtain ⟨t', ht, h⟩ := bind_eq_ok.mp h
  obtain ⟨hlt, ht⟩ := reject_bind_eq_ok.mp ht
  cases h
  cases ht
  exact ⟨not_not.mp hlen, hp, rfl, Nat.not_le.mp hlt⟩

namespace Implements

variable {P : Primitives} {C : XOnly.Curve E Bytes} {point : P.PublicKey → E}

/-- Both are made for every even point, leaf hash and tweak in the range that does not cancel the
point. -/
theorem tapscript_ok (h : Implements P C point) {p : E} (hp : p ≠ 0) (he : C.IsEven p)
    {leafHash : Bytes} (hlen : leafHash.length = 32) (hpos : 0 < tweakInt P (C.x p ++ leafHash))
    (hlt : tweakInt P (C.x p ++ leafHash) < secp256k1N)
    (hne : p + tweakInt P (C.x p ++ leafHash) • C.gen ≠ 0) :
    (∃ outputKey, tapscriptOutputKey P (C.x p) leafHash = .ok outputKey) ∧
      ∃ cb, tapscriptControlBlock P (C.x p) leafHash = .ok cb := by
  obtain ⟨key, hkey, rfl⟩ := h.liftX_even hp he
  obtain ⟨q, hq, -⟩ := h.tweakPoint_ok hpos hlt hne
  have htweak : scriptTweak P (C.x (point key)) leafHash =
      .ok (key, tweakInt P (C.x (point key) ++ leafHash)) := by
    rw [scriptTweak, reject_false _ (not_not.mpr (h.x_length _)), ok_bind,
      reject_false _ (not_not.mpr hlen), ok_bind, hkey, ok_bind, tweakScriptScalarFromDigest]
    exact congrArg (· >>= fun t => Except.ok (key, t))
      (congrArg (· >>= fun _ => Except.ok _) (reject_false _ (Nat.not_le.mpr hlt)))
  constructor
  · exact ⟨_, bind_eq_ok.mpr ⟨_, htweak, bind_eq_ok.mpr ⟨q, hq, rfl⟩⟩⟩
  · exact ⟨_, bind_eq_ok.mpr ⟨_, htweak, bind_eq_ok.mpr ⟨q, hq, rfl⟩⟩⟩

end Implements

/-- The first byte of the control block: the leaf version, and the parity in the low bit. -/
theorem controlByte (parity : UInt8) (h : parity = 0 ∨ parity = 1) :
    (tapscriptLeafVersion ||| parity) &&& 0xfe = 0xc0 ∧
      (tapscriptLeafVersion ||| parity) &&& 1 = parity := by
  rcases h with rfl | rfl
  · decide
  · decide

/-- Whenever the output key and the control block of a leaf are made, the leaf is opened by the
control block against the output key. -/
theorem tapscript_commitment_verifies {P : Primitives} {C : XOnly.Curve E Bytes}
    {point : P.PublicKey → E} (h : Implements P C point) {internal script outputKey cb : Bytes}
    (hout : tapscriptOutputKey P internal (tapscriptLeafHash P script) = .ok outputKey)
    (hcb : tapscriptControlBlock P internal (tapscriptLeafHash P script) = .ok cb) :
    cb.drop 1 = internal ∧ ScriptPathVerifies P C script cb outputKey := by
  obtain ⟨⟨p, t⟩, htweak, hcb⟩ := bind_eq_ok.mp hcb
  obtain ⟨q, hq, hcb⟩ := bind_eq_ok.mp hcb
  cases hcb
  obtain ⟨hlen, hlift, ht, hlt⟩ := scriptTweak_spec htweak
  obtain ⟨heven, hx⟩ := h.liftX_spec hlift
  have hpoint := h.tweakPoint_spec hlt hq
  have hkey : C.x (point q) = outputKey := by
    rw [tapscriptOutputKey, htweak, ok_bind] at hout
    obtain ⟨q', hq', hout⟩ := bind_eq_ok.mp hout
    cases hq.symm.trans hq'
    rw [← h.slice_format]
    exact Except.ok.inj hout
  have hparity : (P.format q).headD 0 &&& 1 = 0 ∧ C.IsEven (point q) ∨
      (P.format q).headD 0 &&& 1 = 1 ∧ ¬ C.IsEven (point q) := by
    rcases h.headD_format q with ⟨he, hhead⟩ | ⟨ho, hhead⟩
    · exact .inl ⟨by rw [hhead]; rfl, he⟩
    · exact .inr ⟨by rw [hhead]; rfl, ho⟩
  obtain ⟨hversion, hlow⟩ := controlByte ((P.format q).headD 0 &&& 1)
    (hparity.imp And.left And.left)
  have hverifier : verifierTweak P script
      ((tapscriptLeafVersion ||| ((P.format q).headD 0 &&& 1)) :: internal) = t := by
    rw [verifierTweak, List.headD_cons, hversion, ht]
    rfl
  constructor
  · rfl
  · constructor
    · exact congrArg Nat.succ hlen
    · exact hversion
    · exact hverifier.trans_lt hlt
    · refine ⟨point p, point q, h.point_ne_zero p, heven, hx, ?_, h.point_ne_zero q, hkey, ?_⟩
      · rw [hverifier, hpoint]
      · rw [List.headD_cons, hlow]
        rcases hparity with ⟨hbit, he⟩ | ⟨hbit, ho⟩
        · exact iff_of_true he hbit
        · exact iff_of_false ho (by rw [hbit]; decide)

section Residues

variable {n : Nat} [NeZero n]

theorem val_add_val_neg {a : ZMod n} (h : a ≠ 0) : a.val + (-a).val = n := by
  have : NeZero a := ⟨h⟩
  rw [ZMod.val_neg_of_ne_zero]
  have hlt := a.val_lt
  omega

def residueX (a : ZMod n) : Bytes := toBytesBig 32 (min a.val (-a).val)

/-- The residues modulo an odd order, each with the smaller of itself and its negative for a
coordinate. -/
def residueCurve (hodd : n % 2 = 1) : XOnly.Curve (ZMod n) Bytes where
  order := n
  gen := 1
  addOrderOf_gen := ZMod.addOrderOf_one n
  x := residueX
  IsEven a := a.val < (-a).val
  x_neg a := by rw [residueX, residueX, neg_neg, min_comm]
  even_iff a h := by
    have hsum := val_add_val_neg h
    rw [neg_neg]
    omega

/-- A private key is a scalar in the range, a public key is a non-zero residue. -/
def Scalar (n : Nat) : Type := { d : Nat // 0 < d ∧ d < n }

def Point (n : Nat) : Type := { a : ZMod n // a ≠ 0 }

def Scalar.read (n : Nat) (secret : Bytes) : Option (Scalar n) :=
  if h : 0 < fromBytesBig secret ∧ fromBytesBig secret < n then some ⟨_, h⟩ else none

def Scalar.point (key : Scalar n) : Point n :=
  ⟨(key.val : ZMod n), by
    rw [Ne, ZMod.natCast_eq_zero_iff]
    exact Nat.not_dvd_of_pos_of_lt key.property.1 key.property.2⟩

/-- The residue a coordinate is of, when it is the even one. -/
def Point.ofX (xonly : Bytes) : Option (Point n) :=
  let a : ZMod n := (fromBytesBig xonly : Nat)
  if h : a ≠ 0 ∧ fromBytesBig xonly < n ∧ residueX a = xonly then some ⟨a, h.1⟩ else none

def Point.add (a b : Point n) : Option (Point n) :=
  if h : a.val + b.val ≠ 0 then some ⟨_, h⟩ else none

def Point.format (a : Point n) : Bytes :=
  (if a.val.val < (-a.val).val then 0x02 else 0x03) :: residueX a.val

def residuePrimitives (n : Nat) [NeZero n] (digest : Bytes → Bytes) : Primitives :=
  { standIn with
    sha256 := digest
    PrivateKey := Scalar n
    PublicKey := Point n
    privateKey := Scalar.read n
    secret := fun key => toBytesBig 32 key.val
    publicKey := Scalar.point
    parsePublicKey := fun data => if data.headD 0 = 0x02 then Point.ofX (data.drop 1) else none
    combine := Point.add
    format := Point.format
    sign := fun key => standIn.sign key.val
    signSchnorr := fun key => standIn.signSchnorr key.val }

variable (hodd : n % 2 = 1) (hn : n ≤ secp256k1N)

include hn in
theorem read_residueX {a : ZMod n} (h : a.val < (-a).val) : fromBytesBig (residueX a) = a.val := by
  rw [residueX, min_eq_left h.le, scalar_toBytesBig (a.val_lt.trans_le hn)]

include hn in
theorem Point.ofX_even {a : ZMod n} (ha : a ≠ 0) (h : a.val < (-a).val) :
    ∃ key, Point.ofX (residueX a) = some key ∧ key.val = a := by
  have hread := read_residueX hn h
  have hcast : ((fromBytesBig (residueX a) : Nat) : ZMod n) = a := by
    rw [hread, ZMod.natCast_zmod_val]
  have hall : ((fromBytesBig (residueX a) : Nat) : ZMod n) ≠ 0 ∧ fromBytesBig (residueX a) < n ∧
      residueX ((fromBytesBig (residueX a) : Nat) : ZMod n) = residueX a :=
    ⟨hcast.symm ▸ ha, hread.trans_lt a.val_lt, congrArg residueX hcast⟩
  refine ⟨⟨_, hall.1⟩, ?_, hcast⟩
  rw [Point.ofX, dif_pos hall]

include hodd hn in
theorem Point.ofX_spec {xonly : Bytes} {key : Point n} (h : Point.ofX xonly = some key) :
    key.val.val < (-key.val).val ∧ residueX key.val = xonly := by
  obtain ⟨⟨hne, hlt, hx⟩, heq⟩ := Option.dite_none_right_eq_some.mp h
  cases heq
  refine ⟨?_, hx⟩
  -- The coordinate is the smaller of the two, and the bytes read back as the residue itself.
  have hval : ((fromBytesBig xonly : Nat) : ZMod n).val = fromBytesBig xonly :=
    ZMod.val_natCast_of_lt hlt
  have hsum := val_add_val_neg hne
  have hmin := congrArg fromBytesBig hx
  rw [residueX, scalar_toBytesBig
    ((min_le_left _ _).trans_lt ((ZMod.val_lt _).trans_le hn)), hval] at hmin
  show ((fromBytesBig xonly : Nat) : ZMod n).val < (-((fromBytesBig xonly : Nat) : ZMod n)).val
  omega

omit [NeZero n] in
theorem Scalar.read_zero : Scalar.read n (toBytesBig 32 0) = none := by
  have hzero : fromBytesBig (toBytesBig 32 0) = 0 := by decide +kernel
  rw [Scalar.read, dif_neg]
  rw [hzero]
  exact fun h => absurd h.1 (Nat.lt_irrefl 0)

omit [NeZero n] in
include hn in
theorem Scalar.read_toBytesBig {d : Nat} (hpos : 0 < d) (hlt : d < n) :
    ∃ key, Scalar.read n (toBytesBig 32 d) = some key ∧ toBytesBig 32 key.val = toBytesBig 32 d := by
  have hread := scalar_toBytesBig (hlt.trans_le hn)
  have hrange : 0 < fromBytesBig (toBytesBig 32 d) ∧ fromBytesBig (toBytesBig 32 d) < n := by
    rw [hread]
    exact ⟨hpos, hlt⟩
  refine ⟨⟨_, hrange⟩, ?_, congrArg (toBytesBig 32) hread⟩
  rw [Scalar.read, dif_pos hrange]

omit [NeZero n] in
include hn in
theorem Scalar.point_val (key : Scalar n) :
    key.point.val = fromBytesBig (toBytesBig 32 key.val) • (1 : ZMod n) := by
  rw [scalar_toBytesBig (key.property.2.trans_le hn), nsmul_one]
  rfl

@[simp] theorem residuePrimitives_privateKey (digest : Bytes → Bytes) :
    (residuePrimitives n digest).privateKey = Scalar.read n := rfl

theorem residue_implements (hn : n = secp256k1N) (digest : Bytes → Bytes) :
    Implements (residuePrimitives n digest) (residueCurve hodd) Subtype.val where
  order_eq := hn
  x_length _ := toBytesBig_length 32 _
  point_ne_zero key := key.property
  format_even key he := congrArg (· :: residueX key.val) (if_pos he)
  format_odd key ho := congrArg (· :: residueX key.val) (if_neg ho)
  parse_even _ := Point.ofX_even hn.le
  parse_spec _ _ := Point.ofX_spec hodd hn.le
  privateKey_ok d hpos hlt := by
    rw [← hn] at hlt
    rw [residuePrimitives_privateKey]
    exact Scalar.read_toBytesBig hn.le hpos hlt
  privateKey_zero := Scalar.read_zero
  publicKey_eq := Scalar.point_val hn.le
  combine_ok a b h := ⟨⟨_, h⟩, dif_pos h, rfl⟩
  combine_zero _ _ h := dif_neg (not_not.mpr h)

end Residues

instance : NeZero secp256k1N := ⟨by decide⟩

theorem secp256k1N_odd : secp256k1N % 2 = 1 := by decide

/-- The group of the order of the curve, with a digest that is the same number for all data. -/
def constantPrimitives (k : Nat) : Primitives := residuePrimitives secp256k1N fun _ => toBytesBig 32 k

theorem constant_implements (k : Nat) :
    Implements (constantPrimitives k) (residueCurve secp256k1N_odd) Subtype.val :=
  residue_implements secp256k1N_odd rfl _

theorem constant_tweakInt {k : Nat} (h : k < secp256k1N) (data : Bytes) :
    tweakInt (constantPrimitives k) data = k := scalar_toBytesBig h

/-- Under a small tweak the scalar one signs with a small scalar or its negative. -/
theorem constant_scalar_ne {k : Nat} (h : k < 3) {key : (constantPrimitives k).PrivateKey}
    (hsecret : (constantPrimitives k).secret key = toBytesBig 32 1)
    (hk : k ≠ 1) : taprootTweakedScalar (constantPrimitives k) key ≠ 0 := by
  have hlt : k < secp256k1N := h.trans (by decide)
  rw [(constant_implements k).taprootTweakedScalar_eq (by decide) hsecret, constant_tweakInt hlt,
    (constant_implements k).order_eq, XOnly.Curve.evenScalar, (constant_implements k).order_eq]
  split
  · unfold secp256k1N
    omega
  · unfold secp256k1N
    omega

theorem taproot_keys_match_sample :
    ∃ key, (constantPrimitives 2).privateKey (toBytesBig 32 1) = some key ∧
      taprootOutputKey (constantPrimitives 2) (residueX (1 • 1 : ZMod secp256k1N)) =
        .ok (residueX (taprootTweakedScalar (constantPrimitives 2) key • 1 : ZMod secp256k1N)) := by
  obtain ⟨key, hkey, hsecret⟩ :=
    (constant_implements 2).privateKey_ok 1 Nat.one_pos (by decide)
  have hmatch := taproot_keys_match (constant_implements 2) Nat.one_pos (by decide) hkey
    (by rw [constant_tweakInt (by decide)]; decide) (constant_scalar_ne (by decide) hsecret (by decide))
  exact ⟨key, hkey, hmatch.1⟩

theorem tapscript_commitment_sample :
    ∃ outputKey cb,
      tapscriptOutputKey (constantPrimitives 2) (residueX (1 : ZMod secp256k1N))
        (tapscriptLeafHash (constantPrimitives 2) [0x51]) = .ok outputKey ∧
      tapscriptControlBlock (constantPrimitives 2) (residueX (1 : ZMod secp256k1N))
        (tapscriptLeafHash (constantPrimitives 2) [0x51]) = .ok cb ∧
      ScriptPathVerifies (constantPrimitives 2) (residueCurve secp256k1N_odd) [0x51] cb
        outputKey := by
  have h := constant_implements 2
  have hone : (1 : ZMod secp256k1N).val = 1 := ZMod.val_one'' (by decide)
  have hne : (1 : ZMod secp256k1N) ≠ 0 := fun hzero => by
    rw [hzero, ZMod.val_zero] at hone
    cases hone
  have heven : (residueCurve secp256k1N_odd).IsEven 1 := by
    have hsum := val_add_val_neg hne
    show (1 : ZMod secp256k1N).val < (-1 : ZMod secp256k1N).val
    unfold secp256k1N at *
    omega
  have htweak := constant_tweakInt (k := 2) (by decide)
  have hthree : (1 : ZMod secp256k1N) + 2 • 1 ≠ 0 := by
    have hadd : (1 : ZMod secp256k1N) + 2 • 1 = 3 • 1 := by rw [succ_nsmul' 1 2]
    rw [hadd]
    exact (residueCurve secp256k1N_odd).nsmul_ne_zero (by decide) (by decide)
  have hlen : (tapscriptLeafHash (constantPrimitives 2) [0x51]).length = 32 :=
    toBytesBig_length 32 2
  obtain ⟨⟨outputKey, hout⟩, cb, hcb⟩ := h.tapscript_ok hne heven hlen
    (by rw [htweak]; decide) (by rw [htweak]; decide) (by rw [htweak]; exact hthree)
  exact ⟨outputKey, cb, hout, hcb, (tapscript_commitment_verifies h hout hcb).2⟩

/-- A tweak that is zero modulo the order is refused, although the scalar that signs is not. -/
theorem zero_tweak_refused :
    ∃ key, (constantPrimitives 0).privateKey (toBytesBig 32 1) = some key ∧
      taprootTweakedScalar (constantPrimitives 0) key ≠ 0 ∧
      taprootOutputKey (constantPrimitives 0) (residueX (1 • 1 : ZMod secp256k1N)) ≠
        .ok (residueX (taprootTweakedScalar (constantPrimitives 0) key • 1 : ZMod secp256k1N)) := by
  obtain ⟨key, hkey, hsecret⟩ :=
    (constant_implements 0).privateKey_ok 1 Nat.one_pos (by decide)
  refine ⟨key, hkey, constant_scalar_ne (by decide) hsecret (by decide), fun hok => ?_⟩
  have hrefused := (constant_implements 0).keyPath_zero Nat.one_pos (by decide)
    (by rw [constant_tweakInt (by decide)]; decide)
  cases hrefused.symm.trans hok

end Yubtc.TaprootKeys
