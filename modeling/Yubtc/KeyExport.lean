import Yubtc.WatchOnly

/-!
# Exported keys

The WIF coding of a private key, and the test of the multisig commands that a WIF is the one of the
own key. Every key that a phrase derives is a scalar of the curve, so its WIF can be read back.
-/
namespace Yubtc.KeyExport

open LittleEndian Wire Text Errors ExceptRules Crypto Addresses Seeds HdPaths KeySpends WatchOnly
open Deposits TaprootKeys
open Wallet (AddrType)

section

variable (P : Primitives)

def prefixPrivkey : UInt8 := 0x80
def suffixPrivkeyCompressed : UInt8 := 0x01

/-- What a WIF codes. -/
def wifPayload (secret : Bytes) : Bytes := prefixPrivkey :: (secret ++ [suffixPrivkeyCompressed])

def privkey2privwif (privkey : P.PrivateKey) : Str :=
  base58CheckEncode P (wifPayload (P.secret privkey))

/-- The secret of a payload. Only compressed WIFs are supported. -/
def wifSecret : Bytes → Except Exn Bytes
  | [] => .error .indexError
  | version :: body => do
    reject (version ≠ prefixPrivkey) (.valueError "prefix mismatch")
    reject (body.length ≠ 33 ∨ body.getLast? ≠ some suffixPrivkeyCompressed)
      (.valueError "uncompressed wif not supported")
    return body.dropLast

def privwif2privkey (privwif : Str) : Except Exn P.PrivateKey := do
  let decoded ← base58CheckDecode P privwif
  let secret ← wifSecret decoded
  privateKey P secret

/-- The own key of the multisig commands. -/
def msOwnPrivkey (D : Derivations) (seed : Str) (nonce : Int) (passphrase : Str)
    (kdf : Option Kdf) : Except Exn P.PrivateKey := do
  reject (seed = []) (.valueError "seed cannot be empty")
  seed2privkey P D seed nonce passphrase kdf (some .legacy)

/-- The own public key, if the WIF is that of the own key. Any failure is a foreign WIF. -/
def msWifOwnKey (derived : P.PrivateKey) (wif : Str) : Except Exn Bytes :=
  match privwif2privkey P wif with
  | .error _ => .error (.ms .foreignWif)
  | .ok key => do
    reject (P.secret key ≠ P.secret derived) (.ms .foreignWif)
    return privkey2pubkey P derived

/-- A key shows the 32 bytes that it was made of. -/
def KeepsSecret : Prop :=
  ∀ secret key, secret.length = 32 → P.privateKey secret = some key → P.secret key = secret

/-- The text codes the secret of the key. -/
def IsWif (key : P.PrivateKey) (wif : Str) : Prop :=
  base58CheckDecode P wif = .ok (wifPayload (P.secret key))

end

theorem wifSecret_eq_ok {decoded secret : Bytes} :
    wifSecret decoded = .ok secret ↔ decoded = wifPayload secret ∧ secret.length = 32 := by
  cases decoded with
  | nil =>
    constructor
    · intro h
      cases h
    · intro h
      cases h.1
  | cons version body =>
    rw [wifSecret, reject_bind_eq_ok, reject_bind_eq_ok, not_not, not_or, not_not, not_not]
    constructor
    · rintro ⟨rfl, ⟨hlen, hlast⟩, hsecret⟩
      cases hsecret
      have hbody : body.dropLast ++ [suffixPrivkeyCompressed] = body :=
        List.dropLast_append_getLast? _ hlast
      rw [wifPayload, hbody, List.length_dropLast, hlen]
      exact ⟨rfl, rfl⟩
    · rintro ⟨hdecoded, hlen⟩
      cases hdecoded
      rw [List.length_append, hlen, List.getLast?_concat, List.dropLast_concat]
      exact ⟨rfl, ⟨rfl, rfl⟩, rfl⟩

theorem wifPayload_inj {secret secret' : Bytes} :
    wifPayload secret = wifPayload secret' ↔ secret = secret' := by
  rw [wifPayload, wifPayload, List.cons_inj_right, List.append_left_inj]

section Export

variable {P : Primitives} {hmacSha512 : Bytes → Bytes → Bytes} {T : CharacterTables}
  {keccak256 blake2b256 : Bytes → Bytes} {stretch : Kdf → Str → Str → Except Exn Bytes}

theorem privateKey_scalar {key : P.PrivateKey} {d : Nat} (hpos : 0 < d) (hlt : d < secp256k1N)
    (h : privateKey P (toBytesBig 32 d) = .ok key) : FromScalar P key :=
  ⟨d, hpos, hlt, orElseThrow_eq_ok.mp h⟩

theorem cascade_scalar (hP : P.Lawful) {D : Derivations} {data secret : Bytes}
    {key : P.PrivateKey} (hsecret : bin2privkey (cascade P D data) = .ok secret)
    (h : privateKey P secret = .ok key) : FromScalar P key := by
  obtain ⟨secret', hclamped, hlen, hlo, hhi⟩ :=
    bin2privkey_range (hP.sha256_length (D.keccak256 (D.blake2b256 data)))
  cases hsecret.symm.trans hclamped
  have hn : 0 < secp256k1N := by decide
  rw [← toBytesBig_fromBytesBig secret, hlen] at h
  exact privateKey_scalar hlo (by omega) h

theorem bip32Leaf_valid (hT : ReadsAscii T) {purpose : Nat} (hpurpose : purpose < 10 ^ 10)
    {stretched raw : Bytes} {nonce : Int}
    (h : bip32Leaf P hmacSha512 T stretched nonce purpose = .ok raw) :
    ∃ d, 0 < d ∧ d < secp256k1N ∧ raw = toBytesBig 32 d := by
  by_cases hrange : 0 ≤ nonce ∧ nonce < 2 ^ 31
  · lift nonce to Nat using hrange.1
    rw [bip32Leaf_eq P hmacSha512 hT hpurpose (by omega)] at h
    obtain ⟨node, hnode, h⟩ := bind_eq_ok.mp h
    obtain ⟨leaf, hleaf, h⟩ := bind_eq_ok.mp h
    cases h
    exact foldlM_valid (account_valid hnode) hleaf
  · exact absurd h (bip32Leaf_refused P hmacSha512 hT hrange stretched raw)

theorem leaf_scalar (hT : ReadsAscii T) {purpose : Nat} (hpurpose : purpose < 10 ^ 10)
    {stretched : Except Exn Bytes} {raw : Bytes} {nonce : Int} {key : P.PrivateKey}
    (hraw : (stretched >>= fun data => bip32Leaf P hmacSha512 T data nonce purpose) = .ok raw)
    (h : privateKey P raw = .ok key) : FromScalar P key := by
  obtain ⟨data, -, hleaf⟩ := bind_eq_ok.mp hraw
  obtain ⟨d, hpos, hlt, rfl⟩ := bip32Leaf_valid hT hpurpose hleaf
  exact privateKey_scalar hpos hlt h

/-- Every key that a phrase derives is a scalar of the curve. -/
theorem seed2privkey_scalar (hP : P.Lawful) (hT : ReadsAscii T) {seed passphrase : Str}
    {nonce : Int} {kdf : Option Kdf} {addrType : Option AddrType} {key : P.PrivateKey}
    (h : seed2privkey P (treeDerivations P hmacSha512 T keccak256 blake2b256 stretch) seed nonce
      passphrase kdf addrType = .ok key) : FromScalar P key := by
  rw [seed2privkey] at h
  generalize kdf.getD (defaultKdf passphrase) = resolved at h
  obtain ⟨raw, hraw, h⟩ := bind_eq_ok.mp h
  cases resolved with
  | yubtc =>
    obtain ⟨-, hraw⟩ := reject_bind_eq_ok.mp hraw
    obtain ⟨data, -, hraw⟩ := bind_eq_ok.mp hraw
    cases hraw
    obtain ⟨secret, hsecret, hkey⟩ := bind_eq_ok.mp h
    exact cascade_scalar hP hsecret hkey
  | pbkdf2 => exact leaf_scalar hT (bip32Purpose_lt _) (reject_bind_eq_ok.mp hraw).2 h
  | argon2id => exact leaf_scalar hT (by decide) (reject_bind_eq_ok.mp hraw).2 h
  | scrypt => exact leaf_scalar hT (by decide) (reject_bind_eq_ok.mp hraw).2 h

theorem scalar_kept (hk : KeepsSecret P) {key : P.PrivateKey} (h : FromScalar P key) :
    (P.secret key).length = 32 ∧ P.privateKey (P.secret key) = some key := by
  obtain ⟨d, -, -, hread⟩ := h
  have hsecret := hk _ _ (toBytesBig_length 32 d) hread
  rw [hsecret]
  exact ⟨toBytesBig_length 32 d, hread⟩

theorem privwif2privkey_eq_ok {wif : Str} {key : P.PrivateKey} :
    privwif2privkey P wif = .ok key ↔ ∃ secret, secret.length = 32 ∧
      base58CheckDecode P wif = .ok (wifPayload secret) ∧ P.privateKey secret = some key := by
  constructor
  · intro h
    obtain ⟨decoded, hdecoded, h⟩ := bind_eq_ok.mp h
    obtain ⟨secret, hsecret, h⟩ := bind_eq_ok.mp h
    obtain ⟨hpayload, hlen⟩ := wifSecret_eq_ok.mp hsecret
    rw [hpayload] at hdecoded
    exact ⟨secret, hlen, hdecoded, orElseThrow_eq_ok.mp h⟩
  · rintro ⟨secret, hlen, hdecoded, hread⟩
    rw [privwif2privkey, hdecoded, ok_bind, wifSecret_eq_ok.mpr ⟨rfl, hlen⟩, ok_bind]
    exact orElseThrow_eq_ok.mpr hread

/-- What is read is the key itself. -/
theorem privwif2privkey_of_isWif (hk : KeepsSecret P) {key : P.PrivateKey} (h : FromScalar P key)
    {wif : Str} (hwif : IsWif P key wif) : privwif2privkey P wif = .ok key :=
  privwif2privkey_eq_ok.mpr ⟨_, (scalar_kept hk h).1, hwif, (scalar_kept hk h).2⟩

theorem isWif_of_secret (hk : KeepsSecret P) {key derived : P.PrivateKey} {wif : Str}
    (h : privwif2privkey P wif = .ok key) (hsecret : P.secret key = P.secret derived) :
    IsWif P derived wif := by
  obtain ⟨secret, hlen, hdecoded, hread⟩ := privwif2privkey_eq_ok.mp h
  rw [IsWif, ← hsecret, hk secret key hlen hread]
  exact hdecoded

theorem isWif_dumped_iff (hP : P.Lawful) (hb : StandardBase58 P) {key dumped : P.PrivateKey} :
    IsWif P key (privkey2privwif P dumped) ↔ P.secret dumped = P.secret key := by
  rw [IsWif, privkey2privwif, base58CheckDecode_encode hP hb, Except.ok.injEq, wifPayload_inj]

theorem msWifOwnKey_accepts (hk : KeepsSecret P) {derived : P.PrivateKey}
    (h : FromScalar P derived) {wif : Str} (hwif : IsWif P derived wif) :
    msWifOwnKey P derived wif = .ok (privkey2pubkey P derived) := by
  rw [msWifOwnKey, privwif2privkey_of_isWif hk h hwif]
  dsimp only
  rw [reject_false _ (not_not.mpr rfl)]
  rfl

theorem msWifOwnKey_refuses (hk : KeepsSecret P) {derived : P.PrivateKey} {wif : Str}
    (hwif : ¬ IsWif P derived wif) : msWifOwnKey P derived wif = .error (.ms .foreignWif) := by
  rw [msWifOwnKey]
  cases hread : privwif2privkey P wif with
  | error e => rfl
  | ok key =>
    have hne : P.secret key ≠ P.secret derived :=
      fun hsecret => hwif (isWif_of_secret hk hread hsecret)
    dsimp only
    rw [reject_true _ hne]
    rfl

/-- The own key is shown by its WIFs only, and everything else is foreign. -/
theorem msWifOwnKey_cases (hk : KeepsSecret P) {derived : P.PrivateKey}
    (h : FromScalar P derived) (wif : Str) :
    (IsWif P derived wif ∧ msWifOwnKey P derived wif = .ok (privkey2pubkey P derived)) ∨
      (¬ IsWif P derived wif ∧ msWifOwnKey P derived wif = .error (.ms .foreignWif)) := by
  by_cases hwif : IsWif P derived wif
  · exact .inl ⟨hwif, msWifOwnKey_accepts hk h hwif⟩
  · exact .inr ⟨hwif, msWifOwnKey_refuses hk hwif⟩

/-- The own key is the one that the wallet prints. -/
theorem msOwnPrivkey_printed {D : Derivations} {seed passphrase : Str} {nonce : Int}
    {form : AddressForm P.PrivateKey}
    (h : addressForm P D seed nonce passphrase .legacy = .ok form) :
    msOwnPrivkey P D seed nonce passphrase none = .ok form.privkey := by
  obtain ⟨hseed, h⟩ := reject_bind_eq_ok.mp h
  obtain ⟨privkey, hprivkey, h⟩ := bind_eq_ok.mp h
  obtain ⟨address, -, h⟩ := bind_eq_ok.mp h
  cases h
  exact reject_bind_eq_ok.mpr ⟨hseed, hprivkey⟩

/-- For every phrase, nonce, passphrase and derivation the WIF of the own key is read back as that
key, and a text is accepted for it exactly when it codes the secret of the own key. Every other text
is a foreign WIF, that of any key with another secret among them. Where the derivation is left to
the passphrase, the WIF that the wallet prints at the nonce is accepted. -/
theorem own_wif (hP : P.Lawful) (hb : StandardBase58 P) (hk : KeepsSecret P) (hT : ReadsAscii T)
    {seed passphrase : Str} {nonce : Int} {kdf : Option Kdf} {derived : P.PrivateKey}
    (h : msOwnPrivkey P (treeDerivations P hmacSha512 T keccak256 blake2b256 stretch) seed nonce
      passphrase kdf = .ok derived) :
    privwif2privkey P (privkey2privwif P derived) = .ok derived ∧
    (∀ form, kdf = none → addressForm P (treeDerivations P hmacSha512 T keccak256 blake2b256
        stretch) seed nonce passphrase .legacy = .ok form →
      msWifOwnKey P derived (privkey2privwif P form.privkey) = .ok (privkey2pubkey P derived)) ∧
    (∀ wif, (IsWif P derived wif ∧
        msWifOwnKey P derived wif = .ok (privkey2pubkey P derived)) ∨
      (¬ IsWif P derived wif ∧ msWifOwnKey P derived wif = .error (.ms .foreignWif))) ∧
    ∀ dumped, IsWif P derived (privkey2privwif P dumped) ↔ P.secret dumped = P.secret derived := by
  obtain ⟨-, hderived⟩ := reject_bind_eq_ok.mp h
  have hscalar := seed2privkey_scalar hP hT hderived
  have hown : IsWif P derived (privkey2privwif P derived) := (isWif_dumped_iff hP hb).mpr rfl
  refine ⟨privwif2privkey_of_isWif hk hscalar hown, ?_, msWifOwnKey_cases hk hscalar,
    fun dumped => isWif_dumped_iff hP hb⟩
  intro form hkdf hform
  rw [hkdf, msOwnPrivkey_printed hform] at h
  cases h
  exact msWifOwnKey_accepts hk hscalar hown

end Export

theorem residueWallet_keeps : KeepsSecret residueWallet := by
  intro secret key hlen hread
  have hscalar : Scalar.read secp256k1N secret = some key := hread
  rw [Scalar.read] at hscalar
  split at hscalar
  · cases hscalar
    have hback := toBytesBig_fromBytesBig secret
    rw [hlen] at hback
    exact hback
  · cases hscalar

def walletDerivations : Derivations :=
  treeDerivations residueWallet standInHmac asciiTables id id standInStretch

theorem own_wif_sample : ∃ derived form,
    msOwnPrivkey residueWallet walletDerivations (str "correct horse") 7 (str "battery") none =
      .ok derived ∧
    addressForm residueWallet walletDerivations (str "correct horse") 7 (str "battery") .legacy =
      .ok form ∧
    privwif2privkey residueWallet (privkey2privwif residueWallet derived) = .ok derived ∧
    msWifOwnKey residueWallet derived (privkey2privwif residueWallet form.privkey) =
      .ok (privkey2pubkey residueWallet derived) := by
  have hown : (msOwnPrivkey residueWallet walletDerivations (str "correct horse") 7
      (str "battery") none).toBool = true := by decide +kernel
  have hprinted : (addressForm residueWallet walletDerivations (str "correct horse") 7
      (str "battery") .legacy).toBool = true := by decide +kernel
  obtain ⟨derived, hderived⟩ := succeeds_of_toBool hown
  obtain ⟨form, hform⟩ := succeeds_of_toBool hprinted
  obtain ⟨hread, hlegacy, -, -⟩ := @own_wif residueWallet standInHmac asciiTables id id
    standInStretch (withBase58_lawful residues_lawful) withBase58_standard residueWallet_keeps
    asciiTables_reads _ _ _ _ _ hderived
  exact ⟨derived, form, hderived, hform, hread, hlegacy form rfl hform⟩

end Yubtc.KeyExport
