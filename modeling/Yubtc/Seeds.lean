import Yubtc.Text
import Yubtc.Crypto
import Yubtc.Wallet

/-!
# From a phrase to a key

The phrase policy accepts any text that is not blank; the derivation of a wallet without a
passphrase writes that text with one byte for a character, hashes it and clamps the digest.
-/
namespace Yubtc.Seeds

open LittleEndian Wire Text Errors ExceptRules Crypto
open Wallet (AddrType)

/-- `s.strip()`. -/
def strip (s : Str) : Str := s.dropWhile isSpace |>.rdropWhile isSpace

/-- The reception policy. The checks of the strict mode, a full mnemonic parse with an entropy
floor, are a parameter. -/
def validateSeed (strictChecks : Str → Except Exn Unit) (seed : Str) (strict : Bool) :
    Except Exn Unit := do
  reject (strip seed = []) (.valueError "seed must not be empty")
  if strict then strictChecks seed else return

/-- The permissive mode refuses only blank text. -/
theorem validateSeed_permissive {strictChecks : Str → Except Exn Unit} {seed : Str} :
    validateSeed strictChecks seed false = .ok () ↔ ∃ c ∈ seed, isSpace c = false := by
  have hblank : strip seed = [] ↔ ∀ c ∈ seed, isSpace c = true := by
    rw [strip, List.rdropWhile_eq_nil_iff]
    constructor
    · intro h
      by_contra hne
      have hdrop : seed.dropWhile isSpace ≠ [] := fun hnil => hne (List.dropWhile_eq_nil_iff.mp hnil)
      have hhead := List.head_dropWhile_not isSpace hdrop
      rw [h _ (List.head_mem hdrop)] at hhead
      cases hhead
    · intro h c hc
      exact h c (List.dropWhile_subset isSpace hc)
  rw [validateSeed, reject_bind_eq_ok, hblank]
  simp

inductive Kdf where
  | yubtc
  | pbkdf2
  | argon2id
  | scrypt
  deriving DecidableEq

def defaultKdf (passphrase : Str) : Kdf := if passphrase = [] then .yubtc else .pbkdf2

/-- The other hashes of the cascade, and what the passphrase KDFs rest on: the stretch of each and
the walk to a leaf of the key tree. -/
structure Derivations where
  keccak256 : Bytes → Bytes
  blake2b256 : Bytes → Bytes
  stretch : Kdf → Str → Str → Except Exn Bytes
  bip32Leaf : Bytes → Int → Nat → Except Exn Bytes

/-- The reason text of `UnicodeEncodeError`, which is a `ValueError`. -/
def encodeError : Exn := .valueError "ordinal not in range(256)"

/-- `s.encode('latin-1')`. -/
def str2bytes (s : Str) : Except Exn Bytes :=
  s.mapM fun c => do
    reject (c.val > 0xff) encodeError
    return UInt8.ofNat c.val

/-- `pack('>L', n)`. -/
def packNonce (nonce : Int) : Except Exn Bytes := do
  reject (¬ (0 ≤ nonce ∧ nonce ≤ 0xffffffff)) .structError
  return toBytesBig 4 nonce.toNat

/-- What the cascade hashes. -/
def cascadeData (seed : Str) (nonce : Int) : Except Exn Bytes := do
  let packed ← packNonce nonce
  let phrase ← str2bytes seed
  return packed ++ phrase

def bip32Purpose : AddrType → Nat
  | .legacy => 44
  | .native => 84
  | .taproot => 86

section Derivation

variable (P : Primitives) (D : Derivations)

def cascade (data : Bytes) : Bytes := P.sha256 (D.keccak256 (D.blake2b256 data))

/-- The 32-byte secret of a nonce. -/
def seed2bin (seed : Str) (nonce : Int) (passphrase : Str) (kdf : Option Kdf)
    (addrType : Option AddrType) : Except Exn Bytes := do
  let addrType := addrType.getD .legacy
  let kdf := kdf.getD (defaultKdf passphrase)
  match kdf with
  | .yubtc =>
    reject (passphrase ≠ []) (.valueError
      "empty passphrase is incompatible with kdf=yubtc (legacy cascade is passphrase-free)")
    let data ← cascadeData seed nonce
    return cascade P D data
  | .pbkdf2 => do
    reject (passphrase = []) (.valueError "passphrase required for kdf=pbkdf2")
    let stretched ← D.stretch .pbkdf2 seed passphrase
    D.bip32Leaf stretched nonce (bip32Purpose addrType)
  | .argon2id => do
    reject (passphrase = []) (.valueError "passphrase required for kdf=argon2id")
    let stretched ← D.stretch .argon2id seed passphrase
    D.bip32Leaf stretched nonce 44
  | .scrypt => do
    reject (passphrase = []) (.valueError "passphrase required for kdf=scrypt")
    let stretched ← D.stretch .scrypt seed passphrase
    D.bip32Leaf stretched nonce 44

/-- The clamp of the legacy cascade, byte by byte. -/
def bin2privkey (data : Bytes) : Except Exn Bytes := do
  reject (data.length < 32) .indexError
  return (data.modify 0 (· &&& 248)).modify 31 (fun b => b &&& 127 ||| 64)

/-- `PrivateKey(secret)`. -/
def privateKey (secret : Bytes) : Except Exn P.PrivateKey :=
  orElseThrow (.valueError "Secret scalar must be greater than 0 and less than the order")
    (P.privateKey secret)

/-- Only the legacy cascade is clamped. -/
def seed2privkey (seed : Str) (nonce : Int) (passphrase : Str) (kdf : Option Kdf)
    (addrType : Option AddrType) : Except Exn P.PrivateKey := do
  let resolved := kdf.getD (defaultKdf passphrase)
  let raw ← seed2bin P D seed nonce passphrase (some resolved) addrType
  if resolved = .yubtc then do
    let secret ← bin2privkey raw
    privateKey P secret
  else privateKey P raw

end Derivation

theorem str2bytes_eq_ok {s : Str} {data : Bytes} :
    str2bytes s = .ok data ↔ (∀ c ∈ s, c.val ≤ 0xff) ∧ data = s.map fun c => UInt8.ofNat c.val := by
  induction s generalizing data with
  | nil => exact ⟨fun h => by cases h; simp, fun h => by rw [h.2]; rfl⟩
  | cons c s ih =>
    rw [str2bytes, List.mapM_cons, ← str2bytes]
    constructor
    · intro h
      obtain ⟨b, hb, h⟩ := bind_eq_ok.mp h
      obtain ⟨rest, hrest, h⟩ := bind_eq_ok.mp h
      obtain ⟨hle, hb⟩ := reject_bind_eq_ok.mp hb
      cases h
      cases hb
      obtain ⟨hall, rfl⟩ := ih.mp hrest
      exact ⟨List.forall_mem_cons.mpr ⟨Nat.not_lt.mp hle, hall⟩, rfl⟩
    · rintro ⟨hall, rfl⟩
      obtain ⟨hc, hall⟩ := List.forall_mem_cons.mp hall
      rw [reject_false _ (Nat.not_lt.mpr hc), ih.mpr ⟨hall, rfl⟩]
      rfl

/-- The one byte of a character gives it back. -/
theorem str2bytes_inj {s t : Str} {data : Bytes} (hs : str2bytes s = .ok data)
    (ht : str2bytes t = .ok data) : s = t := by
  obtain ⟨hsmall, hdata⟩ := str2bytes_eq_ok.mp hs
  obtain ⟨htsmall, hdata'⟩ := str2bytes_eq_ok.mp ht
  have hback : ∀ u : Str, (∀ c ∈ u, c.val ≤ 0xff) →
      (u.map fun c => UInt8.ofNat c.val).map ofByte = u := by
    intro u hu
    rw [List.map_map]
    refine (List.map_congr_left fun c hc => ?_).trans (List.map_id u)
    have hc := hu c hc
    apply Fin.ext
    show (UInt8.ofNat c.val).toNat = c.val
    rw [UInt8.toNat_ofNat']
    omega
  rw [← hback s hsmall, ← hdata, hdata', hback t htsmall]

theorem packNonce_eq_ok {nonce : Int} {packed : Bytes} :
    packNonce nonce = .ok packed ↔
      (0 ≤ nonce ∧ nonce ≤ 0xffffffff) ∧ packed = toBytesBig 4 nonce.toNat := by
  rw [packNonce, reject_bind_eq_ok, not_not, pure_eq_ok, Except.ok.injEq, eq_comm (a := packed)]

theorem packNonce_inj {m n : Int} {packed : Bytes} (hm : packNonce m = .ok packed)
    (hn : packNonce n = .ok packed) : m = n := by
  obtain ⟨hmrange, hmdata⟩ := packNonce_eq_ok.mp hm
  obtain ⟨hnrange, hndata⟩ := packNonce_eq_ok.mp hn
  have hnat : m.toNat = n.toNat := by
    have hread := congrArg fromBytesBig (hmdata.symm.trans hndata)
    rwa [fromBytesBig_toBytesBig (by omega), fromBytesBig_toBytesBig (by omega)] at hread
  omega

/-- The hashed bytes determine the nonce and the phrase. -/
theorem cascadeData_inj {s t : Str} {m n : Int} {data : Bytes} (hs : cascadeData s m = .ok data)
    (ht : cascadeData t n = .ok data) : m = n ∧ s = t := by
  obtain ⟨packed, hm, hs⟩ := bind_eq_ok.mp hs
  obtain ⟨phrase, hphrase, hs⟩ := bind_eq_ok.mp hs
  obtain ⟨packed', hn, ht⟩ := bind_eq_ok.mp ht
  obtain ⟨phrase', hphrase', ht⟩ := bind_eq_ok.mp ht
  cases hs
  have hwidth : packed'.length = packed.length := by
    rw [(packNonce_eq_ok.mp hm).2, (packNonce_eq_ok.mp hn).2, toBytesBig_length, toBytesBig_length]
  obtain ⟨rfl, rfl⟩ := List.append_inj (Except.ok.inj ht) hwidth
  exact ⟨packNonce_inj hm hn, str2bytes_inj hphrase hphrase'⟩

theorem cascadeData_ok {s : Str} (hs : ∀ c ∈ s, c.val ≤ 0xff) {nonce : Int} (hlo : 0 ≤ nonce)
    (hhi : nonce ≤ 0xffffffff) : ∃ data, cascadeData s nonce = .ok data :=
  ⟨_, bind_eq_ok.mpr ⟨_, packNonce_eq_ok.mpr ⟨⟨hlo, hhi⟩, rfl⟩,
    bind_eq_ok.mpr ⟨_, str2bytes_eq_ok.mpr ⟨hs, rfl⟩, rfl⟩⟩⟩

/-- Big-endian bytes lie between what the last byte and the first byte say. -/
theorem fromBytesBig_bounds {first last : UInt8} {middle : Bytes} :
    last.toNat ≤ fromBytesBig (first :: (middle ++ [last])) ∧
      fromBytesBig (first :: (middle ++ [last])) < 256 ^ (middle.length + 1) * (first.toNat + 1) := by
  have hreverse : (first :: (middle ++ [last])).reverse = last :: (middle.reverse ++ [first]) := by
    simp
  rw [fromBytesBig, hreverse]
  constructor
  · rw [unpackLE]
    omega
  · have hlt := unpackLE_concat_lt (last :: middle.reverse) first
    rwa [List.length_cons, List.length_reverse] at hlt

theorem modify_concat (f : UInt8 → UInt8) (middle : Bytes) (last : UInt8) :
    (middle ++ [last]).modify middle.length f = middle ++ [f last] := by
  induction middle with
  | nil => rfl
  | cons b middle ih =>
    rw [List.cons_append, List.length_cons, List.modify_succ_cons, ih, List.cons_append]

/-- The clamp changes the first and the last of thirty-two bytes. -/
theorem bin2privkey_eq {first last : UInt8} {middle : Bytes} (h : middle.length = 30) :
    bin2privkey (first :: (middle ++ [last])) =
      .ok ((first &&& 248) :: (middle ++ [last &&& 127 ||| 64])) := by
  have hlen : ¬ (first :: (middle ++ [last])).length < 32 := by
    simp [h]
  rw [bin2privkey, reject_false _ hlen, ok_bind, List.modify_zero_cons, List.modify_succ_cons, ← h,
    modify_concat, pure_eq_ok]

/-- Whatever the digest, the clamped secret is a scalar of the curve. -/
theorem bin2privkey_range {data : Bytes} (h : data.length = 32) :
    ∃ secret, bin2privkey data = .ok secret ∧ secret.length = 32 ∧ 1 ≤ fromBytesBig secret ∧
      fromBytesBig secret ≤ secp256k1N - 1 := by
  obtain ⟨first, rest, rfl⟩ := List.exists_cons_of_length_eq_add_one h
  rw [List.length_cons, Nat.add_right_cancel_iff] at h
  have hne : rest ≠ [] := List.ne_nil_of_length_pos (by omega)
  obtain ⟨middle, last, rfl⟩ : ∃ middle last, rest = middle ++ [last] :=
    ⟨_, _, (List.dropLast_append_getLast hne).symm⟩
  have hmiddle : middle.length = 30 := by
    rw [List.length_append, List.length_singleton] at h
    omega
  obtain ⟨hlo, hhi⟩ := @fromBytesBig_bounds (first &&& 248) (last &&& 127 ||| 64) middle
  have hlow : 64 ≤ (last &&& 127 ||| 64).toNat := by
    rw [UInt8.toNat_or]
    exact Nat.right_le_or
  have hhigh : (first &&& 248).toNat ≤ 248 := by
    rw [UInt8.toNat_and]
    exact Nat.and_le_right
  refine ⟨_, bin2privkey_eq hmiddle, by simp [hmiddle], by omega, ?_⟩
  rw [hmiddle] at hhi
  have htop : 256 ^ (30 + 1) * ((first &&& 248).toNat + 1) ≤ 256 ^ 31 * 249 :=
    Nat.mul_le_mul_left _ (Nat.succ_le_succ hhigh)
  have hn : 256 ^ 31 * 249 ≤ secp256k1N := by decide
  omega

/-- The curve package takes every scalar in the range. -/
def AcceptsScalars (P : Primitives) : Prop :=
  ∀ secret : Bytes, secret.length = 32 → 1 ≤ fromBytesBig secret →
    fromBytesBig secret ≤ secp256k1N - 1 → ∃ key, P.privateKey secret = some key

/-- With the empty passphrase every nonce and address type of the phrase gives a key, the clamped
secret is a scalar in the range, and the hashed bytes are those of no other nonce or phrase. -/
def Opens (P : Primitives) (D : Derivations) (seed : Str) : Prop :=
  ∀ nonce : Int, 0 ≤ nonce → nonce ≤ 0xffffffff → ∀ (kdf : Option Kdf) (addrType : Option AddrType),
    kdf = none ∨ kdf = some .yubtc →
    ∃ data secret key, cascadeData seed nonce = .ok data ∧
      bin2privkey (cascade P D data) = .ok secret ∧
      1 ≤ fromBytesBig secret ∧ fromBytesBig secret ≤ secp256k1N - 1 ∧
      P.privateKey secret = some key ∧ seed2privkey P D seed nonce [] kdf addrType = .ok key ∧
      ∀ nonce' seed', cascadeData seed' nonce' = .ok data → nonce' = nonce ∧ seed' = seed

section Opening

variable {P : Primitives} {D : Derivations} {seed : Str} {nonce : Int} {kdf : Option Kdf}

/-- Without a passphrase the key is the clamped digest of the packed nonce and phrase. -/
theorem seed2privkey_cascade (hkdf : kdf = none ∨ kdf = some .yubtc) (addrType : Option AddrType) :
    seed2privkey P D seed nonce [] kdf addrType =
      (do let data ← cascadeData seed nonce
          let secret ← bin2privkey (cascade P D data)
          privateKey P secret) := by
  have hresolved : kdf.getD (defaultKdf []) = .yubtc := by
    rcases hkdf with rfl | rfl <;> rfl
  have hraw : seed2bin P D seed nonce [] (some (kdf.getD (defaultKdf []))) addrType =
      (do let data ← cascadeData seed nonce
          return cascade P D data) := by
    rw [hresolved]
    rfl
  rw [seed2privkey, hraw, hresolved]
  cases cascadeData seed nonce <;> rfl

theorem opens_of_latin (hP : P.Lawful) (hkeys : AcceptsScalars P) (h : ∀ c ∈ seed, c.val ≤ 0xff) :
    Opens P D seed := by
  intro nonce hlo hhi kdf addrType hkdf
  obtain ⟨data, hdata⟩ := cascadeData_ok h hlo hhi
  obtain ⟨secret, hsecret, hlen, hone, hn⟩ := bin2privkey_range (hP.sha256_length
    (D.keccak256 (D.blake2b256 data)))
  obtain ⟨key, hkey⟩ := hkeys secret hlen hone hn
  refine ⟨data, secret, key, hdata, hsecret, hone, hn, hkey, ?_, ?_⟩
  · rw [seed2privkey_cascade hkdf, hdata, ok_bind]
    exact bind_eq_ok.mpr ⟨secret, hsecret, orElseThrow_eq_ok.mpr hkey⟩
  · intro nonce' seed' hother
    exact cascadeData_inj hother hdata

theorem latin_of_opens (h : Opens P D seed) : ∀ c ∈ seed, c.val ≤ 0xff := by
  obtain ⟨data, -, -, hdata, -⟩ := h 0 (le_refl 0) (by decide) none none (.inl rfl)
  obtain ⟨packed, -, hdata⟩ := bind_eq_ok.mp hdata
  obtain ⟨phrase, hphrase, -⟩ := bind_eq_ok.mp hdata
  exact (str2bytes_eq_ok.mp hphrase).1

/-- An accepted phrase opens a wallet exactly when each of its characters fits one byte. -/
theorem accepted_opens_iff (hP : P.Lawful) (hkeys : AcceptsScalars P)
    {strictChecks : Str → Except Exn Unit} (_ : validateSeed strictChecks seed false = .ok ()) :
    Opens P D seed ↔ ∀ c ∈ seed, c.val ≤ 0xff :=
  ⟨latin_of_opens, opens_of_latin hP hkeys⟩

end Opening

/-- Hashes that do nothing, for running the derivation on an input. -/
def plainDerivations : Derivations where
  keccak256 := id
  blake2b256 := id
  stretch _ _ _ := .error encodeError
  bip32Leaf _ _ _ := .error encodeError

theorem standIn_acceptsScalars : AcceptsScalars standIn := by
  intro secret _ hlo hhi
  have hlt : fromBytesBig secret < secp256k1N := by
    have hn : 0 < secp256k1N := by decide
    omega
  exact ⟨fromBytesBig secret, if_pos ⟨hlo, hlt⟩⟩

theorem accepted_opens_plain :
    Opens standIn plainDerivations (str "correct horse") ↔
      ∀ c ∈ str "correct horse", c.val ≤ 0xff :=
  @accepted_opens_iff standIn plainDerivations _ standIn_lawful standIn_acceptsScalars
    (fun _ => .ok ()) (by decide +kernel)

/-- A phrase of one euro sign. -/
def euro : Str := str "€"

/-- The phrase is accepted and no key is derived from it. -/
theorem euro_refused :
    validateSeed (fun _ => .ok ()) euro false = .ok () ∧
      seed2privkey standIn plainDerivations euro 0 [] none none = .error encodeError ∧
      ¬ Opens standIn plainDerivations euro := by
  refine ⟨by decide +kernel, rfl, fun h => ?_⟩
  have hsmall := latin_of_opens h _ List.mem_cons_self
  exact absurd hsmall (by decide)

end Yubtc.Seeds
