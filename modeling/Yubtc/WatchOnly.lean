import Yubtc.Deposits
import Yubtc.HdPaths

/-!
# Watching a wallet

With a passphrase the keys of a wallet are the leaves below one account of a key tree, and no step
below the account is hardened. So the point and the chain code of the account are enough to compute
every public key of the wallet, and with it every address, without any private key.
-/
namespace Yubtc.WatchOnly

open LittleEndian Wire Text Errors ExceptRules Crypto Addresses Seeds HdPaths TaprootKeys KeySpends
open Deposits
open Wallet (AddrType addrTypes)

section

variable (P : Primitives) (hmacSha512 : Bytes → Bytes → Bytes) (T : CharacterTables)

def masterFromSeed (seed : Bytes) : Node :=
  let hmacOut := hmacSha512 (ascii "Bitcoin seed") seed
  ⟨hmacOut.take 32, hmacOut.drop 32⟩

/-- The path of a leaf, as it is formatted. -/
def leafPath (purpose : Nat) (nonce : Int) : Str :=
  str "m/" ++ str (toString purpose) ++ str "'/0'/0'/0/" ++ str (toString nonce)

/-- `_bip32_leaf`. -/
def bip32Leaf (stretched : Bytes) (nonce : Int) (purpose : Nat) : Except Exn Bytes := do
  reject (nonce ≥ 0x80000000) (.valueError ("BIP-32 derivation failed: path " ++ toString nonce ++
    ": non-hardened child index must be < 2^31"))
  let child ← derivePath P hmacSha512 T (masterFromSeed hmacSha512 stretched)
    (leafPath purpose nonce)
  return child.privkey

/-- The derivations of a wallet over the key tree. -/
def treeDerivations (keccak256 blake2b256 : Bytes → Bytes)
    (stretch : Kdf → Str → Str → Except Exn Bytes) : Derivations where
  keccak256 := keccak256
  blake2b256 := blake2b256
  stretch := stretch
  bip32Leaf := bip32Leaf P hmacSha512 T

end

/-- What the tables say of the digits and the minus sign of ASCII. -/
structure ReadsAscii (T : CharacterTables) : Prop where
  isDigit : ∀ c : Char, c.isDigit = true → T.isDigit (ofChar c) = true
  decimal : ∀ c : Char, c.isDigit = true → T.decimal (ofChar c) = some (c.toNat - '0'.toNat)
  minus : T.isDigit (ofChar '-') = false

theorem digit_range {c : Char} (h : c.isDigit = true) :
    48 ≤ (ofChar c).val ∧ (ofChar c).val ≤ 57 := by
  simp only [Char.isDigit, Bool.and_eq_true, decide_eq_true_eq] at h
  exact ⟨h.1, h.2⟩

theorem not_mem_digits {c : CodePoint} (hc : c.val < 48) {cs : List Char}
    (h : ∀ c ∈ cs, c.isDigit = true) : c ∉ cs.map ofChar := by
  intro hmem
  obtain ⟨d, hd, rfl⟩ := List.mem_map.mp hmem
  have hrange := digit_range (h d hd)
  omega

theorem digits_isDigit (n : Nat) : ∀ c ∈ Nat.toDigits 10 n, c.isDigit = true :=
  fun _ hc => Nat.isDigit_of_mem_toDigits (by decide) (by decide) hc

theorem str_repr (n : Nat) : str (toString n) = (Nat.toDigits 10 n).map ofChar := by
  rw [str, Nat.toString_eq_repr, Nat.toList_repr]

section Numbers

variable {T : CharacterTables} (hT : ReadsAscii T)

include hT

theorem mapM_decimal (e : Exn) {cs : List Char} (h : ∀ c ∈ cs, c.isDigit = true) :
    (cs.map ofChar).mapM (fun c => orElseThrow e (T.decimal c)) =
      .ok (cs.map fun c => c.toNat - '0'.toNat) := by
  induction cs with
  | nil => rfl
  | cons c cs ih =>
    obtain ⟨hc, hrest⟩ := List.forall_mem_cons.mp h
    rw [List.map_cons, List.mapM_cons, hT.decimal c hc, ih hrest]
    rfl

/-- The digits of a number are read back. -/
theorem intOfDigits_repr {n : Nat} (hn : n < 10 ^ 10) :
    intOfDigits T (str (toString n)) = .ok n := by
  have hlen : ¬ 4300 < ((Nat.toDigits 10 n).map ofChar).length := by
    rw [List.length_map, Nat.not_lt]
    exact ((Nat.length_toDigits_le_iff (by decide) (by decide)).mpr hn).trans (by decide)
  rw [str_repr, intOfDigits, mapM_decimal hT _ (digits_isDigit n), ok_bind, reject_false _ hlen,
    ok_bind, List.foldl_map]
  exact congrArg Except.ok Nat.ofDigitChars_ten_toDigits

theorem repr_ok (n : Nat) :
    ¬(str (toString n) = [] ∨ ¬(str (toString n)).all T.isDigit = true) := by
  rw [str_repr, not_or, not_not, List.all_eq_true]
  constructor
  · simp
  · intro c hc
    obtain ⟨d, hd, rfl⟩ := List.mem_map.mp hc
    exact hT.isDigit d (digits_isDigit n d hd)

theorem parse_plain {n : Nat} (hn : n < 10 ^ 10) :
    parseSegment T (str (toString n)) = .ok ⟨n, false⟩ := by
  have hplain : ¬ (str "'") <:+ str (toString n) := by
    intro hsuffix
    rw [str_repr] at hsuffix
    exact not_mem_digits (by decide) (digits_isDigit n) (hsuffix.subset List.mem_cons_self)
  rw [parseSegment, decide_eq_false hplain]
  simp only [Bool.false_eq_true, if_false]
  rw [reject_false _ (repr_ok hT n), ok_bind, intOfDigits_repr hT hn]
  rfl

theorem parse_hardened {n : Nat} (hn : n < 10 ^ 10) :
    parseSegment T (str (toString n) ++ str "'") = .ok ⟨n, true⟩ := by
  have hhardened : (str "'") <:+ str (toString n) ++ str "'" := List.suffix_append _ _
  have hdrop : (str (toString n) ++ str "'").dropLast = str (toString n) := List.dropLast_concat
  rw [parseSegment, decide_eq_true hhardened]
  simp only [if_true]
  rw [hdrop, reject_false _ (repr_ok hT n), ok_bind, intOfDigits_repr hT hn]
  rfl

/-- A minus sign is no digit. -/
theorem parse_negative {n : Int} (h : n < 0) (segment : Segment) :
    parseSegment T (str (toString n)) ≠ .ok segment := by
  intro hparse
  have hminus : str (toString n) = ofChar '-' :: str (toString (-n).toNat) := by
    rw [Int.toString_eq_repr, Int.repr_eq_if, if_neg (by omega), Nat.toString_eq_repr, str,
      String.toList_append, List.map_append]
    rfl
  have hdigits : ∀ text : Str, text.length ≠ 0 → ¬ (ofChar '-' :: text).dropLast.all T.isDigit := by
    intro text htext hall
    cases text with
    | nil => exact htext rfl
    | cons c rest =>
      rw [List.dropLast_cons_cons, List.all_cons, hT.minus] at hall
      cases hall
  have hnonempty : (str (toString (-n).toNat)).length ≠ 0 := by
    rw [str_repr, List.length_map]
    exact Nat.length_toDigits_pos.ne'
  rw [hminus, parseSegment] at hparse
  obtain ⟨hchecked, -⟩ := reject_bind_eq_ok.mp hparse
  rw [not_or, not_not] at hchecked
  split at hchecked
  · exact hdigits _ hnonempty hchecked.2
  · rw [List.all_cons, hT.minus] at hchecked
    cases hchecked.2

end Numbers

theorem slash_not_mem_repr (n : Nat) : ofChar '/' ∉ str (toString n) := by
  rw [str_repr]
  exact not_mem_digits (by decide) (digits_isDigit n)

theorem slash_not_mem_int (n : Int) : ofChar '/' ∉ str (toString n) := by
  rw [Int.toString_eq_repr, Int.repr_eq_if]
  split
  · exact slash_not_mem_repr _
  · rw [str, String.toList_append, List.map_append, List.mem_append, not_or]
    exact ⟨by decide, slash_not_mem_repr _⟩

theorem bip32Purpose_lt (addrType : AddrType) : bip32Purpose addrType < 10 ^ 10 := by
  cases addrType <;> decide

/-- The segments of the path of a leaf. -/
def leafTexts (purpose : Nat) (nonce : Int) : List Str :=
  [str (toString purpose) ++ str "'", str "0'", str "0'", str "0", str (toString nonce)]

theorem leafPath_eq (purpose : Nat) (nonce : Int) :
    leafPath purpose nonce = [ofChar '/'].intercalate (str "m" :: leafTexts purpose nonce) := by
  have hfirst : str "m/" = str "m" ++ [ofChar '/'] := rfl
  have hmiddle : str "'/0'/0'/0/" = str "'" ++ ([ofChar '/'] ++ (str "0'" ++ ([ofChar '/'] ++
      (str "0'" ++ ([ofChar '/'] ++ (str "0" ++ [ofChar '/'])))))) := rfl
  simp only [leafPath, leafTexts, hfirst, hmiddle, List.intercalate, List.intersperse,
    List.flatten_cons, List.flatten_nil, List.append_nil, List.append_assoc]

theorem segmentsOf_leafPath (purpose : Nat) (nonce : Int) :
    segmentsOf (leafPath purpose nonce) = leafTexts purpose nonce := by
  have hslash : ∀ text ∈ str "m" :: leafTexts purpose nonce, ofChar '/' ∉ text := by
    simp only [leafTexts, List.forall_mem_cons, List.mem_append, not_or]
    refine ⟨by decide, ⟨slash_not_mem_repr purpose, by decide⟩, by decide, by decide, by decide,
      slash_not_mem_int nonce, ?_⟩
    exact fun _ hmem => absurd hmem List.not_mem_nil
  rw [segmentsOf, leafPath_eq, List.splitOn_intercalate _ hslash (List.cons_ne_nil _ _)]
  rfl

section Tree

variable (P : Primitives) (hmacSha512 : Bytes → Bytes → Bytes) {T : CharacterTables}

theorem foldlM_parsed {texts : List Str} {segments : List Segment}
    (h : texts.mapM (parseSegment T) = .ok segments) (node : Node) :
    texts.foldlM (fun parent text => do
      let segment ← parseSegment T text
      deriveSegment P hmacSha512 parent segment) node =
        segments.foldlM (deriveSegment P hmacSha512) node := by
  have hall := mapM_eq_ok.mp h
  clear h
  induction hall generalizing node with
  | nil => rfl
  | cons hone _ ih =>
    rw [List.foldlM_cons, List.foldlM_cons, hone, ok_bind]
    exact bind_congr ih

/-- The node of the account: the last hardened one. -/
def account (stretched : Bytes) (purpose : Nat) : Except Exn Node :=
  [⟨purpose, true⟩, ⟨0, true⟩, ⟨0, true⟩].foldlM (deriveSegment P hmacSha512)
    (masterFromSeed hmacSha512 stretched)

theorem parse_leafTexts (hT : ReadsAscii T) {purpose nonce : Nat} (hpurpose : purpose < 10 ^ 10)
    (hnonce : nonce < 10 ^ 10) : (leafTexts purpose nonce).mapM (parseSegment T) =
      .ok [⟨purpose, true⟩, ⟨0, true⟩, ⟨0, true⟩, ⟨0, false⟩, ⟨nonce, false⟩] := by
  have htext : str (toString 0) = str "0" := by decide
  have hzero := parse_hardened hT (show 0 < 10 ^ 10 by decide)
  have hplain := parse_plain hT (show 0 < 10 ^ 10 by decide)
  rw [htext] at hzero hplain
  exact mapM_eq_ok.mpr (.cons (parse_hardened hT hpurpose) (.cons hzero (.cons hzero (.cons hplain
    (.cons (parse_plain hT hnonce) .nil)))))

/-- The walk to a leaf passes the account. -/
theorem derivePath_leafPath (hT : ReadsAscii T) {purpose nonce : Nat} (hpurpose : purpose < 10 ^ 10)
    (hnonce : nonce < 10 ^ 10) (stretched : Bytes) :
    derivePath P hmacSha512 T (masterFromSeed hmacSha512 stretched) (leafPath purpose nonce) =
      account P hmacSha512 stretched purpose >>= fun node =>
        [⟨0, false⟩, ⟨nonce, false⟩].foldlM (deriveSegment P hmacSha512) node := by
  have hstart : startsWith (str "m") (leafPath purpose nonce) = true := rfl
  have hroot : leafPath purpose nonce ≠ str "m" := by
    intro heq
    cases congrArg List.tail heq
  rw [derivePath, reject_false _ (not_not.mpr hstart), ok_bind, if_neg hroot,
    segmentsOf_leafPath, foldlM_parsed P hmacSha512 (parse_leafTexts hT hpurpose hnonce), account,
    ← List.foldlM_append]
  rfl

/-- A leaf is two plain derivations below the account. -/
theorem bip32Leaf_eq (hT : ReadsAscii T) {purpose nonce : Nat} (hpurpose : purpose < 10 ^ 10)
    (hnonce : nonce < 2 ^ 31) (stretched : Bytes) :
    bip32Leaf P hmacSha512 T stretched nonce purpose = (do
      let node ← account P hmacSha512 stretched purpose
      let leaf ← [⟨0, false⟩, ⟨nonce, false⟩].foldlM (deriveSegment P hmacSha512) node
      return leaf.privkey) := by
  have hsmall : nonce < 10 ^ 10 := hnonce.trans (by decide)
  have hfits : ¬ (nonce : Int) ≥ 0x80000000 := by omega
  rw [bip32Leaf, reject_false _ hfits, ok_bind, derivePath_leafPath P hmacSha512 hT hpurpose hsmall,
    bind_assoc]

/-- Other nonces have no leaf. -/
theorem bip32Leaf_refused (hT : ReadsAscii T) {purpose : Nat} {nonce : Int}
    (hnonce : ¬ (0 ≤ nonce ∧ nonce < 2 ^ 31)) (stretched secret : Bytes) :
    bip32Leaf P hmacSha512 T stretched nonce purpose ≠ .ok secret := by
  intro h
  obtain ⟨hfits, h⟩ := reject_bind_eq_ok.mp h
  obtain ⟨leaf, hleaf, -⟩ := bind_eq_ok.mp h
  obtain ⟨segments, _, hderives⟩ := derives_of_returns hleaf
  have hparsed := hderives.parsed
  rw [parsePath, segmentsOf_leafPath] at hparsed
  have hlen : segments.length = 5 := mapM_length hparsed
  obtain ⟨last, hlast⟩ : ∃ last, segments[4]? = some last :=
    ⟨_, List.getElem?_eq_getElem (by omega)⟩
  obtain ⟨text, htext, hparse⟩ := mapM_getElem? hparsed 4 last hlast
  cases htext
  exact parse_negative hT (by omega) _ hparse

end Tree

/-- The public half of a node. -/
structure Shown (E : Type) where
  point : E
  chainCode : Bytes

section Watching

variable {E : Type} [AddCommGroup E] (C : XOnly.Curve E Bytes)
  (hmacSha512 : Bytes → Bytes → Bytes)

open Classical in
/-- The compressed encoding of a point. -/
noncomputable def encode (p : E) : Bytes :=
  if C.IsEven p then 0x02 :: C.x p else 0x03 :: C.x p

open Classical in
/-- The child that can be computed from what a node shows. -/
noncomputable def Shown.child (node : Shown E) (index : Nat) : Option (Shown E) :=
  let hmacOut := hmacSha512 node.chainCode (encode C node.point ++ toBytesBig 4 index)
  let tweak := fromBytesBig (hmacOut.take 32)
  let point := node.point + tweak • C.gen
  if tweak < secp256k1N ∧ point ≠ 0 then some ⟨point, hmacOut.drop 32⟩ else none

open Classical in
/-- The public key of a nonce, from what the account shows. -/
noncomputable def watch (root : Shown E) (nonce : Int) : Option Bytes :=
  if 0 ≤ nonce ∧ nonce < 2 ^ 31 then
    ([0, nonce.toNat].foldlM (Shown.child C hmacSha512) root).map fun node => encode C node.point
  else none

def shown (node : Node) : Shown E := ⟨fromBytesBig node.privkey • C.gen, node.chainCode⟩

end Watching

/-- The private half of a node is a scalar of the curve. -/
def Valid (node : Node) : Prop :=
  ∃ d, 0 < d ∧ d < secp256k1N ∧ node.privkey = toBytesBig 32 d

section Simulation

variable {P : Primitives} {hmacSha512 : Bytes → Bytes → Bytes} {E : Type} [AddCommGroup E]
  {C : XOnly.Curve E Bytes} {point : P.PublicKey → E}

theorem deriveChild_valid {parent child : Node} {data : Bytes}
    (h : deriveChild hmacSha512 parent data = .ok child) : Valid child := by
  obtain ⟨-, h⟩ := reject_bind_eq_ok.mp h
  obtain ⟨hne, h⟩ := reject_bind_eq_ok.mp h
  cases h
  exact ⟨_, Nat.pos_of_ne_zero hne, Nat.mod_lt _ (by decide), rfl⟩

theorem deriveSegment_valid {parent child : Node} {segment : Segment}
    (h : deriveSegment P hmacSha512 parent segment = .ok child) : Valid child := by
  cases segment with
  | mk index isHardened =>
    cases isHardened with
    | true =>
      obtain ⟨_, -, hchild⟩ := deriveSegment_hardened h
      exact deriveChild_valid hchild
    | false =>
      obtain ⟨_, -, _, -, hchild⟩ := deriveSegment_normal h
      exact deriveChild_valid hchild

theorem foldlM_valid {segments : List Segment} {node leaf : Node} (hnode : Valid node)
    (h : segments.foldlM (deriveSegment P hmacSha512) node = .ok leaf) : Valid leaf := by
  refine foldlM_induct (motive := fun _ (s : Node) => Valid s) hnode ?_ h
  exact fun _ _ _ _ _ _ _ hstep => deriveSegment_valid hstep

theorem account_valid {stretched : Bytes} {purpose : Nat} {node : Node}
    (h : account P hmacSha512 stretched purpose = .ok node) : Valid node := by
  rw [account, List.foldlM_cons] at h
  obtain ⟨first, hfirst, h⟩ := bind_eq_ok.mp h
  exact foldlM_valid (deriveSegment_valid hfirst) h

open Classical in
/-- Adding a tweak to the scalar adds its point. -/
theorem deriveChild_shown (hC : Implements P C point) (parent : Node) (data : Bytes) :
    (deriveChild hmacSha512 parent data).toOption.map (shown C) =
      if fromBytesBig ((hmacSha512 parent.chainCode data).take 32) < secp256k1N ∧
          (shown C parent).point +
            fromBytesBig ((hmacSha512 parent.chainCode data).take 32) • C.gen ≠ 0 then
        some ⟨(shown C parent).point +
            fromBytesBig ((hmacSha512 parent.chainCode data).take 32) • C.gen,
          (hmacSha512 parent.chainCode data).drop 32⟩
      else none := by
  rw [deriveChild]
  generalize hmacSha512 parent.chainCode data = hmacOut
  generalize fromBytesBig (hmacOut.take 32) = tweak
  have hsum : (shown C parent).point + tweak • C.gen =
      ((tweak + fromBytesBig parent.privkey) % secp256k1N) • C.gen := by
    rw [← hC.order_eq, C.mod_nsmul, add_nsmul, add_comm]
    rfl
  have hzero : (shown C parent).point + tweak • C.gen = 0 ↔
      (tweak + fromBytesBig parent.privkey) % secp256k1N = 0 := by
    rw [hsum, C.nsmul_eq_zero, hC.order_eq, Nat.dvd_mod_iff dvd_rfl, ← Nat.dvd_iff_mod_eq_zero]
  by_cases hlt : tweak < secp256k1N
  · rw [reject_false _ (Nat.not_le.mpr hlt), ok_bind]
    by_cases hne : (tweak + fromBytesBig parent.privkey) % secp256k1N = 0
    · rw [if_neg (fun hcond => hcond.2 (hzero.mpr hne))]
      dsimp only
      rw [reject_true _ hne]
      rfl
    · rw [if_pos ⟨hlt, fun hcond => hne (hzero.mp hcond)⟩]
      dsimp only
      rw [reject_false _ hne, ok_bind]
      have hread := scalar_toBytesBig (Nat.mod_lt (tweak + fromBytesBig parent.privkey)
        (show 0 < secp256k1N by decide))
      rw [hsum]
      show some (shown C ⟨toBytesBig 32 _, _⟩) = _
      rw [shown, hread]
  · rw [if_neg (fun hcond => hlt hcond.1)]
    dsimp only
    rw [reject_true _ (Nat.not_lt.mp hlt)]
    rfl

theorem encode_pubkey (hC : Implements P C point) (key : P.PrivateKey) :
    privkey2pubkey P key = encode C (fromBytesBig (P.secret key) • C.gen) := by
  rw [← hC.publicKey_eq, privkey2pubkey, encode]
  split
  · next he => exact hC.format_even _ he
  · next ho => exact hC.format_odd _ ho

/-- The key of a valid node. -/
theorem Valid.key (hC : Implements P C point) {node : Node} (h : Valid node) :
    ∃ key, privateKey P node.privkey = .ok key ∧ P.secret key = node.privkey := by
  obtain ⟨d, hpos, hlt, hprivkey⟩ := h
  obtain ⟨key, hkey, hsecret⟩ := hC.privateKey_ok d hpos hlt
  refine ⟨key, ?_, hsecret.trans hprivkey.symm⟩
  rw [privateKey, hprivkey, hkey]
  rfl

/-- A plain derivation shows what is computed from what its parent shows. -/
theorem deriveSegment_shown (hC : Implements P C point) {node : Node} (hnode : Valid node)
    {index : Nat} (hindex : index < 2 ^ 32) :
    (deriveSegment P hmacSha512 node ⟨index, false⟩).toOption.map (shown C) =
      (shown C node).child C hmacSha512 index := by
  obtain ⟨key, hkey, hsecret⟩ := hnode.key hC
  have hserialized : indexBytes index = .ok (toBytesBig 4 index) :=
    indexBytes_eq_ok.mpr ⟨hindex, rfl⟩
  have hpubkey : privkey2pubkey P key = encode C (shown C node).point := by
    rw [encode_pubkey hC, hsecret, shown]
  rw [deriveSegment, if_neg Bool.false_ne_true, hkey, ok_bind, deriveChildNormal, hserialized,
    ok_bind, deriveChild_shown hC, hpubkey]
  simp only [Shown.child]
  congr

/-- So does a walk of plain derivations. -/
theorem foldlM_shown (hC : Implements P C point) {indices : List Nat}
    (hindices : ∀ index ∈ indices, index < 2 ^ 32) {node : Node} (hnode : Valid node) :
    ((indices.map fun index => (⟨index, false⟩ : Segment)).foldlM (deriveSegment P hmacSha512)
        node).toOption.map (shown C) =
      indices.foldlM (Shown.child C hmacSha512) (shown C node) := by
  induction indices generalizing node with
  | nil => rfl
  | cons index indices ih =>
    obtain ⟨hindex, hrest⟩ := List.forall_mem_cons.mp hindices
    have hstep := @deriveSegment_shown P hmacSha512 _ _ _ _ hC _ hnode _ hindex
    rw [List.map_cons, List.foldlM_cons, List.foldlM_cons, ← hstep]
    cases hchild : deriveSegment P hmacSha512 node ⟨index, false⟩ with
    | error e => rfl
    | ok child => exact ih hrest (deriveSegment_valid hchild)

end Simulation

/-- The account of a phrase: only the BIP-39 derivation has one for each address type. -/
def walletAccount (P : Primitives) (hmacSha512 : Bytes → Bytes → Bytes)
    (stretch : Kdf → Str → Str → Except Exn Bytes) (seed passphrase : Str) (kdf : Kdf)
    (addrType : AddrType) : Except Exn Node := do
  let stretched ← stretch kdf seed passphrase
  account P hmacSha512 stretched (if kdf = .pbkdf2 then bip32Purpose addrType else 44)

/-- One form of a nonce. -/
structure AddressForm (κ : Type) where
  addrType : AddrType
  privkey : κ
  address : Str

/-- The key of a nonce in one form, as `TPrivKey` opens it. -/
def addressForm (P : Primitives) (D : Derivations) (seed : Str) (nonce : Int) (passphrase : Str)
    (addrType : AddrType) : Except Exn (AddressForm P.PrivateKey) := do
  reject (seed = []) (.valueError "seed cannot be empty")
  let privkey ← seed2privkey P D seed nonce passphrase none (some addrType)
  let address ← addressForKey P privkey addrType
  return ⟨addrType, privkey, address⟩

def nonceAddressForms (P : Primitives) (D : Derivations) (seed : Str) (nonce : Int)
    (passphrase : Str) : Except Exn (List (AddressForm P.PrivateKey)) :=
  addrTypes.mapM (addressForm P D seed nonce passphrase)

/-- The address of a public key. -/
def pubkeyAddress (P : Primitives) (pubkey : Bytes) : AddrType → Except Exn Str
  | .native => pubkey2segwitAddr P pubkey
  | .taproot => pubkey2taprootAddr P pubkey
  | .legacy => .ok (pubkey2addr P pubkey)

theorem addressForKey_eq (P : Primitives) (key : P.PrivateKey) (addrType : AddrType) :
    addressForKey P key addrType = pubkeyAddress P (privkey2pubkey P key) addrType := by
  cases addrType <;> rfl

/-- The address of a nonce in one form, from what the account of the form shows. -/
noncomputable def watchForm (P : Primitives) {E : Type} [AddCommGroup E]
    (C : XOnly.Curve E Bytes) (hmacSha512 : Bytes → Bytes → Bytes)
    (roots : AddrType → Option (Shown E)) (nonce : Int) (addrType : AddrType) :
    Option (AddrType × Str) :=
  ((roots addrType).bind fun root => watch C hmacSha512 root nonce).bind fun pubkey =>
    (pubkeyAddress P pubkey addrType).toOption.map fun address => (addrType, address)

/-- What the accounts of a phrase show. -/
def walletRoots (P : Primitives) {E : Type} [AddCommGroup E] (C : XOnly.Curve E Bytes)
    (hmacSha512 : Bytes → Bytes → Bytes) (stretch : Kdf → Str → Str → Except Exn Bytes)
    (seed passphrase : Str) (addrType : AddrType) : Option (Shown E) :=
  (walletAccount P hmacSha512 stretch seed passphrase .pbkdf2 addrType).toOption.map (shown C)

theorem toOption_mapM {α β γ : Type} (f : α → Except Exn β) (g : β → γ) (xs : List α) :
    (xs.mapM f).toOption.map (List.map g) = xs.mapM fun x => (f x).toOption.map g := by
  induction xs with
  | nil => rfl
  | cons x xs ih =>
    rw [List.mapM_cons, List.mapM_cons, ← ih]
    cases f x with
    | error e => rfl
    | ok y => cases xs.mapM f <;> rfl

section Wallet

variable {P : Primitives} {hmacSha512 : Bytes → Bytes → Bytes} {T : CharacterTables}
  {keccak256 blake2b256 : Bytes → Bytes} {stretch : Kdf → Str → Str → Except Exn Bytes}
  {E : Type} [AddCommGroup E] {C : XOnly.Curve E Bytes} {point : P.PublicKey → E}

/-- With a passphrase the key is the leaf itself. -/
theorem seed2privkey_leaf {seed passphrase : Str} {kdf : Option Kdf}
    {addrType : Option AddrType} (hpass : passphrase ≠ [])
    (hkdf : kdf.getD (defaultKdf passphrase) ≠ .yubtc) (nonce : Int) :
    seed2privkey P (treeDerivations P hmacSha512 T keccak256 blake2b256 stretch) seed nonce
        passphrase kdf addrType = (do
      let stretched ← stretch (kdf.getD (defaultKdf passphrase)) seed passphrase
      let raw ← bip32Leaf P hmacSha512 T stretched nonce
        (if kdf.getD (defaultKdf passphrase) = .pbkdf2 then bip32Purpose (addrType.getD .legacy)
          else 44)
      privateKey P raw) := by
  rw [seed2privkey]
  generalize kdf.getD (defaultKdf passphrase) = resolved at hkdf
  simp only [if_neg hkdf]
  cases resolved with
  | yubtc => exact absurd rfl hkdf
  | pbkdf2 =>
    simp only [seed2bin, Option.getD_some, reject_false _ hpass, ok_bind, bind_assoc, if_true]
    rfl
  | argon2id =>
    simp only [seed2bin, Option.getD_some, reject_false _ hpass, ok_bind, bind_assoc]
    rfl
  | scrypt =>
    simp only [seed2bin, Option.getD_some, reject_false _ hpass, ok_bind, bind_assoc]
    rfl

theorem watch_eq {root : Shown E} {nonce : Nat} (h : nonce < 2 ^ 31) :
    watch C hmacSha512 root nonce =
      ([0, nonce].foldlM (Shown.child C hmacSha512) root).map fun node => encode C node.point := by
  have hrange : 0 ≤ (nonce : Int) ∧ (nonce : Int) < 2 ^ 31 := ⟨Int.natCast_nonneg _, by omega⟩
  rw [watch, if_pos hrange, Int.toNat_natCast]

theorem pubkey_shown (hC : Implements P C point) {node : Node} (hnode : Valid node) :
    (privateKey P node.privkey).toOption.map (privkey2pubkey P) =
      some (encode C (shown C node).point) := by
  obtain ⟨key, hkey, hsecret⟩ := hnode.key hC
  rw [hkey, shown, ← hsecret, ← encode_pubkey hC]
  rfl

/-- The leaves of an account are the ones that are watched. -/
theorem leaves_watched (hC : Implements P C point) {node : Node} (hnode : Valid node) {nonce : Nat}
    (hnonce : nonce < 2 ^ 31) :
    ([⟨0, false⟩, ⟨nonce, false⟩].foldlM (deriveSegment P hmacSha512) node >>= fun leaf =>
        privateKey P leaf.privkey).toOption.map (privkey2pubkey P) =
      watch C hmacSha512 (shown C node) nonce := by
  have hindices : ∀ index ∈ [0, nonce], index < 2 ^ 32 := by
    simp only [List.forall_mem_cons]
    exact ⟨by decide, by omega, fun _ hmem => absurd hmem List.not_mem_nil⟩
  have hwalk := @foldlM_shown P hmacSha512 _ _ _ _ hC _ hindices _ hnode
  rw [List.map_cons, List.map_cons, List.map_nil] at hwalk
  rw [watch_eq hnonce, ← hwalk]
  cases hleaf : [⟨0, false⟩, ⟨nonce, false⟩].foldlM (deriveSegment P hmacSha512) node with
  | error e => rfl
  | ok leaf => exact pubkey_shown hC (foldlM_valid hnode hleaf)

/-- So are those of every stretched passphrase, and other nonces have none. -/
theorem leaf_watched (hC : Implements P C point) (hT : ReadsAscii T) {purpose : Nat}
    (hpurpose : purpose < 10 ^ 10) (stretched : Bytes) (nonce : Int) :
    (bip32Leaf P hmacSha512 T stretched nonce purpose >>= privateKey P).toOption.map
        (privkey2pubkey P) =
      ((account P hmacSha512 stretched purpose).toOption.map (shown C)).bind fun root =>
        watch C hmacSha512 root nonce := by
  by_cases hrange : 0 ≤ nonce ∧ nonce < 2 ^ 31
  · lift nonce to Nat using hrange.1
    have hnonce : nonce < 2 ^ 31 := by omega
    rw [bip32Leaf_eq P hmacSha512 hT hpurpose hnonce]
    cases haccount : account P hmacSha512 stretched purpose with
    | error e => rfl
    | ok node =>
      have hroot : (Except.ok node : Except Exn Node).toOption = some node := rfl
      simp only [ok_bind, bind_assoc, pure_bind]
      rw [leaves_watched hC (account_valid haccount) hnonce, hroot, Option.map_some,
        Option.bind_some]
  · have hnone : ∀ root : Shown E, watch C hmacSha512 root nonce = none := by
      intro root
      rw [watch, if_neg hrange]
    rw [funext hnone, Option.bind_fun_none]
    cases hleaf : bip32Leaf P hmacSha512 T stretched nonce purpose with
    | ok secret => exact absurd hleaf (bip32Leaf_refused P hmacSha512 hT hrange stretched secret)
    | error e => rfl

/-- With a passphrase, every public key of the wallet is watched. -/
theorem pubkeys_watched (hC : Implements P C point) (hT : ReadsAscii T) {seed passphrase : Str}
    {kdf : Option Kdf} {addrType : Option AddrType} (hpass : passphrase ≠ [])
    (hkdf : kdf.getD (defaultKdf passphrase) ≠ .yubtc) (nonce : Int) :
    (seed2privkey P (treeDerivations P hmacSha512 T keccak256 blake2b256 stretch) seed nonce
        passphrase kdf addrType).toOption.map (privkey2pubkey P) =
      ((walletAccount P hmacSha512 stretch seed passphrase (kdf.getD (defaultKdf passphrase))
        (addrType.getD .legacy)).toOption.map (shown C)).bind fun root =>
          watch C hmacSha512 root nonce := by
  rw [seed2privkey_leaf hpass hkdf, walletAccount]
  cases stretch (kdf.getD (defaultKdf passphrase)) seed passphrase with
  | error e => rfl
  | ok stretched =>
    have hpurpose : (if kdf.getD (defaultKdf passphrase) = .pbkdf2 then
        bip32Purpose (addrType.getD .legacy) else 44) < 10 ^ 10 := by
      split
      · exact bip32Purpose_lt _
      · decide
    exact leaf_watched hC hT hpurpose stretched nonce

theorem addressForm_watched (hC : Implements P C point) (hT : ReadsAscii T)
    {seed passphrase : Str} (hseed : seed ≠ []) (hpass : passphrase ≠ []) (nonce : Int)
    (addrType : AddrType) :
    (addressForm P (treeDerivations P hmacSha512 T keccak256 blake2b256 stretch) seed nonce
        passphrase addrType).toOption.map (fun form => (form.addrType, form.address)) =
      watchForm P C hmacSha512 (walletRoots P C hmacSha512 stretch seed passphrase) nonce
        addrType := by
  have hdefault : defaultKdf passphrase = .pbkdf2 := if_neg hpass
  have hkdf : (none : Option Kdf).getD (defaultKdf passphrase) ≠ .yubtc := by
    rw [Option.getD_none, hdefault]
    decide
  have hpubkey := @pubkeys_watched P hmacSha512 T keccak256 blake2b256 stretch _ _ _ _ hC hT seed _
    none (some addrType) hpass hkdf nonce
  rw [Option.getD_none, hdefault, Option.getD_some] at hpubkey
  rw [watchForm, walletRoots, ← hpubkey, addressForm, reject_false _ hseed, ok_bind]
  cases seed2privkey P (treeDerivations P hmacSha512 T keccak256 blake2b256 stretch) seed nonce
      passphrase none (some addrType) with
  | error e => rfl
  | ok key =>
    have hroot : (Except.ok key : Except Exn P.PrivateKey).toOption = some key := rfl
    rw [ok_bind, addressForKey_eq, hroot, Option.map_some, Option.bind_some]
    cases pubkeyAddress P (privkey2pubkey P key) addrType <;> rfl

/-- For every phrase, passphrase and nonce: the wallet has addresses exactly when they can be
computed from the points and the chain codes of its accounts, and they are the same. -/
theorem addresses_watched (hC : Implements P C point) (hT : ReadsAscii T) {seed passphrase : Str}
    (hseed : seed ≠ []) (hpass : passphrase ≠ []) (nonce : Int) :
    (nonceAddressForms P (treeDerivations P hmacSha512 T keccak256 blake2b256 stretch) seed nonce
        passphrase).toOption.map (List.map fun form => (form.addrType, form.address)) =
      addrTypes.mapM (watchForm P C hmacSha512
        (walletRoots P C hmacSha512 stretch seed passphrase) nonce) := by
  rw [nonceAddressForms, toOption_mapM]
  exact congrArg addrTypes.mapM (funext (addressForm_watched hC hT hseed hpass nonce))

end Wallet

theorem asciiTables_reads : ReadsAscii asciiTables where
  isDigit _ hc := decide_eq_true (digit_range hc)
  decimal _ hc := if_pos (digit_range hc)
  minus := rfl

/-- A stretch to 64 bytes. -/
def standInStretch (_ : Kdf) (seed passphrase : Str) : Except Exn Bytes := do
  let phrase ← str2bytes (seed ++ passphrase)
  return standInDigest 64 phrase

def residueDerivations : Derivations :=
  treeDerivations residues standInHmac asciiTables id id standInStretch

theorem addresses_watched_sample : ∃ forms : List (AddrType × Str),
    (nonceAddressForms residues residueDerivations (str "correct horse") 7
      (str "battery")).toOption.map (List.map fun form => (form.addrType, form.address)) =
        some forms ∧
    addrTypes.mapM (watchForm residues (residueCurve secp256k1N_odd) standInHmac
      (walletRoots residues (residueCurve secp256k1N_odd) standInHmac standInStretch
        (str "correct horse") (str "battery")) 7) = some forms := by
  have hwatched := @addresses_watched residues standInHmac asciiTables id id standInStretch _ _ _ _
    residues_implements asciiTables_reads (str "correct horse") (str "battery") (by decide)
    (by decide) 7
  have hsome : (nonceAddressForms residues residueDerivations (str "correct horse") 7
      (str "battery")).toOption.isSome = true := by decide +kernel
  obtain ⟨forms, hforms⟩ := Option.isSome_iff_exists.mp hsome
  have hlisted := congrArg (Option.map (List.map fun form : AddressForm residues.PrivateKey =>
    (form.addrType, form.address))) hforms
  exact ⟨_, hlisted, hwatched.symm.trans hlisted⟩

end Yubtc.WatchOnly
