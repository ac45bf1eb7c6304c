import Yubtc.Seeds

/-!
# Paths of the key tree

A path names a leaf by a row of indices, each with or without hardening. The derivation of a child
hashes the index in four bytes, of which the highest bit says whether it is hardened.
-/
namespace Yubtc.HdPaths

open LittleEndian Wire Text Errors ExceptRules Crypto

/-- What the interpreter knows of characters: `str.isdigit` and the decimal value of one of them,
and the `repr` of a string. -/
structure CharacterTables where
  isDigit : CodePoint → Bool
  decimal : CodePoint → Option Nat
  repr : Str → String

/-- One part of a path. -/
structure Segment where
  index : Nat
  hardened : Bool
  deriving DecidableEq

/-- A private key with its chain code. -/
structure Node where
  privkey : Bytes
  chainCode : Bytes
  deriving DecidableEq

/-- `index.to_bytes(4, 'big')`. -/
def indexBytes (index : Nat) : Except Exn Bytes := do
  reject (2 ^ 32 ≤ index) .overflowError
  return toBytesBig 4 index

section Derivation

variable (P : Primitives) (hmacSha512 : Bytes → Bytes → Bytes) (T : CharacterTables)

/-- The common end of the two derivations. -/
def deriveChild (parent : Node) (data : Bytes) : Except Exn Node := do
  let hmacOut := hmacSha512 parent.chainCode data
  let ilInt := fromBytesBig (hmacOut.take 32)
  reject (ilInt ≥ secp256k1N) (.valueError "IL out of range, derive next child")
  let childInt := (ilInt + fromBytesBig parent.privkey) % secp256k1N
  reject (childInt = 0) (.valueError "child key is zero, derive next child")
  return ⟨toBytesBig 32 childInt, hmacOut.drop 32⟩

/-- `_derive_child_hardened`. -/
def deriveChildHardened (parent : Node) (index : Nat) : Except Exn Node := do
  let serialized ← indexBytes (index ||| 0x80000000)
  deriveChild hmacSha512 parent (0x00 :: (parent.privkey ++ serialized))

/-- `_derive_child_normal`. -/
def deriveChildNormal (parent : Node) (pubkey : Bytes) (index : Nat) : Except Exn Node := do
  let serialized ← indexBytes index
  deriveChild hmacSha512 parent (pubkey ++ serialized)

/-- `int(text)` of characters that `isdigit` accepts, which include a few without a decimal
value; it converts 4300 digits at most. -/
def intOfDigits (text : Str) : Except Exn Nat := do
  let digits ← text.mapM fun c => orElseThrow
    (.valueError ("invalid literal for int() with base 10: " ++ T.repr text)) (T.decimal c)
  reject (4300 < text.length) (.valueError ("Exceeds the limit (4300 digits) for integer string " ++
    "conversion: value has " ++ toString text.length ++
    " digits; use sys.set_int_max_str_digits() to increase the limit"))
  return digits.foldl (fun n d => 10 * n + d) 0

def parseSegment (segment : Str) : Except Exn Segment := do
  let hardened := decide ((str "'") <:+ segment)
  let indexStr := if hardened then segment.dropLast else segment
  reject (indexStr = [] ∨ ¬ indexStr.all T.isDigit)
    (.valueError ("invalid path segment: " ++ T.repr segment))
  let index ← intOfDigits T indexStr
  return ⟨index, hardened⟩

def deriveSegment (parent : Node) (segment : Segment) : Except Exn Node :=
  if segment.hardened then deriveChildHardened hmacSha512 parent segment.index
  else do
    let privkey ← Seeds.privateKey P parent.privkey
    deriveChildNormal hmacSha512 parent (privkey2pubkey P privkey) segment.index

/-- `path.split('/')[1:]`. -/
def segmentsOf (path : Str) : List Str := (path.splitOn (ofChar '/')).tail

def derivePath (master : Node) (path : Str) : Except Exn Node := do
  reject (¬ startsWith (str "m") path) (.valueError "path must start with 'm'")
  if path = str "m" then return master
  (segmentsOf path).foldlM (fun parent text => do
    let segment ← parseSegment T text
    deriveSegment P hmacSha512 parent segment) master

end Derivation

/-- One derivation: which of the two, and the four bytes of its index. -/
structure Step where
  hardened : Bool
  serialized : Bytes
  deriving DecidableEq

def parsePath (T : CharacterTables) (path : Str) : Except Exn (List Segment) :=
  (segmentsOf path).mapM (parseSegment T)

/-- A walk down the tree, with the segments it follows and the indices it hashes. -/
inductive Derivation (P : Primitives) (hmacSha512 : Bytes → Bytes → Bytes) :
    Node → List Segment → List Step → Node → Prop
  | leaf (node : Node) : Derivation P hmacSha512 node [] [] node
  | hardened {parent child leaf : Node} {index : Nat} {serialized : Bytes}
      {segments : List Segment} {steps : List Step}
      (hindex : indexBytes (index ||| 0x80000000) = .ok serialized)
      (hchild : deriveChild hmacSha512 parent (0x00 :: (parent.privkey ++ serialized)) = .ok child)
      (hrest : Derivation P hmacSha512 child segments steps leaf) :
      Derivation P hmacSha512 parent (⟨index, true⟩ :: segments) (⟨true, serialized⟩ :: steps) leaf
  | normal {parent child leaf : Node} {privkey : P.PrivateKey} {index : Nat} {serialized : Bytes}
      {segments : List Segment} {steps : List Step}
      (hkey : Seeds.privateKey P parent.privkey = .ok privkey)
      (hindex : indexBytes index = .ok serialized)
      (hchild : deriveChild hmacSha512 parent (privkey2pubkey P privkey ++ serialized) = .ok child)
      (hrest : Derivation P hmacSha512 child segments steps leaf) :
      Derivation P hmacSha512 parent (⟨index, false⟩ :: segments) (⟨false, serialized⟩ :: steps)
        leaf

/-- A path that returns, with what happened on the way. -/
structure Derives (P : Primitives) (hmacSha512 : Bytes → Bytes → Bytes) (T : CharacterTables)
    (master : Node) (path : Str) (segments : List Segment) (steps : List Step) (leaf : Node) :
    Prop where
  returns : derivePath P hmacSha512 T master path = .ok leaf
  parsed : parsePath T path = .ok segments
  derivation : Derivation P hmacSha512 master segments steps leaf

section Walks

variable {P : Primitives} {hmacSha512 : Bytes → Bytes → Bytes} {T : CharacterTables}

theorem deriveSegment_hardened {parent child : Node} {index : Nat}
    (h : deriveSegment P hmacSha512 parent ⟨index, true⟩ = .ok child) :
    ∃ serialized, indexBytes (index ||| 0x80000000) = .ok serialized ∧
      deriveChild hmacSha512 parent (0x00 :: (parent.privkey ++ serialized)) = .ok child := by
  rw [deriveSegment, if_pos rfl, deriveChildHardened] at h
  exact bind_eq_ok.mp h

theorem deriveSegment_normal {parent child : Node} {index : Nat}
    (h : deriveSegment P hmacSha512 parent ⟨index, false⟩ = .ok child) :
    ∃ privkey, Seeds.privateKey P parent.privkey = .ok privkey ∧
      ∃ serialized, indexBytes index = .ok serialized ∧
        deriveChild hmacSha512 parent (privkey2pubkey P privkey ++ serialized) = .ok child := by
  rw [deriveSegment, if_neg Bool.false_ne_true] at h
  obtain ⟨privkey, hkey, h⟩ := bind_eq_ok.mp h
  rw [deriveChildNormal] at h
  exact ⟨privkey, hkey, bind_eq_ok.mp h⟩

/-- The loop over the texts of the segments is a walk. -/
theorem foldlM_derivation {texts : List Str} {master leaf : Node}
    (h : texts.foldlM (fun parent text => do
      let segment ← parseSegment T text
      deriveSegment P hmacSha512 parent segment) master = .ok leaf) :
    ∃ segments steps, texts.mapM (parseSegment T) = .ok segments ∧
      Derivation P hmacSha512 master segments steps leaf := by
  induction texts generalizing master with
  | nil =>
    cases h
    exact ⟨[], [], rfl, .leaf _⟩
  | cons text texts ih =>
    rw [List.foldlM_cons] at h
    obtain ⟨child, hchild, hrest⟩ := bind_eq_ok.mp h
    obtain ⟨segment, hsegment, hchild⟩ := bind_eq_ok.mp hchild
    obtain ⟨segments, steps, hparsed, hwalk⟩ := ih hrest
    have hall : (text :: texts).mapM (parseSegment T) = .ok (segment :: segments) :=
      mapM_eq_ok.mpr (.cons hsegment (mapM_eq_ok.mp hparsed))
    cases segment with
    | mk index isHardened =>
      cases isHardened with
      | true =>
        obtain ⟨serialized, hindex, hderived⟩ := deriveSegment_hardened hchild
        exact ⟨_, _, hall, .hardened hindex hderived hwalk⟩
      | false =>
        obtain ⟨privkey, hkey, serialized, hindex, hderived⟩ := deriveSegment_normal hchild
        exact ⟨_, _, hall, .normal hkey hindex hderived hwalk⟩

/-- Whenever a path returns, there is a walk that its segments describe. -/
theorem derives_of_returns {master leaf : Node} {path : Str}
    (h : derivePath P hmacSha512 T master path = .ok leaf) :
    ∃ segments steps, Derives P hmacSha512 T master path segments steps leaf := by
  have hreturns := h
  rw [derivePath, reject_bind_eq_ok] at h
  obtain ⟨-, h⟩ := h
  by_cases hroot : path = str "m"
  · rw [if_pos hroot] at h
    cases h
    refine ⟨[], [], hreturns, ?_, .leaf _⟩
    rw [hroot]
    rfl
  · rw [if_neg hroot] at h
    obtain ⟨segments, steps, hparsed, hwalk⟩ := foldlM_derivation h
    exact ⟨segments, steps, hreturns, hparsed, hwalk⟩

end Walks

/-- The number that is written in four bytes. -/
def Segment.childIndex (segment : Segment) : Nat :=
  if segment.hardened then segment.index ||| 0x80000000 else segment.index

def Segment.step (segment : Segment) : Step :=
  ⟨segment.hardened, toBytesBig 4 segment.childIndex⟩

theorem indexBytes_eq_ok {index : Nat} {serialized : Bytes} :
    indexBytes index = .ok serialized ↔ index < 2 ^ 32 ∧ serialized = toBytesBig 4 index := by
  rw [indexBytes, reject_bind_eq_ok, Nat.not_le, pure_eq_ok, Except.ok.injEq,
    eq_comm (a := serialized)]

/-- The segments decide what is hashed, and every index has fitted. -/
theorem Derivation.steps_eq {P : Primitives} {hmacSha512 : Bytes → Bytes → Bytes}
    {master leaf : Node} {segments : List Segment} {steps : List Step}
    (h : Derivation P hmacSha512 master segments steps leaf) :
    steps = segments.map Segment.step ∧ ∀ segment ∈ segments, segment.childIndex < 2 ^ 32 := by
  induction h with
  | leaf node => exact ⟨rfl, fun segment hmem => absurd hmem List.not_mem_nil⟩
  | hardened hindex _ _ ih =>
    obtain ⟨hlt, rfl⟩ := indexBytes_eq_ok.mp hindex
    rw [ih.1]
    exact ⟨rfl, List.forall_mem_cons.mpr ⟨hlt, ih.2⟩⟩
  | normal _ hindex _ _ ih =>
    obtain ⟨hlt, rfl⟩ := indexBytes_eq_ok.mp hindex
    rw [ih.1]
    exact ⟨rfl, List.forall_mem_cons.mpr ⟨hlt, ih.2⟩⟩

/-- Setting the highest bit of four bytes, whether it was set or not. -/
theorem or_highBit {index : Nat} (h : index < 2 ^ 32) :
    index ||| 0x80000000 = 2 ^ 31 + index % 2 ^ 31 := by
  have hset : ∀ low < 2 ^ 31, 2 ^ 31 ||| low = 2 ^ 31 + low := by
    intro low hlow
    have hor := Nat.two_pow_add_eq_or_of_lt hlow 1
    rw [Nat.mul_one] at hor
    exact hor.symm
  rcases Nat.lt_or_ge index (2 ^ 31) with hclear | hhigh
  · rw [Nat.mod_eq_of_lt hclear, Nat.or_comm]
    exact hset index hclear
  · obtain ⟨low, rfl⟩ := Nat.exists_eq_add_of_le hhigh
    have hlow : low < 2 ^ 31 := by omega
    rw [← hset low hlow, Nat.or_right_comm]
    exact (congrArg (· ||| low) (Nat.or_self _)).trans
      (by rw [hset low hlow, Nat.add_mod_left, Nat.mod_eq_of_lt hlow])

/-- The steps of a path that returns are those of its segments. -/
theorem derives_of_parsed {P : Primitives} {hmacSha512 : Bytes → Bytes → Bytes}
    {T : CharacterTables} {master leaf : Node} {path : Str} {segments : List Segment}
    (h : derivePath P hmacSha512 T master path = .ok leaf)
    (hparsed : parsePath T path = .ok segments) :
    Derives P hmacSha512 T master path segments (segments.map Segment.step) leaf := by
  obtain ⟨segments', steps, hderives⟩ := derives_of_returns h
  cases hparsed.symm.trans hderives.parsed
  rw [← hderives.derivation.steps_eq.1]
  exact hderives

/-- A segment without the bit that hardening sets anyway. -/
def Segment.masked (segment : Segment) : Segment :=
  if segment.hardened then ⟨segment.index % 2 ^ 31, true⟩ else segment

theorem childIndex_eq {segment : Segment} (h : segment.childIndex < 2 ^ 32) :
    segment.childIndex =
      if segment.hardened then 2 ^ 31 + segment.masked.index else segment.masked.index := by
  rw [Segment.childIndex] at h ⊢
  rw [Segment.masked]
  split
  · rename_i hhardened
    rw [if_pos hhardened] at h
    exact or_highBit (Nat.left_le_or.trans_lt h)
  · rfl

theorem masked_hardened (segment : Segment) : segment.masked.hardened = segment.hardened := by
  rw [Segment.masked]
  split
  · rename_i hhardened
    exact hhardened.symm
  · rfl

theorem step_eq_iff {segment segment' : Segment} (h : segment.childIndex < 2 ^ 32)
    (h' : segment'.childIndex < 2 ^ 32) :
    segment.step = segment'.step ↔ segment.masked = segment'.masked := by
  have hbytes : toBytesBig 4 segment.childIndex = toBytesBig 4 segment'.childIndex ↔
      segment.childIndex = segment'.childIndex := by
    constructor
    · intro heq
      rw [← @fromBytesBig_toBytesBig 4 _ h, heq, fromBytesBig_toBytesBig h']
    · exact congrArg _
  have hmasked : segment.masked = segment'.masked ↔
      segment.masked.index = segment'.masked.index ∧
        segment.masked.hardened = segment'.masked.hardened := by
    cases segment.masked
    cases segment'.masked
    rw [Segment.mk.injEq]
  rw [hmasked, masked_hardened, masked_hardened, Segment.step, Segment.step, Step.mk.injEq, hbytes,
    childIndex_eq h, childIndex_eq h', and_comm]
  apply and_congr_left
  intro hsame
  rw [hsame]
  split
  · exact Nat.add_left_cancel_iff
  · rfl

theorem map_eq_map_iff {α β γ : Type} {f : α → β} {g : α → γ} {l l' : List α}
    (h : ∀ a ∈ l, ∀ b ∈ l', f a = f b ↔ g a = g b) :
    l.map f = l'.map f ↔ l.map g = l'.map g := by
  induction l generalizing l' with
  | nil => cases l' <;> simp
  | cons a l ih =>
    cases l' with
    | nil => simp
    | cons b l' =>
      have hrest := @ih l' fun x hx y hy =>
        h x (List.mem_cons_of_mem _ hx) y (List.mem_cons_of_mem _ hy)
      rw [List.map_cons, List.map_cons, List.map_cons, List.map_cons, List.cons.injEq,
        List.cons.injEq, h a List.mem_cons_self b List.mem_cons_self, hrest]

/-- The highest bit tells the two derivations apart. -/
def InRange (step : Step) : Prop :=
  if step.hardened then 2 ^ 31 ≤ fromBytesBig step.serialized
  else fromBytesBig step.serialized < 2 ^ 31

/-- Different segments hash different indices, and every index shows which derivation it is of. -/
structure Unambiguous (segments segments' : List Segment) (steps steps' : List Step) : Prop where
  distinct : segments ≠ segments' → steps ≠ steps'
  range : ∀ step ∈ steps ++ steps', InRange step

/-- No plain index sets the highest bit, and the hardened ones do not differ in that bit alone. -/
structure Regular (segments segments' : List Segment) : Prop where
  plain : ∀ segment ∈ segments ++ segments', segment.hardened = false → segment.index < 2 ^ 31
  masked : segments.map Segment.masked = segments'.map Segment.masked → segments = segments'

theorem step_inRange_iff {segment : Segment} (h : segment.childIndex < 2 ^ 32) :
    InRange segment.step ↔ (segment.hardened = false → segment.index < 2 ^ 31) := by
  rw [InRange, Segment.step, fromBytesBig_toBytesBig h]
  by_cases hhardened : segment.hardened = true
  · rw [if_pos hhardened, childIndex_eq h, if_pos hhardened]
    simp [hhardened]
  · rw [if_neg hhardened, Segment.childIndex, if_neg hhardened]
    simp [hhardened]

section Paths

variable {P : Primitives} {hmacSha512 : Bytes → Bytes → Bytes} {T : CharacterTables}
variable {master leaf leaf' : Node} {path path' : Str}
variable {segments segments' : List Segment} {steps steps' : List Step}

theorem unambiguous_iff (h : Derivation P hmacSha512 master segments steps leaf)
    (h' : Derivation P hmacSha512 master segments' steps' leaf') :
    Unambiguous segments segments' steps steps' ↔ Regular segments segments' := by
  obtain ⟨rfl, hfits⟩ := h.steps_eq
  obtain ⟨rfl, hfits'⟩ := h'.steps_eq
  have hsame : segments.map Segment.step = segments'.map Segment.step ↔
      segments.map Segment.masked = segments'.map Segment.masked :=
    map_eq_map_iff fun a ha b hb => step_eq_iff (hfits a ha) (hfits' b hb)
  have hall : ∀ segment ∈ segments ++ segments', segment.childIndex < 2 ^ 32 := by
    intro segment hmem
    exact (List.mem_append.mp hmem).elim (hfits segment) (hfits' segment)
  have hrange : (∀ step ∈ segments.map Segment.step ++ segments'.map Segment.step, InRange step) ↔
      ∀ segment ∈ segments ++ segments', segment.hardened = false → segment.index < 2 ^ 31 := by
    rw [← List.map_append, List.forall_mem_map]
    exact forall₂_congr fun segment hmem => step_inRange_iff (hall segment hmem)
  constructor
  · intro hun
    refine ⟨hrange.mp hun.range, fun hmasked => ?_⟩
    by_contra hne
    exact hun.distinct hne (hsame.mpr hmasked)
  · intro hregular
    exact ⟨fun hne heq => hne (hregular.masked (hsame.mp heq)), hrange.mpr hregular.plain⟩

end Paths

/-- Two paths that return are told apart by the indices they hash exactly for regular segments. -/
theorem derivePath_unambiguous (P : Primitives) (hmacSha512 : Bytes → Bytes → Bytes)
    (T : CharacterTables) (master leaf leaf' : Node) (path path' : Str)
    (segments segments' : List Segment) (steps steps' : List Step)
    (h : Derives P hmacSha512 T master path segments steps leaf)
    (h' : Derives P hmacSha512 T master path' segments' steps' leaf') :
    Unambiguous segments segments' steps steps' ↔ Regular segments segments' :=
  unambiguous_iff h.derivation h'.derivation

/-- The digits of ASCII only. -/
def asciiTables : CharacterTables where
  isDigit c := decide (0x30 ≤ c.val ∧ c.val ≤ 0x39)
  decimal c := if 0x30 ≤ c.val ∧ c.val ≤ 0x39 then some (c.val - 0x30) else none
  repr _ := ""

/-- A keyed hash of 64 bytes. -/
def standInHmac (key data : Bytes) : Bytes :=
  standInDigest 32 (key ++ data) ++ standInDigest 32 (data ++ key)

def sampleMaster : Node := ⟨List.replicate 32 0x11, List.replicate 32 0x22⟩

def sampleLeaf (path : String) : Node :=
  match derivePath standIn standInHmac asciiTables sampleMaster (str path) with
  | .ok leaf => leaf
  | .error _ => sampleMaster

theorem derivePath_unambiguous_sample :
    Unambiguous [⟨44, true⟩, ⟨0, false⟩] [⟨44, true⟩, ⟨1, false⟩]
        ([⟨44, true⟩, ⟨0, false⟩].map Segment.step) ([⟨44, true⟩, ⟨1, false⟩].map Segment.step) ↔
      Regular [⟨44, true⟩, ⟨0, false⟩] [⟨44, true⟩, ⟨1, false⟩] :=
  derivePath_unambiguous standIn standInHmac asciiTables sampleMaster (sampleLeaf "m/44'/0")
    (sampleLeaf "m/44'/1") (str "m/44'/0") (str "m/44'/1") _ _ _ _
    (derives_of_parsed (by decide +kernel) (by decide +kernel))
    (derives_of_parsed (by decide +kernel) (by decide +kernel))

/-- The highest bit written out is the hardened zero again. -/
theorem written_bit_collides : ¬ ∀ (master leaf leaf' : Node) (path path' : Str)
    (segments segments' : List Segment) (steps steps' : List Step),
    Derives standIn standInHmac asciiTables master path segments steps leaf →
    Derives standIn standInHmac asciiTables master path' segments' steps' leaf' →
    Unambiguous segments segments' steps steps' := by
  intro h
  have hzero : Derives standIn standInHmac asciiTables sampleMaster (str "m/0'") [⟨0, true⟩] _
      (sampleLeaf "m/0'") := derives_of_parsed (by decide +kernel) (by decide +kernel)
  have hbit : Derives standIn standInHmac asciiTables sampleMaster (str "m/2147483648'")
      [⟨2147483648, true⟩] _ (sampleLeaf "m/2147483648'") :=
    derives_of_parsed (by decide +kernel) (by decide +kernel)
  exact (h _ _ _ _ _ _ _ _ _ hzero hbit).distinct (by decide) (by decide +kernel)

end Yubtc.HdPaths
