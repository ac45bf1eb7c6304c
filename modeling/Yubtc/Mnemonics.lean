import Yubtc.Lib.Chunks
import Yubtc.Lib.Regroup
import Yubtc.Seeds

/-!
# Mnemonics

A strict phrase is a row of words from a fixed list. The number of a word in the list stands for
eleven bits, of the entropy first and then of its checksum.
-/
namespace Yubtc.Mnemonics

open LittleEndian Regroup Chunks Wire Text Errors ExceptRules Crypto Seeds

/-- `BIP39_WORDLIST`. -/
structure WordList where
  words : List Str
  length_eq : words.length = 2048
  nodup : words.Nodup

namespace WordList

variable (W : WordList)

def word (i : Nat) : Str := W.words.getD i []

/-- `_WORD_INDEX`. -/
def index (word : Str) : Option Nat :=
  if word ∈ W.words then some (W.words.idxOf word) else none

variable {W}

theorem index_word {i : Nat} (h : i < 2048) : W.index (W.word i) = some i := by
  have hi : i < W.words.length := W.length_eq.symm ▸ h
  have hword : W.word i = W.words[i] := List.getD_eq_getElem _ _ hi
  rw [index, hword, if_pos (List.getElem_mem hi), W.nodup.idxOf_getElem i hi]

theorem index_eq_some {word : Str} {i : Nat} :
    W.index word = some i ↔ i < 2048 ∧ W.word i = word := by
  constructor
  · intro h
    rw [index] at h
    split at h
    · rename_i hmem
      have hlt := List.idxOf_lt_length_of_mem hmem
      cases h
      exact ⟨W.length_eq ▸ hlt, (List.getD_eq_getElem _ _ hlt).trans (List.getElem_idxOf hlt)⟩
    · cases h
  · rintro ⟨hi, rfl⟩
    exact index_word hi

end WordList

/-- What is wrong with a phrase, a `ValueError` in each case. -/
inductive MnemonicError where
  | invalidWordCount (count : Nat)
  | unknownWord (word : Str)
  | invalidChecksum
  | distinctWords (unique floor : Nat)
  | repeats (word : Str) (times : Nat)
  deriving DecidableEq

/-- `repr` shows the word of a failed lookup. -/
def MnemonicError.message (repr : Str → Str) : MnemonicError → Str
  | .invalidWordCount count => str "BIP-39 mnemonic parse error: invalid word count " ++
      str (toString count) ++ str ": must be 12, 15, 18, 21, or 24"
  | .unknownWord word => str "BIP-39 mnemonic parse error: unknown word " ++ repr word
  | .invalidChecksum => str "BIP-39 mnemonic parse error: invalid checksum"
  | .distinctWords unique floor => str "only " ++ str (toString unique) ++
      str " distinct words, need at least " ++ str (toString floor)
  | .repeats word times => str "word '" ++ word ++ str "' repeats " ++ str (toString times) ++
      str " times, max 2"

def supportedWordCounts : List Nat := [12, 15, 18, 21, 24]

/-- `s.split()`. -/
def split (s : Str) : List Str := (s.splitOnP isSpace).filter (· ≠ [])

/-- `normalize` is the NFKD normalisation. -/
def parseMnemonic (normalize : Str → Str) (sha256 : Bytes → Bytes) (W : WordList) (seed : Str) :
    Except MnemonicError (List Str) := do
  let words := split (normalize seed)
  reject (words.length ∉ supportedWordCounts) (.invalidWordCount words.length)
  let indices ← words.mapM fun word => orElseThrow (.unknownWord word) (W.index word)
  let bits := indices.flatMap (digits 1 11)
  let checksumBits := words.length / 3
  let entropyBits := words.length * 11 - checksumBits
  let entropy := toBytesBig (entropyBits / 8) (value 1 (bits.take entropyBits))
  let expected := (digits 1 256 (fromBytesBig (sha256 entropy))).take checksumBits
  reject (bits.drop entropyBits ≠ expected) .invalidChecksum
  return words

/-- The bits of bytes, highest first. -/
def bits (data : Bytes) : List Nat := data.flatMap fun b => digits 1 8 b.toNat

section Encoding

variable (sha256 : Bytes → Bytes) (W : WordList)

/-- The entropy, and one bit of its hash for every four bytes. -/
def payload (entropy : Bytes) : List Nat :=
  bits entropy ++ (bits (sha256 entropy)).take (entropy.length / 4)

/-- Eleven bits are the number of a word. -/
def numbers (entropy : Bytes) : List Nat := (chunks 11 (payload sha256 entropy)).map (value 1)

/-- The mnemonic of an entropy. -/
def encoding (entropy : Bytes) : List Str := (numbers sha256 entropy).map W.word

end Encoding

/-- The sizes of an entropy in bytes. -/
def entropySizes : List Nat := [16, 20, 24, 28, 32]

theorem fromBytesBig_eq (data : Bytes) : fromBytesBig data = value 8 (data.map UInt8.toNat) := by
  induction data using List.reverseRecOn with
  | nil => rfl
  | append_singleton data b ih =>
    rw [List.map_append, List.map_singleton, value_concat, ← ih, fromBytesBig, fromBytesBig,
      List.reverse_append, List.reverse_singleton, List.singleton_append, unpackLE]
    ring

theorem flatMap_digits_length (count : Nat) (ns : List Nat) :
    (ns.flatMap (digits 1 count)).length = count * ns.length := by
  induction ns with
  | nil => rfl
  | cons n ns ih =>
    rw [List.flatMap_cons, List.length_append, digits_length, ih, List.length_cons]
    ring

@[simp] theorem bits_length (data : Bytes) : (bits data).length = 8 * data.length := by
  rw [bits, ← List.flatMap_map, flatMap_digits_length, List.length_map]

theorem value_bits (data : Bytes) : value 1 (bits data) = fromBytesBig data := by
  have hbyte : ∀ d ∈ data.map UInt8.toNat, d < 2 ^ (1 * 8) := by
    intro d hd
    obtain ⟨b, -, rfl⟩ := List.mem_map.mp hd
    exact b.toNat_lt
  rw [bits, ← List.flatMap_map, value_flatMap_digits hbyte, fromBytesBig_eq]

theorem flatMap_digits_lt (count : Nat) (ns : List Nat) :
    ∀ d ∈ ns.flatMap (digits 1 count), d < 2 ^ 1 := by
  intro d hd
  obtain ⟨n, -, hd⟩ := List.mem_flatMap.mp hd
  exact digits_lt 1 count n d hd

theorem bits_lt (data : Bytes) : ∀ d ∈ bits data, d < 2 ^ 1 := by
  rw [bits, ← List.flatMap_map]
  exact flatMap_digits_lt 8 _

/-- The bits of the number that the bytes stand for. -/
theorem digits_fromBytesBig (data : Bytes) :
    digits 1 (8 * data.length) (fromBytesBig data) = bits data := by
  have h := digits_value (bits_lt data)
  rwa [value_bits, bits_length] at h

/-- A row of bits is that of the bytes with its number. -/
theorem bits_toBytesBig {ds : List Nat} {size : Nat} (hd : ∀ d ∈ ds, d < 2 ^ 1)
    (hlen : ds.length = 8 * size) : bits (toBytesBig size (value 1 ds)) = ds := by
  have hlt : value 1 ds < 256 ^ size := by
    have h := value_lt hd
    rwa [hlen, Nat.one_mul, pow_mul] at h
  rw [← digits_fromBytesBig, fromBytesBig_toBytesBig hlt, toBytesBig_length, ← hlen,
    digits_value hd]

theorem toBytesBig_value_bits {data : Bytes} {size : Nat} (hlen : data.length = size) :
    toBytesBig size (value 1 (bits data)) = data := by
  rw [value_bits, ← hlen, toBytesBig_fromBytesBig]

section Payload

variable {sha256 : Bytes → Bytes} {W : WordList}

theorem numbers_lt (entropy : Bytes) (hbits : ∀ d ∈ payload sha256 entropy, d < 2 ^ 1) :
    ∀ n ∈ numbers sha256 entropy, n < 2048 := by
  intro n hn
  obtain ⟨group, hgroup, rfl⟩ := List.mem_map.mp hn
  have hlength := (chunk_length (by decide) group hgroup).2
  have hdigits : ∀ d ∈ group, d < 2 ^ 1 := by
    intro d hd
    apply hbits
    rw [← @flatten_chunks _ 11 (by decide) (payload sha256 entropy)]
    exact List.mem_flatten.mpr ⟨group, hgroup, hd⟩
  calc value 1 group < 2 ^ (1 * group.length) := value_lt hdigits
    _ ≤ 2 ^ 11 := Nat.pow_le_pow_right (by decide) (by omega)

theorem payload_lt (entropy : Bytes) : ∀ d ∈ payload sha256 entropy, d < 2 ^ 1 := by
  intro d hd
  cases List.mem_append.mp hd with
  | inl hd => exact bits_lt entropy d hd
  | inr hd => exact bits_lt _ d (List.mem_of_mem_take hd)

/-- Whole groups of eleven are exactly a row of numbers below 2048. -/
theorem numbers_eq_iff {entropy : Bytes} {indices : List Nat}
    (hgroups : (payload sha256 entropy).length % 11 = 0) :
    numbers sha256 entropy = indices ↔
      payload sha256 entropy = indices.flatMap (digits 1 11) ∧ ∀ n ∈ indices, n < 2048 := by
  constructor
  · rintro rfl
    refine ⟨?_, numbers_lt entropy (payload_lt entropy)⟩
    have hgroup : ∀ group ∈ chunks 11 (payload sha256 entropy),
        digits 1 11 (value 1 group) = group := by
      intro group hmem
      rw [← chunk_full (by decide) hgroups group hmem]
      apply digits_value
      intro d hd
      apply payload_lt entropy
      rw [← @flatten_chunks _ 11 (by decide) (payload sha256 entropy)]
      exact List.mem_flatten.mpr ⟨group, hmem, hd⟩
    rw [numbers, List.flatMap_map, List.flatMap_def, List.map_congr_left hgroup, List.map_id',
      flatten_chunks (by decide)]
  · rintro ⟨hpayload, hindices⟩
    have hwidth : ∀ group ∈ indices.map (digits 1 11), group.length = 11 := by
      intro group hmem
      obtain ⟨n, -, rfl⟩ := List.mem_map.mp hmem
      exact digits_length 1 11 n
    have hvalue : ∀ n ∈ indices, value 1 (digits 1 11 n) = id n := fun n hn =>
      value_digits (hindices n hn)
    rw [numbers, hpayload, List.flatMap_def, chunks_flatten (by decide) hwidth, List.map_map]
    exact (List.map_congr_left hvalue).trans (List.map_id _)

/-- The sizes fit together: a checksum bit for every four bytes fills the last word. -/
theorem size_facts {size : Nat} (h : size ∈ entropySizes) :
    (8 * size + size / 4) % 11 = 0 ∧ (8 * size + size / 4) / 11 ∈ supportedWordCounts ∧
      (8 * size + size / 4) / 11 / 3 = size / 4 ∧ size / 4 ≤ 256 := by
  revert size
  decide

/-- And so do the word counts. -/
theorem count_facts {count : Nat} (h : count ∈ supportedWordCounts) :
    (count * 11 - count / 3) / 8 ∈ entropySizes ∧
      8 * ((count * 11 - count / 3) / 8) = count * 11 - count / 3 ∧
      (count * 11 - count / 3) / 8 / 4 = count / 3 ∧ count / 3 ≤ 256 := by
  revert count
  decide

theorem payload_length (hsha : ∀ data, (sha256 data).length = 32) {entropy : Bytes}
    (hsize : entropy.length ∈ entropySizes) :
    (payload sha256 entropy).length = 8 * entropy.length + entropy.length / 4 := by
  have hshort := (size_facts hsize).2.2.2
  rw [payload, List.length_append, bits_length, List.length_take, bits_length, hsha]
  omega

theorem numbers_length (hsha : ∀ data, (sha256 data).length = 32) {entropy : Bytes}
    (hsize : entropy.length ∈ entropySizes) :
    (numbers sha256 entropy).length = (8 * entropy.length + entropy.length / 4) / 11 := by
  have hgroups : (payload sha256 entropy).length % 11 = 0 := by
    rw [payload_length hsha hsize]
    exact (size_facts hsize).1
  have hpayload := ((numbers_eq_iff hgroups).mp rfl).1
  have hlength := congrArg List.length hpayload
  rw [payload_length hsha hsize, flatMap_digits_length] at hlength
  omega

/-- What the parser takes for the entropy. -/
def entropyOf (indices : List Nat) : Bytes :=
  toBytesBig ((indices.length * 11 - indices.length / 3) / 8)
    (value 1 ((indices.flatMap (digits 1 11)).take (indices.length * 11 - indices.length / 3)))

/-- The bits that the parser splits off, of the words that an entropy is encoded in. -/
theorem numbers_split (hsha : ∀ data, (sha256 data).length = 32) {entropy : Bytes}
    (hsize : entropy.length ∈ entropySizes) {indices : List Nat}
    (h : numbers sha256 entropy = indices) :
    indices.length ∈ supportedWordCounts ∧ entropyOf indices = entropy ∧
      (indices.flatMap (digits 1 11)).drop (indices.length * 11 - indices.length / 3) =
        (bits (sha256 entropy)).take (indices.length / 3) := by
  obtain ⟨hgroups, hcount, hthird, -⟩ := size_facts hsize
  have hlength : indices.length = (8 * entropy.length + entropy.length / 4) / 11 := by
    rw [← h, numbers_length hsha hsize]
  have hpayload := ((numbers_eq_iff (payload_length hsha hsize ▸ hgroups)).mp h).1
  have hbits : indices.length * 11 - indices.length / 3 = (bits entropy).length := by
    rw [bits_length]
    omega
  refine ⟨hlength ▸ hcount, ?_, ?_⟩
  · rw [entropyOf, ← hpayload, payload, hbits, List.take_left]
    apply toBytesBig_value_bits
    rw [bits_length]
    omega
  · rw [← hpayload, payload, hbits, List.drop_left, hlength, hthird]

theorem digits_sha256 (hsha : ∀ data, (sha256 data).length = 32) (data : Bytes) :
    digits 1 256 (fromBytesBig (sha256 data)) = bits (sha256 data) := by
  have h := digits_fromBytesBig (sha256 data)
  rwa [hsha] at h

/-- The last bits are the checksum exactly for an encoding of an entropy. -/
theorem checksum_iff (hsha : ∀ data, (sha256 data).length = 32) {indices : List Nat}
    (hcount : indices.length ∈ supportedWordCounts) (hlt : ∀ n ∈ indices, n < 2048) :
    (indices.flatMap (digits 1 11)).drop (indices.length * 11 - indices.length / 3) =
        (digits 1 256 (fromBytesBig (sha256 (entropyOf indices)))).take (indices.length / 3) ↔
      ∃ entropy, entropy.length ∈ entropySizes ∧ numbers sha256 entropy = indices := by
  rw [digits_sha256 hsha]
  constructor
  · intro hchecksum
    obtain ⟨hsize, height, hquarter, -⟩ := count_facts hcount
    have hlength : (entropyOf indices).length = (indices.length * 11 - indices.length / 3) / 8 :=
      toBytesBig_length _ _
    rw [← hlength] at hsize
    refine ⟨entropyOf indices, hsize, (numbers_eq_iff ?_).mpr ⟨?_, hlt⟩⟩
    · rw [payload_length hsha hsize]
      exact (size_facts hsize).1
    · have htake : bits (entropyOf indices) =
          (indices.flatMap (digits 1 11)).take (indices.length * 11 - indices.length / 3) := by
        apply bits_toBytesBig
        · exact fun d hd => flatMap_digits_lt 11 indices d (List.mem_of_mem_take hd)
        · rw [List.length_take, flatMap_digits_length]
          omega
      rw [payload, htake, hlength, hquarter, ← hchecksum, List.take_append_drop]
  · rintro ⟨entropy, hsize, hnumbers⟩
    obtain ⟨-, hentropy, hdrop⟩ := numbers_split hsha hsize hnumbers
    rw [hentropy, hdrop]

end Payload

section Acceptance

variable {normalize : Str → Str} {sha256 : Bytes → Bytes} {W : WordList}

theorem lookups_eq_ok {words : List Str} {indices : List Nat} :
    (words.mapM fun word => orElseThrow (MnemonicError.unknownWord word) (W.index word)) =
        .ok indices ↔
      words = indices.map W.word ∧ ∀ n ∈ indices, n < 2048 := by
  rw [mapM_eq_ok]
  constructor
  · intro h
    induction h with
    | nil => exact ⟨rfl, fun n hn => absurd hn List.not_mem_nil⟩
    | cons hword _ ih =>
      obtain ⟨hlt, hword⟩ := WordList.index_eq_some.mp (orElseThrow_eq_ok.mp hword)
      rw [List.map_cons, hword, ← ih.1]
      exact ⟨rfl, List.forall_mem_cons.mpr ⟨hlt, ih.2⟩⟩
  · rintro ⟨rfl, hlt⟩
    induction indices with
    | nil => exact .nil
    | cons n indices ih =>
      obtain ⟨hn, hrest⟩ := List.forall_mem_cons.mp hlt
      exact .cons (orElseThrow_eq_ok.mpr (WordList.index_word hn)) (ih hrest)

/-- The words of an accepted phrase encode an entropy. -/
theorem parseMnemonic_eq_ok (hsha : ∀ data, (sha256 data).length = 32) {seed : Str}
    {words : List Str} :
    parseMnemonic normalize sha256 W seed = .ok words ↔
      words = split (normalize seed) ∧ ∃ entropy, entropy.length ∈ entropySizes ∧
        encoding sha256 W entropy = split (normalize seed) := by
  rw [parseMnemonic]
  simp only [bind_eq_ok, reject_eq_ok, lookups_eq_ok, not_not, pure_eq_ok, Except.ok.injEq, ne_eq,
    exists_const]
  constructor
  · rintro ⟨hcount, indices, ⟨hwords, hlt⟩, hchecksum, rfl⟩
    have hlength : (split (normalize seed)).length = indices.length := by
      rw [hwords, List.length_map]
    rw [hlength] at hcount hchecksum
    obtain ⟨entropy, hsize, hnumbers⟩ := (checksum_iff hsha hcount hlt).mp hchecksum
    refine ⟨rfl, entropy, hsize, ?_⟩
    rw [encoding, hnumbers, hwords]
  · rintro ⟨rfl, entropy, hsize, hencoding⟩
    have hlength : (split (normalize seed)).length = (numbers sha256 entropy).length := by
      rw [← hencoding, encoding, List.length_map]
    have hlt := numbers_lt entropy (@payload_lt sha256 entropy)
    obtain ⟨hcount, -, -⟩ := numbers_split hsha hsize rfl
    have hchecksum := (checksum_iff hsha hcount hlt).mpr ⟨entropy, hsize, rfl⟩
    rw [entropyOf] at hchecksum
    rw [← hlength] at hcount hchecksum
    exact ⟨hcount, numbers sha256 entropy, ⟨hencoding.symm, hlt⟩, hchecksum, rfl⟩

theorem encoding_injective (hsha : ∀ data, (sha256 data).length = 32) {entropy entropy' : Bytes}
    (hsize : entropy.length ∈ entropySizes) (hsize' : entropy'.length ∈ entropySizes)
    (h : encoding sha256 W entropy = encoding sha256 W entropy') : entropy = entropy' := by
  have hnumbers : numbers sha256 entropy = numbers sha256 entropy' := by
    have hindex : ∀ e, (encoding sha256 W e).map W.index = (numbers sha256 e).map some := by
      intro e
      rw [encoding, List.map_map]
      exact List.map_congr_left fun n hn =>
        WordList.index_word (numbers_lt e (payload_lt e) n hn)
    have hmap := congrArg (List.map W.index) h
    rw [hindex, hindex] at hmap
    exact List.map_injective_iff.mpr (Option.some_injective _) hmap
  rw [← (numbers_split hsha hsize rfl).2.1, hnumbers, (numbers_split hsha hsize' rfl).2.1]

end Acceptance

/-- Exactly the encodings of entropies are accepted, and each stands for an entropy of its own. -/
theorem parseMnemonic_exact (normalize : Str → Str) (sha256 : Bytes → Bytes) (W : WordList)
    (hsha : ∀ data, (sha256 data).length = 32) :
    (∀ seed, Succeeds (parseMnemonic normalize sha256 W seed) ↔
      ∃ entropy, entropy.length ∈ entropySizes ∧
        encoding sha256 W entropy = split (normalize seed)) ∧
    ∀ entropy entropy', entropy.length ∈ entropySizes → entropy'.length ∈ entropySizes →
      (encoding sha256 W entropy = encoding sha256 W entropy' ↔ entropy = entropy') := by
  constructor
  · intro seed
    constructor
    · rintro ⟨words, hwords⟩
      exact ((parseMnemonic_eq_ok hsha).mp hwords).2
    · intro hencoding
      exact ⟨_, (parseMnemonic_eq_ok hsha).mpr ⟨rfl, hencoding⟩⟩
  · intro entropy entropy' hsize hsize'
    exact ⟨encoding_injective hsha hsize hsize', congrArg _⟩

/-- A word of two characters for each number. -/
def numberedWord (i : Nat) : Str := [ofByte (UInt8.ofNat (i / 256)), ofByte (UInt8.ofNat i)]

theorem numbered_length : ((List.range 2048).map numberedWord).length = 2048 := by
  rw [List.length_map, List.length_range]

theorem numbered_nodup : ((List.range 2048).map numberedWord).Nodup := by
  apply List.nodup_range.map_on
  intro i hi j hj h
  have hi := List.mem_range.mp hi
  have hj := List.mem_range.mp hj
  simp only [numberedWord, ofByte, List.cons.injEq, Fin.mk.injEq, UInt8.toNat_ofNat',
    and_true] at h
  omega

def numbered : WordList where
  words := (List.range 2048).map numberedWord
  length_eq := numbered_length
  nodup := numbered_nodup

theorem parseMnemonic_exact_sample :
    (∀ seed, Succeeds (parseMnemonic id standIn.sha256 numbered seed) ↔
      ∃ entropy, entropy.length ∈ entropySizes ∧
        encoding standIn.sha256 numbered entropy = split seed) ∧
    ∀ entropy entropy', entropy.length ∈ entropySizes → entropy'.length ∈ entropySizes →
      (encoding standIn.sha256 numbered entropy = encoding standIn.sha256 numbered entropy' ↔
        entropy = entropy') :=
  parseMnemonic_exact id standIn.sha256 numbered standIn_lawful.sha256_length

def maxWordRepeats : Nat := 2

/-- `min_unique_words`: no floor for other lengths. -/
def minUniqueWords : Nat → Nat
  | 12 => 4
  | 15 => 5
  | 18 => 6
  | 21 => 7
  | 24 => 8
  | _ => 0

/-- The keys of the tally are the distinct words in the order they come; of several most frequent
words `max` names the first. -/
def validateEntropy (words : List Str) : Except MnemonicError Unit := do
  let keys := words.eraseDups
  let floor := minUniqueWords words.length
  reject (keys.length < floor) (.distinctWords keys.length floor)
  match keys.argmax fun word => words.count word with
  | some word =>
    reject (words.count word > maxWordRepeats) (.repeats word (words.count word))
  | none => return

theorem eraseDups_of_nodup {words : List Str} (h : words.Nodup) : words.eraseDups = words := by
  induction words with
  | nil => rfl
  | cons word words ih =>
    obtain ⟨hnot, hrest⟩ := List.nodup_cons.mp h
    have hfilter : (words.filter fun b => !b == word) = words := by
      apply List.filter_eq_self.mpr
      intro b hb
      have hne : b ≠ word := fun he => hnot (he ▸ hb)
      simp [hne]
    rw [List.eraseDups_cons, hfilter, ih hrest]

/-- A phrase passes exactly with enough distinct words, none too often. -/
theorem validateEntropy_eq_ok {words : List Str} :
    validateEntropy words = .ok () ↔
      minUniqueWords words.length ≤ words.eraseDups.length ∧
        ∀ word, words.count word ≤ maxWordRepeats := by
  rw [validateEntropy, reject_bind_eq_ok, Nat.not_lt]
  apply and_congr_right
  intro _
  cases hmax : words.eraseDups.argmax fun word => words.count word with
  | none =>
    have hnil : words = [] := by
      have hkeys := List.argmax_eq_none.mp hmax
      cases words with
      | nil => rfl
      | cons word words =>
        rw [List.eraseDups_cons] at hkeys
        cases hkeys
    simp [hnil]
  | some top =>
    rw [reject_eq_ok, Nat.not_lt]
    constructor
    · intro htop word
      by_cases hword : word ∈ words
      · have hkey : word ∈ words.eraseDups := List.mem_eraseDups.mpr hword
        exact (List.le_of_mem_argmax hkey (Option.mem_def.mpr hmax)).trans htop
      · rw [List.count_eq_zero.mpr hword]
        exact Nat.zero_le _
    · exact fun hall => hall top

end Yubtc.Mnemonics
