import Yubtc.Mnemonics

/-!
# Drawing a seed

Words are drawn with replacement, and all of them again until the entropy floor accepts them.
-/
namespace Yubtc.SeedDraws

open Text ExceptRules Mnemonics

section Loop

variable {σ α : Type} (draw : σ → α × σ) (refuses : α → Bool)

/-- `_draw_until`, for a bounded number of draws. -/
def drawUntil : Nat → σ → Option α
  | 0, _ => none
  | draws + 1, s => if refuses (draw s).1 then drawUntil draws (draw s).2 else some (draw s).1

variable {draw refuses}

/-- What the loop returns was drawn and not refused. -/
theorem drawUntil_drawn {draws : Nat} {s : σ} {a : α} (h : drawUntil draw refuses draws s = some a) :
    ∃ s', (draw s').1 = a ∧ refuses a = false := by
  induction draws generalizing s with
  | zero => cases h
  | succ draws ih =>
    rw [drawUntil] at h
    split at h
    · exact ih h
    · rename_i haccepts
      cases h
      exact ⟨s, rfl, Bool.not_eq_true _ ▸ haccepts⟩

end Loop

/-- `random.choices(BIP39_WORDLIST, k=count)`: each word takes the next index of the generator, and
a negative number of them takes none. -/
def choices (W : WordList) (rng : Nat → Fin 2048) (count : Int) (s : Nat) : List Str × Nat :=
  ((List.range count.toNat).map fun i => W.word (rng (s + i)), s + count.toNat)

/-- `_entropy_floor_rejects`. -/
def entropyFloorRejects (words : List Str) : Bool :=
  match validateEntropy words with
  | .ok _ => false
  | .error _ => true

/-- `generate_seed` with `allow_dups`, for a bounded number of draws. -/
def generateSeed (W : WordList) (rng : Nat → Fin 2048) (count : Int) (draws : Nat) : Option Str :=
  (drawUntil (choices W rng count) entropyFloorRejects draws 0).map fun words =>
    (str " ").intercalate words

/-- Some random numbers end the loop. -/
def Finishes (W : WordList) (count : Int) : Prop :=
  ∃ rng draws seed, generateSeed W rng count draws = some seed

/-- Some words of the list, so many of them, pass the floor. -/
def Acceptable (W : WordList) (count : Int) : Prop :=
  ∃ words, words.length = count.toNat ∧ (∀ word ∈ words, word ∈ W.words) ∧
    validateEntropy words = .ok ()

theorem entropyFloorRejects_eq_false {words : List Str} :
    entropyFloorRejects words = false ↔ validateEntropy words = .ok () := by
  rw [entropyFloorRejects]
  cases validateEntropy words with
  | ok u => simp
  | error e => simp

section Counting

variable {W : WordList} {count : Int}

theorem word_mem {i : Nat} (h : i < 2048) : W.word i ∈ W.words := by
  have hi : i < W.words.length := W.length_eq.symm ▸ h
  rw [WordList.word, List.getD_eq_getElem _ _ hi]
  exact List.getElem_mem hi

/-- The loop ends exactly where there is something to be accepted. -/
theorem finishes_iff_acceptable : Finishes W count ↔ Acceptable W count := by
  constructor
  · rintro ⟨rng, draws, seed, hseed⟩
    obtain ⟨words, hwords, -⟩ := Option.map_eq_some_iff.mp hseed
    obtain ⟨s, hdrawn, haccepts⟩ := drawUntil_drawn hwords
    refine ⟨words, ?_, ?_, entropyFloorRejects_eq_false.mp haccepts⟩
    · rw [← hdrawn, choices, List.length_map, List.length_range]
    · rw [← hdrawn]
      intro word hword
      obtain ⟨i, -, rfl⟩ := List.mem_map.mp hword
      exact word_mem (rng (s + i)).isLt
  · rintro ⟨words, hlength, hmem, haccepts⟩
    -- The generator that draws these words first.
    have hindex : ∀ i : Nat, ∃ n : Fin 2048, ∀ h : i < words.length, W.word n = words[i] := by
      intro i
      by_cases h : i < words.length
      · obtain ⟨n, hn, hword⟩ := List.mem_iff_getElem.mp (hmem _ (List.getElem_mem h))
        refine ⟨⟨n, W.length_eq ▸ hn⟩, fun _ => ?_⟩
        rw [← hword]
        exact List.getD_eq_getElem _ _ hn
      · exact ⟨0, fun hlt => absurd hlt h⟩
    choose rng hrng using hindex
    have hdrawn : (choices W rng count 0).1 = words := by
      apply List.ext_getElem
      · rw [choices, List.length_map, List.length_range, hlength]
      · intro i hi hwords
        simp only [choices, List.getElem_map, List.getElem_range, Nat.zero_add]
        exact hrng i hwords
    refine ⟨rng, 1, (str " ").intercalate words, ?_⟩
    rw [generateSeed, drawUntil, hdrawn, if_neg, Option.map_some]
    rw [entropyFloorRejects_eq_false.mpr haccepts]
    exact Bool.false_ne_true

/-- No word more than twice: twice the list at most. -/
theorem length_le_of_acceptable {words : List Str} (hmem : ∀ word ∈ words, word ∈ W.words)
    (hcount : ∀ word, words.count word ≤ maxWordRepeats) :
    words.length ≤ 2048 * maxWordRepeats := by
  have hsub : words.toFinset ⊆ W.words.toFinset := fun word hword =>
    List.mem_toFinset.mpr (hmem word (List.mem_toFinset.mp hword))
  have hcard : words.toFinset.card ≤ 2048 :=
    (Finset.card_le_card hsub).trans (W.length_eq ▸ W.words.toFinset_card_le)
  have hsum : words.length = ∑ word ∈ words.toFinset, words.count word := by
    rw [← List.sum_toFinset_count_eq_length words]
    -- Two ways to compare words, which agree.
    congr!
  calc words.length = ∑ word ∈ words.toFinset, words.count word := hsum
    _ ≤ words.toFinset.card * maxWordRepeats := by
        rw [← smul_eq_mul]
        exact Finset.sum_le_card_nsmul _ _ _ fun word _ => hcount word
    _ ≤ 2048 * maxWordRepeats := Nat.mul_le_mul_right _ hcard

/-- The list, read as often as it may be. -/
def twice (W : WordList) : List Str := W.words ++ W.words

theorem count_take_twice (n : Nat) (word : Str) :
    ((twice W).take n).count word ≤ maxWordRepeats := by
  have hone : W.words.count word ≤ 1 := List.nodup_iff_count_le_one.mp W.nodup word
  calc ((twice W).take n).count word ≤ (twice W).count word := (List.take_sublist _ _).count_le _
    _ = W.words.count word + W.words.count word := List.count_append
    _ ≤ maxWordRepeats := Nat.add_le_add hone hone

/-- Only short phrases have a floor, and it is below their length. -/
theorem minUniqueWords_le (n : Nat) : minUniqueWords n ≤ n ∧ (24 < n → minUniqueWords n = 0) := by
  by_cases h : n ≤ 24
  · refine ⟨?_, fun hlt => absurd hlt (Nat.not_lt.mpr h)⟩
    revert n
    decide
  · have hzero : minUniqueWords n = 0 := by
      unfold minUniqueWords
      split <;> omega
    exact ⟨hzero ▸ Nat.zero_le _, fun _ => hzero⟩

theorem floor_take_twice (n : Nat) (h : n ≤ 2 * 2048) :
    minUniqueWords ((twice W).take n).length ≤ ((twice W).take n).eraseDups.length := by
  have hlength : ((twice W).take n).length = n := by
    rw [List.length_take, twice, List.length_append, W.length_eq]
    omega
  rw [hlength]
  by_cases hshort : n ≤ 24
  · have htake : (twice W).take n = W.words.take n :=
      List.take_append_of_le_length (by rw [W.length_eq]; omega)
    rw [htake] at hlength ⊢
    rw [eraseDups_of_nodup (W.nodup.sublist (List.take_sublist _ _)), hlength]
    exact (minUniqueWords_le n).1
  · rw [(minUniqueWords_le n).2 (by omega)]
    exact Nat.zero_le _

theorem acceptable_iff : Acceptable W count ↔ count ≤ 4096 := by
  constructor
  · rintro ⟨words, hlength, hmem, haccepts⟩
    have hle := length_le_of_acceptable hmem (validateEntropy_eq_ok.mp haccepts).2
    rw [hlength, maxWordRepeats] at hle
    omega
  · intro hle
    refine ⟨(twice W).take count.toNat, ?_, ?_, ?_⟩
    · rw [List.length_take, twice, List.length_append, W.length_eq]
      omega
    · intro word hword
      rcases List.mem_append.mp (List.mem_of_mem_take hword) with hword | hword <;> exact hword
    · exact validateEntropy_eq_ok.mpr
        ⟨floor_take_twice _ (by omega), count_take_twice _⟩

end Counting

/-- Every word twice is the longest draw that is ever accepted. -/
theorem generateSeed_finishes (W : WordList) (count : Int) :
    (Finishes W count ↔ Acceptable W count) ∧ (Finishes W count ↔ count ≤ 4096) :=
  ⟨finishes_iff_acceptable, finishes_iff_acceptable.trans acceptable_iff⟩

/-- One word more and no draw is accepted. -/
theorem long_seed_never_drawn : ¬ ∀ (W : WordList) (count : Int), Finishes W count := fun h =>
  absurd (acceptable_iff.mp (finishes_iff_acceptable.mp (h numbered 4097))) (by decide)

end Yubtc.SeedDraws
