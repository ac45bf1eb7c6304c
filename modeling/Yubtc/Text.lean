import Yubtc.Wire

/-!
# Text

A Python string is a list of code points. Unlike a character of Lean's own strings, a code point
can be a lone surrogate.
-/
namespace Yubtc.Text

open Wire

abbrev CodePoint := Fin 0x110000

abbrev Str := List CodePoint

theorem char_lt (c : Char) : c.toNat < 0x110000 := by
  rcases c.valid with h | h
  · exact Nat.lt_trans h (by decide)
  · exact h.2

def ofChar (c : Char) : CodePoint := ⟨c.toNat, char_lt c⟩

/-- A string literal. -/
def str (s : String) : Str := s.toList.map ofChar

/-- A byte as `chr` gives it. -/
def ofByte (b : UInt8) : CodePoint := ⟨b.toNat, b.toNat_lt.trans (by decide)⟩

/-- A surrogate is no character. -/
def char? (c : CodePoint) : Option Char :=
  if c.val.isValidChar then some (Char.ofNat c.val) else none

@[simp] theorem char?_ofChar (c : Char) : char? (ofChar c) = some c := by
  rw [char?, if_pos (show (ofChar c).val.isValidChar from c.valid)]
  exact congrArg some (Char.ofNat_toNat c)

/-- The characters of a string without surrogates. -/
def toString? (s : Str) : Option String := (s.mapM char?).map String.ofList

@[simp] theorem toString?_str (s : String) : toString? (str s) = some s := by
  have h : ∀ cs : List Char, (cs.map ofChar).mapM char? = some cs := by
    intro cs
    induction cs with
    | nil => rfl
    | cons c cs ih =>
      rw [List.map_cons, List.mapM_cons, ih, char?_ofChar]
      rfl
  rw [toString?, str, h, Option.map_some, String.ofList_toList]

/-- `str.isspace` of one character. -/
def isSpace (c : CodePoint) : Bool :=
  (9 ≤ c.val && c.val ≤ 13) || (28 ≤ c.val && c.val ≤ 32) || c.val = 0x85 || c.val = 0xa0 ||
    c.val = 0x1680 || (0x2000 ≤ c.val && c.val ≤ 0x200a) || c.val = 0x2028 || c.val = 0x2029 ||
    c.val = 0x202f || c.val = 0x205f || c.val = 0x3000

theorem isSpace_digitChar {d : Nat} (h : d < 16) : isSpace (ofChar (Nat.digitChar d)) = false := by
  interval_cases d <;> decide

/-- The zeros of the decimal digits in Unicode 15. The nine code points behind a zero are the
other digits of its script. -/
def decimalZeros : List Nat :=
  [0x30, 0x660, 0x6f0, 0x7c0, 0x966, 0x9e6, 0xa66, 0xae6, 0xb66, 0xbe6, 0xc66, 0xce6, 0xd66, 0xde6,
    0xe50, 0xed0, 0xf20, 0x1040, 0x1090, 0x17e0, 0x1810, 0x1946, 0x19d0, 0x1a80, 0x1a90, 0x1b50,
    0x1bb0, 0x1c40, 0x1c50, 0xa620, 0xa8d0, 0xa900, 0xa9d0, 0xa9f0, 0xaa50, 0xabf0, 0xff10, 0x104a0,
    0x10d30, 0x11066, 0x110f0, 0x11136, 0x111d0, 0x112f0, 0x11450, 0x114d0, 0x11650, 0x116c0,
    0x11730, 0x118e0, 0x11950, 0x11c50, 0x11d50, 0x11da0, 0x11f50, 0x16a60, 0x16ac0, 0x16b50,
    0x1d7ce, 0x1d7d8, 0x1d7e2, 0x1d7ec, 0x1d7f6, 0x1e140, 0x1e2f0, 0x1e4f0, 0x1e950, 0x1fbf0]

/-- The value of a decimal digit of any script. -/
def decimal? (c : CodePoint) : Option Nat :=
  (decimalZeros.find? fun first => first ≤ c.val && c.val < first + 10).map (c.val - ·)

/-- Nothing is stripped of a text without blanks at its ends. -/
theorem stripped_of_none {α : Type} {blank : α → Bool} {s : List α}
    (h : ∀ c ∈ s, blank c = false) : (s.dropWhile blank).rdropWhile blank = s := by
  have hdrop : s.dropWhile blank = s := by
    rw [List.dropWhile_eq_self_iff]
    intro hpos
    rw [h _ (List.getElem_mem hpos)]
    exact Bool.false_ne_true
  rw [hdrop, List.rdropWhile_eq_self_iff]
  intro hne
  rw [h _ (List.getLast_mem hne)]
  exact Bool.false_ne_true

/-- `s.startswith(prefix)`. -/
def startsWith (start s : Str) : Bool := start.isPrefixOf s

end Yubtc.Text
