import Mathlib

/-!
Hexadecimal texts: two lower-case digits for a byte, and a reader that takes either case and
skips ASCII blanks between bytes.
-/
namespace Hex

def encode (data : List UInt8) : List Char :=
  data.flatMap fun b => [Nat.digitChar (b.toNat / 16), Nat.digitChar (b.toNat % 16)]

def digitValue (c : Char) : Option Nat :=
  if '0' ≤ c ∧ c ≤ '9' then some (c.toNat - '0'.toNat)
  else if 'a' ≤ c ∧ c ≤ 'f' then some (c.toNat - 'a'.toNat + 10)
  else if 'A' ≤ c ∧ c ≤ 'F' then some (c.toNat - 'A'.toNat + 10)
  else none

/-- A space, or a control character from tab to carriage return. -/
def isBlank (c : Char) : Bool := c == ' ' || ('\t' ≤ c && c ≤ '\r')

/-- The bytes of a text that starts at a position, or the position of the character that does
not belong. -/
def decodeFrom : Nat → List Char → Except Nat (List UInt8)
  | _, [] => .ok []
  | pos, [c] =>
    if isBlank c then .ok []
    else if (digitValue c).isSome then .error (pos + 1)
    else .error pos
  | pos, c :: c' :: rest =>
    if isBlank c then decodeFrom (pos + 1) (c' :: rest)
    else
      match digitValue c, digitValue c' with
      | none, _ => .error pos
      | some _, none => .error (pos + 1)
      | some high, some low =>
        (decodeFrom (pos + 2) rest).map fun data => UInt8.ofNat (16 * high + low) :: data

def decode (text : List Char) : Except Nat (List UInt8) := decodeFrom 0 text

theorem digit_of_mem_encode {data : List UInt8} {c : Char} (h : c ∈ encode data) :
    ∃ d < 16, c = Nat.digitChar d := by
  obtain ⟨b, -, hc⟩ := List.mem_flatMap.mp h
  have hb := b.toNat_lt
  cases List.mem_pair.mp hc with
  | inl hhigh => exact ⟨b.toNat / 16, by omega, hhigh⟩
  | inr hlow => exact ⟨b.toNat % 16, by omega, hlow⟩

theorem digitValue_digitChar {d : Nat} (h : d < 16) : digitValue (Nat.digitChar d) = some d := by
  interval_cases d <;> rfl

theorem isBlank_digitChar {d : Nat} (h : d < 16) : isBlank (Nat.digitChar d) = false := by
  interval_cases d <;> rfl

theorem decodeFrom_encode (pos : Nat) (data : List UInt8) :
    decodeFrom pos (encode data) = .ok data := by
  induction data generalizing pos with
  | nil => rfl
  | cons b data ih =>
    have hhigh : b.toNat / 16 < 16 := by
      have := b.toNat_lt
      omega
    have hlow : b.toNat % 16 < 16 := Nat.mod_lt _ (by decide)
    have hb : UInt8.ofNat (16 * (b.toNat / 16) + b.toNat % 16) = b := by
      rw [Nat.div_add_mod, UInt8.ofNat_toNat]
    have hcons : encode (b :: data) =
        Nat.digitChar (b.toNat / 16) :: Nat.digitChar (b.toNat % 16) :: encode data := rfl
    rw [hcons, decodeFrom, isBlank_digitChar hhigh, digitValue_digitChar hhigh,
      digitValue_digitChar hlow]
    simp only [Bool.false_eq_true, if_false, ih, hb]
    rfl

/-- Reading what was written gives the bytes back. -/
theorem decode_encode (data : List UInt8) : decode (encode data) = .ok data :=
  decodeFrom_encode 0 data

end Hex
