import Mathlib
import Yubtc.Lib.ExceptRules

/-!
Readers take a prefix of a sequence and return a value with the rest. `Reads` says which
encoding a reader takes back; `Weighs` bounds from below what it has taken; `Extends` says that it
does not look at what stands behind.
-/
namespace Readers

open ExceptRules

variable {β ε α γ : Type}

/-- On every input that begins with the encoding, the reader returns the value. -/
def Reads (read : List β → Except ε (α × List β)) (encoded : List β) (a : α) : Prop :=
  ∀ rest, read (encoded ++ rest) = .ok (a, rest)

/-- What a reader returns has cost it at least the weight of the value. -/
def Weighs (read : List β → Except ε (α × List β)) (weight : α → Nat) : Prop :=
  ∀ r a r', read r = .ok (a, r') → weight a + r'.length ≤ r.length

/-- Data put behind what was read is left over as it is. -/
def Extends (read : List β → Except ε (α × List β)) : Prop :=
  ∀ r a r', read r = .ok (a, r') → ∀ t, read (r ++ t) = .ok (a, r' ++ t)

theorem Extends.pure (a : α) : Extends (fun r => (.ok (a, r) : Except ε (α × List β))) := by
  intro r b r' h t
  cases h
  rfl

theorem Extends.bind {f : List β → Except ε (α × List β)} {g : α → List β → Except ε (γ × List β)}
    (hf : Extends f) (hg : ∀ a, Extends (g a)) : Extends fun r => f r >>= fun p => g p.1 p.2 := by
  intro r c r' h t
  obtain ⟨p, hp, h⟩ := bind_eq_ok.mp h
  dsimp only
  rw [hf r p.1 p.2 hp t, ok_bind]
  exact hg p.1 p.2 c r' h t

theorem Reads.pure (a : α) : Reads (fun r => (.ok (a, r) : Except ε (α × List β))) [] a :=
  fun _ => rfl

theorem Reads.bind {f : List β → Except ε (α × List β)} {g : α → List β → Except ε (γ × List β)}
    {ea ec : List β} {a : α} {c : γ} (ha : Reads f ea a) (hc : Reads (g a) ec c) :
    Reads (fun r => f r >>= fun p => g p.1 p.2) (ea ++ ec) c := by
  intro rest
  dsimp only
  rw [List.append_assoc, ha, ok_bind, hc]

/-- The value that was read, changed. -/
theorem Reads.map {f : List β → Except ε (α × List β)} {ea : List β} {a : α} (h : α → γ)
    (ha : Reads f ea a) : Reads (fun r => f r >>= fun p => .ok (h p.1, p.2)) ea (h a) := by
  intro rest
  dsimp only
  rw [ha, ok_bind]

/-- The encoding alone is read to its end. -/
theorem Reads.all {read : List β → Except ε (α × List β)} {encoded : List β} {a : α}
    (h : Reads read encoded a) : read encoded = .ok (a, []) := by
  have hnil := h []
  rwa [List.append_nil] at hnil

/-- Encodings that begin one sequence are of one value, and so are the rests. -/
theorem Reads.unique {read : List β → Except ε (α × List β)} {ea eb r r' : List β} {a b : α}
    (ha : Reads read ea a) (hb : Reads read eb b) (h : ea ++ r = eb ++ r') : a = b ∧ r = r' := by
  have heq := (ha r).symm.trans ((congrArg read h).trans (hb r'))
  simpa only [Except.ok.injEq, Prod.mk.injEq] using heq

/-- A sequence of encodings, none of them empty, is told apart into its values. -/
theorem flatMap_unique {read : List β → Except ε (α × List β)} {encode : α → List β} {l l' : List α}
    (hl : ∀ a ∈ l, Reads read (encode a) a) (hl' : ∀ a ∈ l', Reads read (encode a) a)
    (hne : ∀ a, encode a ≠ []) (h : l.flatMap encode = l'.flatMap encode) : l = l' := by
  induction l generalizing l' with
  | nil =>
    cases l' with
    | nil => rfl
    | cons b l' =>
      rw [List.flatMap_nil, List.flatMap_cons] at h
      exact absurd (List.append_eq_nil_iff.mp h.symm).1 (hne b)
  | cons a l ih =>
    cases l' with
    | nil =>
      rw [List.flatMap_nil, List.flatMap_cons] at h
      exact absurd (List.append_eq_nil_iff.mp h).1 (hne a)
    | cons b l' =>
      rw [List.flatMap_cons, List.flatMap_cons] at h
      obtain ⟨rfl, hrest⟩ := (hl a List.mem_cons_self).unique (hl' b List.mem_cons_self) h
      rw [ih (fun x hx => hl x (List.mem_cons_of_mem _ hx))
        (fun x hx => hl' x (List.mem_cons_of_mem _ hx)) hrest]

end Readers
