import Mathlib

/-!
`while True` loops. A round either goes on with a new state or stops with a result; a loop
returns when some number of rounds ends it.
-/
namespace Loop

variable {σ ρ : Type}

/-- At most `fuel` rounds. -/
def run (step : σ → σ ⊕ ρ) : Nat → σ → Option ρ
  | 0, _ => none
  | fuel + 1, s =>
    match step s with
    | .inl s' => run step fuel s'
    | .inr r => some r

/-- The loop ends with this result. -/
def Returns (step : σ → σ ⊕ ρ) (s : σ) (r : ρ) : Prop := ∃ fuel, run step fuel s = some r

theorem Returns.stop {step : σ → σ ⊕ ρ} {s : σ} {r : ρ} (h : step s = .inr r) :
    Returns step s r :=
  ⟨1, by simp [run, h]⟩

theorem returns_of_next {step : σ → σ ⊕ ρ} {s s' : σ} {r : ρ} (h : step s = .inl s') :
    Returns step s r ↔ Returns step s' r := by
  constructor
  · rintro ⟨fuel, hrun⟩
    cases fuel with
    | zero => simp [run] at hrun
    | succ fuel => exact ⟨fuel, by simpa [run, h] using hrun⟩
  · rintro ⟨fuel, hrun⟩
    exact ⟨fuel + 1, by simpa [run, h] using hrun⟩

theorem returns_of_stop {step : σ → σ ⊕ ρ} {s : σ} {r r' : ρ} (h : step s = .inr r) :
    Returns step s r' ↔ r' = r := by
  constructor
  · rintro ⟨fuel, hrun⟩
    cases fuel with
    | zero => simp [run] at hrun
    | succ fuel => simpa [run, h, eq_comm] using hrun
  · rintro rfl
    exact .stop h

/-- A loop has one result. -/
theorem Returns.unique {step : σ → σ ⊕ ρ} {s : σ} {r r' : ρ} (h : Returns step s r)
    (h' : Returns step s r') : r = r' := by
  obtain ⟨fuel, hrun⟩ := h
  induction fuel generalizing s with
  | zero => simp [run] at hrun
  | succ fuel ih =>
    cases hs : step s with
    | inl next => exact ih ((returns_of_next hs).mp h') (by simpa [run, hs] using hrun)
    | inr last =>
      rw [(returns_of_stop hs).mp h']
      simpa [run, hs, eq_comm] using hrun

/-- What the rounds keep and the last round turns into `Post` holds of the result. -/
theorem Returns.post {step : σ → σ ⊕ ρ} {Inv : σ → Prop} {Post : ρ → Prop}
    (hnext : ∀ s s', Inv s → step s = .inl s' → Inv s')
    (hstop : ∀ s r, Inv s → step s = .inr r → Post r) {s : σ} {r : ρ} (hs : Inv s)
    (h : Returns step s r) : Post r := by
  obtain ⟨fuel, hrun⟩ := h
  induction fuel generalizing s with
  | zero => simp [run] at hrun
  | succ fuel ih =>
    cases hround : step s with
    | inl next => exact ih (hnext s next hs hround) (by simpa [run, hround] using hrun)
    | inr last =>
      have hlast : last = r := by simpa [run, hround] using hrun
      exact hlast ▸ hstop s last hs hround

/-- A loop whose rounds make a number smaller returns. -/
theorem returns_of_measure {step : σ → σ ⊕ ρ} {Inv : σ → Prop} (measure : σ → Nat)
    (hnext : ∀ s s', Inv s → step s = .inl s' → Inv s' ∧ measure s' < measure s) {s : σ}
    (hs : Inv s) : ∃ r, Returns step s r := by
  induction hm : measure s using Nat.strong_induction_on generalizing s with
  | _ m ih =>
    cases hround : step s with
    | inl next =>
      obtain ⟨hinv, hlt⟩ := hnext s next hs hround
      obtain ⟨r, hr⟩ := ih (measure next) (hm ▸ hlt) hinv rfl
      exact ⟨r, (returns_of_next hround).mpr hr⟩
    | inr last => exact ⟨last, .stop hround⟩

end Loop
