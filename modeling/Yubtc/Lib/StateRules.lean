import Mathlib

/-!
Programs that may fail and change a state as they go. A loop over a list keeps an invariant on what
it has consumed, whether it ends or stops in the middle.
-/
namespace StateRules

variable {ε σ α β : Type}

theorem bind_eq_ok {x : EStateM ε σ α} {f : α → EStateM ε σ β} {s s' : σ} {b : β} :
    (x >>= f) s = .ok b s' ↔ ∃ a t, x s = .ok a t ∧ f a t = .ok b s' := by
  show EStateM.bind x f s = .ok b s' ↔ _
  unfold EStateM.bind
  cases x s with
  | ok a t => simp
  | error e t => simp

theorem bind_eq_error {x : EStateM ε σ α} {f : α → EStateM ε σ β} {s s' : σ} {e : ε} :
    (x >>= f) s = .error e s' ↔
      x s = .error e s' ∨ ∃ a t, x s = .ok a t ∧ f a t = .error e s' := by
  show EStateM.bind x f s = .error e s' ↔ _
  unfold EStateM.bind
  cases x s with
  | ok a t => simp
  | error d t => simp

section Loops

variable {f : β → α → EStateM ε σ β} {l : List α} {motive : List α → β → σ → Prop} {b r : β}
  {s s' : σ}

/-- What every pass keeps holds at the end. -/
theorem foldlM_ok (start : motive [] b s)
    (step : ∀ done a rest b s b' s', done ++ a :: rest = l → motive done b s →
      f b a s = .ok b' s' → motive (done ++ [a]) b' s')
    (h : l.foldlM f b s = .ok r s') : motive l r s' := by
  suffices H : ∀ rest done b s, done ++ rest = l → motive done b s →
      rest.foldlM f b s = .ok r s' → motive l r s' from H l [] b s rfl start h
  intro rest
  induction rest with
  | nil =>
    intro done b s hl hb hr
    cases hr
    rwa [← hl, List.append_nil]
  | cons a rest ih =>
    intro done b s hl hb hr
    rw [List.foldlM_cons] at hr
    obtain ⟨b', t, hb', hr⟩ := bind_eq_ok.mp hr
    exact ih (done ++ [a]) b' t (by simpa using hl) (step done a rest b s b' t hl hb hb') hr

/-- A loop that stops has stopped in one of its passes. -/
theorem foldlM_error {e : ε} (start : motive [] b s)
    (step : ∀ done a rest b s b' s', done ++ a :: rest = l → motive done b s →
      f b a s = .ok b' s' → motive (done ++ [a]) b' s')
    (h : l.foldlM f b s = .error e s') :
    ∃ done a rest b t, done ++ a :: rest = l ∧ motive done b t ∧ f b a t = .error e s' := by
  suffices H : ∀ rest done b s, done ++ rest = l → motive done b s →
      rest.foldlM f b s = .error e s' →
      ∃ done a rest b t, done ++ a :: rest = l ∧ motive done b t ∧ f b a t = .error e s' from
    H l [] b s rfl start h
  intro rest
  induction rest with
  | nil =>
    intro done b s hl hb hr
    cases hr
  | cons a rest ih =>
    intro done b s hl hb hr
    rw [List.foldlM_cons] at hr
    rcases bind_eq_error.mp hr with hr | ⟨b', t, hb', hr⟩
    · exact ⟨done, a, rest, b, s, hl, hb, hr⟩
    · exact ih (done ++ [a]) b' t (by simpa using hl) (step done a rest b s b' t hl hb hb') hr

end Loops

end StateRules
