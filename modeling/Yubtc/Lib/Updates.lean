import Yubtc.Lib.ExceptRules

/-!
A loop that replaces the entries of a list one after another. Where a replacement does not
depend on those made before it, the loop is a list of independent computations.
-/
namespace Updates

open ExceptRules

variable {ε α σ : Type}

/-- The entries from `done.length` on. `Alike` is what the computations see of an entry. -/
theorem foldlM_range' {mk : List α → σ} {step : σ → Nat → Except ε σ} {f : Nat → Except ε α}
    {Alike : α → α → Prop} {l : List α}
    (hstep : ∀ done before a rest, before ++ a :: rest = l → List.Forall₂ Alike done before →
      step (mk (done ++ a :: rest)) done.length =
        (f done.length).map fun v => mk (done ++ v :: rest))
    (halike : ∀ (i : Nat) a v, l[i]? = some a → f i = .ok v → Alike v a) :
    ∀ rest done before, before ++ rest = l → List.Forall₂ Alike done before →
      (List.range' done.length rest.length).foldlM step (mk (done ++ rest)) =
        ((List.range' done.length rest.length).mapM f).map fun vs => mk (done ++ vs) := by
  intro rest
  induction rest with
  | nil =>
    intro done before _ _
    rfl
  | cons a rest ih =>
    intro done before hl hdone
    rw [List.length_cons, List.range'_succ, List.foldlM_cons, List.mapM_cons,
      hstep done before a rest hl hdone]
    cases hv : f done.length with
    | error e => rfl
    | ok v =>
      have hlen : done.length = before.length := hdone.length_eq
      have hat : l[done.length]? = some a := by
        rw [← hl, hlen]
        simp
      have hnext := ih (done ++ [v]) (before ++ [a]) (by simpa using hl)
        (List.rel_append hdone (.cons (halike _ _ _ hat hv) .nil))
      simp only [List.length_append, List.length_cons, List.length_nil, Nat.zero_add,
        List.append_assoc, List.cons_append, List.nil_append] at hnext
      have hmap : (Except.ok v : Except ε α).map (fun v => mk (done ++ v :: rest)) =
          .ok (mk (done ++ v :: rest)) := rfl
      rw [hmap, ok_bind, hnext, ok_bind]
      cases (List.range' (done.length + 1) rest.length).mapM f <;> rfl

/-- The whole loop. -/
theorem foldlM_range (mk : List α → σ) {step : σ → Nat → Except ε σ} {f : Nat → Except ε α}
    {Alike : α → α → Prop} {l : List α}
    (hstep : ∀ done before a rest, before ++ a :: rest = l → List.Forall₂ Alike done before →
      step (mk (done ++ a :: rest)) done.length =
        (f done.length).map fun v => mk (done ++ v :: rest))
    (halike : ∀ (i : Nat) a v, l[i]? = some a → f i = .ok v → Alike v a) :
    (List.range l.length).foldlM step (mk l) = ((List.range l.length).mapM f).map mk := by
  have h := foldlM_range' hstep halike l [] [] rfl .nil
  simpa only [List.range_eq_range', List.length_nil, List.nil_append] using h

end Updates
