import Mathlib

/-!
Calls on one state, each of which answers. Calls that can be exchanged wherever they meet are
independent, and a run may be reordered along them: it ends in the same state, and every call
gives the same answer. When calls on different components are independent, only the order of the
calls on each component counts.
-/
namespace Interleavings

variable {σ γ α β ι : Type}

/-- Carry out calls one after another, and note what each of them answers. -/
def run (call : γ → σ → β × σ) : List γ → σ → List (γ × β) × σ
  | [], s => ([], s)
  | c :: rest, s =>
    ((c, (call c s).1) :: (run call rest (call c s).2).1, (run call rest (call c s).2).2)

/-- Two calls that do not see each other. -/
structure Independent (call : γ → σ → β × σ) (c d : γ) : Prop where
  state : ∀ s, (call d (call c s).2).2 = (call c (call d s).2).2
  first : ∀ s, (call c (call d s).2).1 = (call c s).1
  second : ∀ s, (call d (call c s).2).1 = (call d s).1

/-- The runs that exchanging neighbours leads to. -/
inductive Reorders (exchange : γ → γ → Prop) : List γ → List γ → Prop
  | nil : Reorders exchange [] []
  | cons {l l' : List γ} (c : γ) (h : Reorders exchange l l') :
      Reorders exchange (c :: l) (c :: l')
  | swap {c d : γ} (l : List γ) (h : exchange c d) :
      Reorders exchange (c :: d :: l) (d :: c :: l)
  | trans {l l' l'' : List γ} (h : Reorders exchange l l') (h' : Reorders exchange l' l'') :
      Reorders exchange l l''

section Reordering

variable {exchange : γ → γ → Prop} {call : γ → σ → β × σ}

theorem Reorders.refl (l : List γ) : Reorders exchange l l := by
  induction l with
  | nil => exact .nil
  | cons c l ih => exact .cons c ih

/-- A reordered run ends in the same state, and every call answers as before. -/
theorem Reorders.run (hexchange : ∀ c d, exchange c d → Independent call c d) {l l' : List γ}
    (h : Reorders exchange l l') (s : σ) :
    (Interleavings.run call l s).2 = (Interleavings.run call l' s).2 ∧
      (Interleavings.run call l s).1.Perm (Interleavings.run call l' s).1 := by
  induction h generalizing s with
  | nil => exact ⟨rfl, .nil⟩
  | cons c _ ih =>
    obtain ⟨hstate, hanswers⟩ := ih (call c s).2
    exact ⟨hstate, hanswers.cons _⟩
  | @swap c d l h =>
    have hind := hexchange c d h
    simp only [Interleavings.run, hind.state, hind.first, hind.second]
    exact ⟨trivial, .swap _ _ _⟩
  | trans _ _ ih ih' => exact ⟨(ih s).1.trans (ih' s).1, (ih s).2.trans (ih' s).2⟩

/-- A call may be moved to the front of calls it can be exchanged with. -/
theorem Reorders.front {c : γ} {before : List γ} (after : List γ)
    (h : ∀ d ∈ before, exchange d c) :
    Reorders exchange (before ++ c :: after) (c :: (before ++ after)) := by
  induction before with
  | nil => exact .refl _
  | cons d before ih =>
    obtain ⟨hd, hbefore⟩ := List.forall_mem_cons.mp h
    exact .trans (.cons d (ih hbefore)) (.swap _ hd)

theorem Reorders.symm (hsymm : ∀ c d, exchange c d → exchange d c) {l l' : List γ}
    (h : Reorders exchange l l') : Reorders exchange l' l := by
  induction h with
  | nil => exact .nil
  | cons c _ ih => exact .cons c ih
  | swap l h => exact .swap l (hsymm _ _ h)
  | trans _ _ ih ih' => exact .trans ih' ih

/-- Calls all of which can be exchanged may come in any order. -/
theorem Reorders.of_perm {l l' : List γ} (hperm : l.Perm l')
    (h : ∀ c ∈ l, ∀ d ∈ l, exchange c d) : Reorders exchange l l' := by
  induction hperm with
  | nil => exact .nil
  | cons c _ ih =>
    refine .cons c (ih ?_)
    intro a ha b hb
    exact h a (List.mem_cons_of_mem _ ha) b (List.mem_cons_of_mem _ hb)
  | swap c d l =>
    exact .swap l (h d List.mem_cons_self c (List.mem_cons_of_mem _ List.mem_cons_self))
  | trans hl _ ih ih' =>
    refine .trans (ih h) (ih' ?_)
    intro a ha b hb
    exact h a (hl.mem_iff.mpr ha) b (hl.mem_iff.mpr hb)

end Reordering

section Components

variable [DecidableEq ι]

/-- The calls on one component, in their order. -/
def onComponent (i : ι) (l : List (ι × α)) : List (ι × α) := l.filter fun c => c.1 = i

theorem onComponent_cons_self {i : ι} {a : α} {l : List (ι × α)} :
    onComponent i ((i, a) :: l) = (i, a) :: onComponent i l := by
  simp [onComponent]

theorem onComponent_cons_ne {i j : ι} {a : α} {l : List (ι × α)} (h : j ≠ i) :
    onComponent i ((j, a) :: l) = onComponent i l := by
  simp [onComponent, h]

theorem onComponent_append {i : ι} (l l' : List (ι × α)) :
    onComponent i (l ++ l') = onComponent i l ++ onComponent i l' :=
  List.filter_append ..

/-- Runs with the same calls on each component, in the same order there, are reorderings of each
other by exchanges across components. -/
theorem reorders_of_components {l l' : List (ι × α)}
    (h : ∀ i, onComponent i l = onComponent i l') :
    Reorders (fun c d => c.1 ≠ d.1) l l' := by
  induction l generalizing l' with
  | nil =>
    have hnone : l' = [] := by
      rw [List.eq_nil_iff_forall_not_mem]
      rintro ⟨i, a⟩ hmem
      have hon : (i, a) ∈ onComponent i l' := List.mem_filter.mpr ⟨hmem, decide_eq_true rfl⟩
      rw [← h i] at hon
      cases hon
    rw [hnone]
    exact .nil
  | cons c l ih =>
    obtain ⟨i, a⟩ := c
    have hi := h i
    rw [onComponent_cons_self] at hi
    obtain ⟨before, after, rfl, hbefore, -, hafter⟩ := List.filter_eq_cons_iff.mp hi.symm
    have hother : ∀ d ∈ before, d.1 ≠ i := by
      intro d hd heq
      exact hbefore d hd (decide_eq_true heq)
    have hrest : ∀ j, onComponent j l = onComponent j (before ++ after) := by
      intro j
      have hj := h j
      rw [onComponent_append] at hj ⊢
      by_cases hij : i = j
      · subst hij
        have hnone : onComponent i before = [] :=
          List.filter_eq_nil_iff.mpr fun d hd => hbefore d hd
        rw [hnone, List.nil_append]
        exact hafter.symm
      · rw [onComponent_cons_ne hij, onComponent_cons_ne hij] at hj
        exact hj
    exact .trans (.cons _ (ih hrest))
      (Reorders.symm (fun _ _ => Ne.symm) (.front after hother))

/-- What the calls on one component answer, in their order. -/
def answersOn (i : ι) (answers : List ((ι × α) × β)) : List ((ι × α) × β) :=
  answers.filter fun a => a.1.1 = i

variable {call : ι × α → σ → β × σ}

/-- Exchanges across components leave the answers on each of them in their order. -/
theorem Reorders.answersOn (hind : ∀ c d, c.1 ≠ d.1 → Independent call c d) {l l' : List (ι × α)}
    (h : Reorders (fun c d => c.1 ≠ d.1) l l') (s : σ) (i : ι) :
    Interleavings.answersOn i (Interleavings.run call l s).1 =
      Interleavings.answersOn i (Interleavings.run call l' s).1 := by
  induction h generalizing s with
  | nil => rfl
  | cons c _ ih =>
    have hrest := ih (call c s).2
    unfold Interleavings.answersOn at hrest
    simp only [Interleavings.run, Interleavings.answersOn, List.filter_cons, hrest]
  | @swap c d l h =>
    have hcd := hind c d h
    simp only [Interleavings.run, Interleavings.answersOn, List.filter_cons, hcd.state, hcd.first,
      hcd.second]
    by_cases hc : c.1 = i
    · have hd : d.1 ≠ i := fun hd => h (hc.trans hd.symm)
      simp [hc, hd]
    · simp [hc]
  | trans _ _ ih ih' => exact (ih s).trans (ih' s)

/-- Only the order of the calls on each component counts: the run ends in the same state, and the
calls on a component answer the same, one after another. -/
theorem run_of_components (hind : ∀ c d, c.1 ≠ d.1 → Independent call c d) {l l' : List (ι × α)}
    (h : ∀ i, onComponent i l = onComponent i l') (s : σ) :
    (run call l s).2 = (run call l' s).2 ∧
      ∀ i, answersOn i (run call l s).1 = answersOn i (run call l' s).1 :=
  ⟨(Reorders.run hind (reorders_of_components h) s).1,
    Reorders.answersOn hind (reorders_of_components h) s⟩

end Components

end Interleavings
