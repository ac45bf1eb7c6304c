import Yubtc.Lib.ExceptRules

/-!
Runs on copies of one state. A copy gains contributions one at a time, and two copies can be
joined. Where each step keeps an invariant of the set of contributions made so far, every run
succeeds, and what a run shows of its result depends on that set only.
-/
namespace Copies

open ExceptRules

variable {ι σ τ ε : Type}

/-- A run: begin with the shared state, contribute to a copy, or join two copies. -/
inductive Run (ι : Type) where
  | start
  | add (run : Run ι) (i : ι)
  | join (left right : Run ι)

/-- What has been contributed, in any order and any number of times. -/
def Run.contributions : Run ι → Set ι
  | .start => ∅
  | .add run i => insert i run.contributions
  | .join left right => left.contributions ∪ right.contributions

/-- Carry out a run. -/
def Run.eval (start : σ) (add : ι → σ → Except ε σ) (join : σ → σ → Except ε σ) :
    Run ι → Except ε σ
  | .start => .ok start
  | .add run i => do
    let s ← run.eval start add join
    add i s
  | .join left right => do
    let s ← left.eval start add join
    let t ← right.eval start add join
    join s t

/-- A run that goes on from the end of another. -/
def Run.andThen (first : Run ι) : Run ι → Run ι
  | .start => first
  | .add run i => .add (first.andThen run) i
  | .join left right => .join (first.andThen left) (first.andThen right)

/-- The invariant of the contributions made so far, kept by each step. -/
structure Grows (start : σ) (add : ι → σ → Except ε σ) (join : σ → σ → Except ε σ)
    (allowed : ι → Prop) (Holds : Set ι → σ → Prop) : Prop where
  start : Holds ∅ start
  add : ∀ S s i, allowed i → (∀ j ∈ S, allowed j) → Holds S s →
    ∃ s', add i s = .ok s' ∧ Holds (insert i S) s'
  join : ∀ S T s t, (∀ j ∈ S, allowed j) → (∀ j ∈ T, allowed j) → Holds S s → Holds T t →
    ∃ r, join s t = .ok r ∧ Holds (S ∪ T) r

section

variable {start : σ} {add : ι → σ → Except ε σ} {join : σ → σ → Except ε σ}
  {allowed : ι → Prop} {Holds : Set ι → σ → Prop}

/-- Every run succeeds and ends with its contributions. -/
theorem Grows.eval (h : Grows start add join allowed Holds) (run : Run ι)
    (hall : ∀ i ∈ run.contributions, allowed i) :
    ∃ s, run.eval start add join = .ok s ∧ Holds run.contributions s := by
  induction run with
  | start => exact ⟨start, rfl, h.start⟩
  | add run i ih =>
    have hrun : ∀ j ∈ run.contributions, allowed j := fun j hj =>
      hall j (Set.mem_insert_of_mem i hj)
    obtain ⟨s, hs, hholds⟩ := ih hrun
    obtain ⟨s', hs', hholds'⟩ := h.add _ s i (hall i (Set.mem_insert i _)) hrun hholds
    exact ⟨s', by rw [Run.eval, hs, ok_bind, hs'], hholds'⟩
  | join left right ihl ihr =>
    have hleft : ∀ j ∈ left.contributions, allowed j := fun j hj => hall j (.inl hj)
    have hright : ∀ j ∈ right.contributions, allowed j := fun j hj => hall j (.inr hj)
    obtain ⟨s, hs, hholds⟩ := ihl hleft
    obtain ⟨t, ht, hholdt⟩ := ihr hright
    obtain ⟨r, hr, hholdr⟩ := h.join _ _ s t hleft hright hholds hholdt
    exact ⟨r, by rw [Run.eval, hs, ok_bind, ht, ok_bind, hr], hholdr⟩

/-- Runs with the same contributions show the same. -/
theorem Grows.confluent (h : Grows start add join allowed Holds) {out : σ → τ}
    (hout : ∀ S s t, (∀ i ∈ S, allowed i) → Holds S s → Holds S t → out s = out t)
    {run run' : Run ι} (hall : ∀ i ∈ run.contributions, allowed i)
    (hsame : run'.contributions = run.contributions) {s s' : σ}
    (hs : run.eval start add join = .ok s) (hs' : run'.eval start add join = .ok s') :
    out s = out s' := by
  obtain ⟨t, ht, hholds⟩ := h.eval run hall
  obtain ⟨t', ht', hholds'⟩ := h.eval run' (hsame ▸ hall)
  cases ht.symm.trans hs
  cases ht'.symm.trans hs'
  exact hout _ _ _ hall hholds (hsame ▸ hholds')

theorem Run.eval_andThen {first : Run ι} {s : σ} (h : first.eval start add join = .ok s)
    (run : Run ι) : (first.andThen run).eval start add join = run.eval s add join := by
  induction run with
  | start => exact h
  | add run i ih => rw [Run.andThen, Run.eval, Run.eval, ih]
  | join left right ihl ihr => rw [Run.andThen, Run.eval, Run.eval, ihl, ihr]

theorem Run.contributions_andThen (first run : Run ι) :
    (first.andThen run).contributions = first.contributions ∪ run.contributions := by
  induction run with
  | start => exact (Set.union_empty _).symm
  | add run i ih => rw [Run.andThen, Run.contributions, Run.contributions, ih, Set.union_insert]
  | join left right ihl ihr =>
    rw [Run.andThen, Run.contributions, Run.contributions, ihl, ihr, ← Set.union_union_distrib_left]

/-- Contributions one after the other. -/
theorem Run.eval_foldl (l : List ι) (run : Run ι) :
    (l.foldl Run.add run).eval start add join =
      run.eval start add join >>= fun s => l.foldlM (fun s i => add i s) s := by
  induction l generalizing run with
  | nil => exact (bind_pure _).symm
  | cons i l ih =>
    rw [List.foldl_cons, ih, Run.eval]
    cases run.eval start add join with
    | error e => rfl
    | ok s =>
      rw [ok_bind, ok_bind, List.foldlM_cons]

theorem Run.contributions_foldl (l : List ι) (run : Run ι) :
    (l.foldl Run.add run).contributions = run.contributions ∪ {i | i ∈ l} := by
  induction l generalizing run with
  | nil => simp
  | cons i l ih =>
    rw [List.foldl_cons, ih, Run.contributions]
    ext j
    simp only [Set.mem_union, Set.mem_insert_iff, Set.mem_ofPred_eq, List.mem_cons]
    tauto

/-- The runs whose results went into a run. -/
inductive Run.Part : Run ι → Run ι → Prop
  | refl (run : Run ι) : Part run run
  | add {part run : Run ι} (i : ι) (h : Part part run) : Part part (run.add i)
  | left {part left : Run ι} (right : Run ι) (h : Part part left) : Part part (left.join right)
  | right {part right : Run ι} (left : Run ι) (h : Part part right) : Part part (left.join right)

/-- What each step keeps, whether or not every step succeeds, holds of the results of all runs. -/
theorem Run.eval_keeps {Holds : σ → Prop} (hstart : Holds start)
    (hadd : ∀ s i s', Holds s → add i s = .ok s' → Holds s')
    (hjoin : ∀ s t r, Holds s → Holds t → join s t = .ok r → Holds r) {run : Run ι} {s : σ}
    (h : run.eval start add join = .ok s) : Holds s := by
  induction run generalizing s with
  | start =>
    cases h
    exact hstart
  | add run i ih =>
    obtain ⟨t, ht, h⟩ := bind_eq_ok.mp h
    exact hadd t i s (ih ht) h
  | join left right ihl ihr =>
    obtain ⟨t, ht, h⟩ := bind_eq_ok.mp h
    obtain ⟨u, hu, h⟩ := bind_eq_ok.mp h
    exact hjoin t u s (ihl ht) (ihr hu) h

/-- A run goes beyond each of its parts, in an order in which every step goes up. -/
theorem Run.part_le {Holds : σ → Prop} {le : σ → σ → Prop} (hrefl : ∀ s, le s s)
    (htrans : ∀ s t u, le s t → le t u → le s u) (hstart : Holds start)
    (hadd : ∀ s i s', Holds s → add i s = .ok s' → Holds s' ∧ le s s')
    (hjoin : ∀ s t r, Holds s → Holds t → join s t = .ok r → Holds r ∧ le s r ∧ le t r)
    {part run : Run ι} (hpart : part.Part run) {s t : σ} (hs : part.eval start add join = .ok s)
    (ht : run.eval start add join = .ok t) : le s t := by
  have hholds : ∀ {run : Run ι} {s : σ}, run.eval start add join = .ok s → Holds s :=
    Run.eval_keeps hstart (fun s i s' hs h => (hadd s i s' hs h).1)
      (fun s t r hs ht h => (hjoin s t r hs ht h).1)
  induction hpart generalizing t with
  | refl =>
    cases hs.symm.trans ht
    exact hrefl s
  | add i _ ih =>
    obtain ⟨u, hu, ht⟩ := bind_eq_ok.mp ht
    exact htrans s u t (ih hu) (hadd u i t (hholds hu) ht).2
  | left right _ ih =>
    obtain ⟨u, hu, ht⟩ := bind_eq_ok.mp ht
    obtain ⟨v, hv, ht⟩ := bind_eq_ok.mp ht
    exact htrans s u t (ih hu) (hjoin u v t (hholds hu) (hholds hv) ht).2.1
  | right left _ ih =>
    obtain ⟨u, hu, ht⟩ := bind_eq_ok.mp ht
    obtain ⟨v, hv, ht⟩ := bind_eq_ok.mp ht
    exact htrans s v t (ih hv) (hjoin u v t (hholds hu) (hholds hv) ht).2.2

end

end Copies
