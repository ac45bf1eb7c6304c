import Mathlib

/-!
Inversion rules for computations that stop at their first failure. A chain of
checks is peeled apart one bind at a time, so that no proof about such a chain
has to unfold the monad.
-/
namespace ExceptRules

variable {ε α β : Type}

/-- Stop with `e` when the refused condition holds. -/
def reject (c : Prop) [Decidable c] (e : ε) : Except ε Unit :=
  if c then .error e else .ok ()

/-- A missing value is the failure `e`. -/
def orElseThrow (e : ε) : Option α → Except ε α
  | none => .error e
  | some a => .ok a

@[simp] theorem ok_bind (a : α) (f : α → Except ε β) : (Except.ok a >>= f) = f a := rfl
@[simp] theorem error_bind (e : ε) (f : α → Except ε β) :
    (Except.error e >>= f) = Except.error e := rfl
@[simp] theorem map_ok (f : α → β) (a : α) : (f <$> (Except.ok a : Except ε α)) = .ok (f a) := rfl
@[simp] theorem pure_eq_ok (a : α) : (pure a : Except ε α) = .ok a := rfl
@[simp] theorem throw_eq_error (e : ε) : (throw e : Except ε α) = .error e := rfl

@[simp] theorem orElseThrow_none (e : ε) : orElseThrow e (none : Option α) = .error e := rfl
@[simp] theorem orElseThrow_some (e : ε) (a : α) : orElseThrow e (some a) = .ok a := rfl

@[simp] theorem reject_true {c : Prop} [Decidable c] (e : ε) (h : c) :
    reject c e = .error e := if_pos h
@[simp] theorem reject_false {c : Prop} [Decidable c] (e : ε) (h : ¬c) :
    reject c e = .ok () := if_neg h

/-- A successful chain has a successful first link. -/
theorem bind_eq_ok {x : Except ε α} {f : α → Except ε β} {b : β} :
    (x >>= f) = .ok b ↔ ∃ a, x = .ok a ∧ f a = .ok b := by
  cases x with
  | error e => simp
  | ok a => simp

/-- A computation that gives a value. -/
def Succeeds (x : Except ε α) : Prop := ∃ a, x = .ok a

@[simp] theorem succeeds_ok (a : α) : Succeeds (.ok a : Except ε α) := ⟨a, rfl⟩
@[simp] theorem not_succeeds_error (e : ε) : ¬Succeeds (.error e : Except ε α) := nofun

/-- A closed computation is run to see that it succeeds. -/
theorem succeeds_of_toBool {x : Except ε α} (h : x.toBool = true) : Succeeds x := by
  cases x with
  | error e => cases h
  | ok a => exact ⟨a, rfl⟩

theorem succeeds_bind {x : Except ε α} {f : α → Except ε β} :
    Succeeds (x >>= f) ↔ ∃ a, x = .ok a ∧ Succeeds (f a) := by
  cases x with
  | error e => simp
  | ok a => simp

/-- A continuation whose success does not depend on the value it is given. -/
theorem succeeds_bind_of_const {x : Except ε α} {f : α → Except ε β} {p : Prop}
    (h : ∀ a, Succeeds (f a) ↔ p) : Succeeds (x >>= f) ↔ Succeeds x ∧ p := by
  cases x with
  | error e => simp
  | ok a => simp [h]

theorem not_succeeds_iff {x : Except ε α} : ¬Succeeds x ↔ ∃ e, x = .error e := by
  cases x <;> simp [Succeeds]

theorem bind_eq_error {x : Except ε α} {f : α → Except ε β} {e : ε} :
    (x >>= f) = .error e ↔ x = .error e ∨ ∃ a, x = .ok a ∧ f a = .error e := by
  cases x with
  | error d => simp
  | ok a => simp

theorem map_eq_ok {x : Except ε α} {f : α → β} {b : β} :
    (f <$> x) = .ok b ↔ ∃ a, x = .ok a ∧ f a = b := by
  cases x with
  | error e => simp [Functor.map, Except.map]
  | ok a => simp

theorem map_eq_error {x : Except ε α} {f : α → β} {e : ε} :
    (f <$> x) = .error e ↔ x = .error e := by
  cases x with
  | error d => simp [Functor.map, Except.map]
  | ok a => simp [Functor.map, Except.map]

/-- A passed check means the refused condition is false. -/
theorem reject_eq_ok {c : Prop} [Decidable c] {e : ε} {u : Unit} :
    reject c e = .ok u ↔ ¬c := by
  by_cases h : c <;> simp [reject, h]

theorem reject_bind_eq_ok {c : Prop} [Decidable c] {e : ε} {f : Unit → Except ε β} {b : β} :
    (reject c e >>= f) = .ok b ↔ ¬c ∧ f () = .ok b := by
  by_cases h : c <;> simp [reject, h]

theorem reject_eq_error {c : Prop} [Decidable c] {d e : ε} :
    reject c d = .error e ↔ c ∧ d = e := by
  by_cases h : c <;> simp [reject, h]

theorem orElseThrow_eq_ok {e : ε} {o : Option α} {a : α} :
    orElseThrow e o = .ok a ↔ o = some a := by
  cases o <;> simp [orElseThrow]

/-- The branch that was taken. -/
theorem ite_eq_ok {c : Prop} [Decidable c] {x y : Except ε α} {a : α} :
    (if c then x else y) = .ok a ↔ (c ∧ x = .ok a) ∨ (¬c ∧ y = .ok a) := by
  by_cases h : c <;> simp [h]

/-- Translating the failures of a computation keeps its successes. -/
theorem mapError_eq_ok {ε' : Type} {x : Except ε α} {f : ε → ε'} {a : α} :
    x.mapError f = .ok a ↔ x = .ok a := by
  cases x <;> simp [Except.mapError]

/-- A list of computations succeeds exactly with the list of their results. -/
theorem mapM_eq_ok {f : α → Except ε β} {l : List α} {r : List β} :
    l.mapM f = .ok r ↔ List.Forall₂ (fun a b => f a = .ok b) l r := by
  induction l generalizing r with
  | nil => cases r <;> simp
  | cons a l ih =>
    simp only [List.mapM_cons, bind_eq_ok, pure_eq_ok]
    constructor
    · rintro ⟨b, hb, bs, hbs, he⟩
      cases he
      exact .cons hb (ih.mp hbs)
    · intro h
      cases h with
      | cons hb hbs => exact ⟨_, hb, _, ih.mpr hbs, rfl⟩

/-- The results of a successful list of computations, position by position. -/
theorem mapM_getElem? {f : α → Except ε β} {l : List α} {r : List β}
    (h : l.mapM f = .ok r) (i : Nat) (b : β) (hb : r[i]? = some b) :
    ∃ a, l[i]? = some a ∧ f a = .ok b := by
  induction mapM_eq_ok.mp h generalizing i with
  | nil => simp at hb
  | @cons a c l r hac htail ih =>
    cases i with
    | zero =>
      simp only [List.getElem?_cons_zero, Option.some.injEq] at hb
      exact ⟨a, rfl, hb ▸ hac⟩
    | succ i => exact ih (mapM_eq_ok.mpr htail) i (by simpa using hb)

theorem mapM_length {f : α → Except ε β} {l : List α} {r : List β}
    (h : l.mapM f = .ok r) : r.length = l.length :=
  (mapM_eq_ok.mp h).length_eq.symm

/-- A computation whose only failure is `e`. -/
def OnlyError (e : ε) (x : Except ε α) : Prop := ∀ d, x = .error d → d = e

theorem OnlyError.ok {e : ε} (a : α) : OnlyError e (.ok a : Except ε α) := nofun

theorem OnlyError.bind {e : ε} {x : Except ε α} {f : α → Except ε β} (hx : OnlyError e x)
    (hf : ∀ a, x = .ok a → OnlyError e (f a)) : OnlyError e (x >>= f) := by
  intro d hd
  rcases bind_eq_error.mp hd with h | ⟨a, ha, h⟩
  · exact hx d h
  · exact hf a ha d h

theorem OnlyError.mapM {e : ε} {f : α → Except ε β} {l : List α}
    (h : ∀ a ∈ l, OnlyError e (f a)) : OnlyError e (l.mapM f) := by
  induction l with
  | nil => exact .ok []
  | cons a l ih =>
    rw [List.mapM_cons]
    refine .bind (h a List.mem_cons_self) fun b _ => ?_
    exact .bind (ih fun a ha => h a (List.mem_cons_of_mem _ ha)) fun bs _ => .ok _

/-- A loop of checks passes when none of them refuses. -/
theorem forM_reject_eq_ok {c : α → Prop} [DecidablePred c] {e : α → ε} {l : List α} {u : Unit} :
    (l.forM fun a => reject (c a) (e a)) = .ok u ↔ ∀ a ∈ l, ¬ c a := by
  induction l with
  | nil => exact iff_of_true rfl fun _ ha => absurd ha List.not_mem_nil
  | cons a l ih =>
    rw [List.forall_mem_cons, ← ih]
    exact reject_bind_eq_ok

theorem forM_reject_ok {c : α → Prop} [DecidablePred c] {e : α → ε} {l : List α}
    (h : ∀ a ∈ l, ¬ c a) : (l.forM fun a => reject (c a) (e a)) = .ok () :=
  forM_reject_eq_ok.mpr h

/-- A list of computations succeeds when each of them does. -/
theorem mapM_ok_of_forall {f : α → Except ε β} {l : List α} (h : ∀ a ∈ l, ∃ b, f a = .ok b) :
    ∃ r, l.mapM f = .ok r := by
  induction l with
  | nil => exact ⟨[], rfl⟩
  | cons a l ih =>
    obtain ⟨b, hb⟩ := h a List.mem_cons_self
    obtain ⟨bs, hbs⟩ := ih fun a ha => h a (List.mem_cons_of_mem _ ha)
    exact ⟨b :: bs, by rw [List.mapM_cons, hb, hbs]; rfl⟩

theorem succeeds_mapM {f : α → Except ε β} {l : List α} :
    Succeeds (l.mapM f) ↔ ∀ a ∈ l, Succeeds (f a) := by
  constructor
  · rintro ⟨r, hr⟩ a ha
    obtain ⟨i, hi⟩ := List.mem_iff_getElem?.mp ha
    have hlt : i < r.length := by
      rw [mapM_length hr]
      exact (List.getElem?_eq_some_iff.mp hi).1
    obtain ⟨a', ha', hfa⟩ := mapM_getElem? hr i r[i] (List.getElem?_eq_getElem hlt)
    rw [hi, Option.some.injEq] at ha'
    exact ⟨_, ha' ▸ hfa⟩
  · exact mapM_ok_of_forall

/-- Two lists joined item by item. -/
theorem zip_mapM_ok_of_forall {γ : Type} {f : α → β → Except ε γ} {as : List α} {bs : List β}
    (h : ∀ (i : Nat) a b, as[i]? = some a → bs[i]? = some b → ∃ c, f a b = .ok c) :
    ∃ r, (as.zip bs).mapM (fun (x, y) => f x y) = .ok r := by
  apply mapM_ok_of_forall
  rintro ⟨a, b⟩ hab
  obtain ⟨i, hi⟩ := List.mem_iff_getElem?.mp hab
  obtain ⟨ha, hb⟩ := List.getElem?_zip_eq_some.mp hi
  exact h i a b ha hb

/-- A list joined with itself, where each item joins with itself. -/
theorem mapM_zip_self {f : α → α → Except ε α} {l : List α} (h : ∀ a ∈ l, f a a = .ok a) :
    (l.zip l).mapM (fun (x, y) => f x y) = .ok l := by
  induction l with
  | nil => rfl
  | cons a l ih =>
    have hrest := ih fun a ha => h a (List.mem_cons_of_mem _ ha)
    simp only [List.zip_cons_cons, List.mapM_cons, h a List.mem_cons_self, ok_bind, hrest,
      pure_eq_ok]

/-- A computation that never fails with `e`. -/
def Avoids (e : ε) (x : Except ε α) : Prop := x ≠ .error e

theorem Avoids.ok {e : ε} (a : α) : Avoids e (.ok a : Except ε α) := nofun

theorem Avoids.error {d e : ε} (h : d ≠ e) : Avoids e (.error d : Except ε α) := by
  intro he
  cases he
  exact h rfl

theorem Avoids.bind {e : ε} {x : Except ε α} {f : α → Except ε β} (hx : Avoids e x)
    (hf : ∀ a, Avoids e (f a)) : Avoids e (x >>= f) := by
  intro h
  cases bind_eq_error.mp h with
  | inl h => exact hx h
  | inr h =>
    obtain ⟨a, -, h⟩ := h
    exact hf a h

theorem Avoids.reject {c : Prop} [Decidable c] {d e : ε} (h : d ≠ e) :
    Avoids e (ExceptRules.reject c d) := by
  intro he
  exact h (reject_eq_error.mp he).2

theorem Avoids.orElseThrow {d e : ε} (h : d ≠ e) (o : Option α) :
    Avoids e (ExceptRules.orElseThrow d o) := by
  cases o with
  | none => exact .error h
  | some a => exact .ok a

theorem Avoids.mapM {e : ε} {f : α → Except ε β} (h : ∀ a, Avoids e (f a)) (l : List α) :
    Avoids e (l.mapM f) := by
  induction l with
  | nil => exact .ok []
  | cons a l ih =>
    rw [List.mapM_cons]
    exact .bind (h a) fun b => .bind ih fun bs => .ok (b :: bs)

/-- A computation that fails, and not in one of the expected ways. -/
def FailsOutside (K : ε → Prop) (x : Except ε α) : Prop := ∃ e, x = .error e ∧ ¬ K e

section FailsOutside

variable {K : ε → Prop}

theorem not_failsOutside_ok (a : α) : ¬ FailsOutside K (.ok a : Except ε α) := by
  rintro ⟨e, he, -⟩
  cases he

theorem not_failsOutside_error {e : ε} (h : K e) : ¬ FailsOutside K (.error e : Except ε α) := by
  rintro ⟨d, hd, hK⟩
  cases hd
  exact hK h

theorem failsOutside_bind {x : Except ε α} {f : α → Except ε β} :
    FailsOutside K (x >>= f) ↔
      FailsOutside K x ∨ ∃ a, x = .ok a ∧ FailsOutside K (f a) := by
  cases x with
  | error e => simp [FailsOutside]
  | ok a => simp [FailsOutside]

/-- An expected failure is passed on the way to an unexpected one. -/
theorem failsOutside_bind_of_not {x : Except ε α} {f : α → Except ε β} (h : ¬ FailsOutside K x) :
    FailsOutside K (x >>= f) ↔ ∃ a, x = .ok a ∧ FailsOutside K (f a) := by
  rw [failsOutside_bind]
  exact or_iff_right h

theorem failsOutside_bind_ok {x : Except ε α} {g : α → β} :
    FailsOutside K (x >>= fun a => .ok (g a)) ↔ FailsOutside K x := by
  rw [failsOutside_bind]
  refine or_iff_left ?_
  rintro ⟨a, -, h⟩
  exact not_failsOutside_ok _ h

theorem failsOutside_reject_bind {c : Prop} [Decidable c] {e : ε} (h : K e)
    {f : Unit → Except ε β} :
    FailsOutside K (reject c e >>= f) ↔ ¬ c ∧ FailsOutside K (f ()) := by
  by_cases hc : c
  · rw [reject_true e hc]
    exact iff_of_false (not_failsOutside_error h) fun hn => hn.1 hc
  · rw [reject_false e hc, ok_bind]
    exact (and_iff_right hc).symm

theorem failsOutside_orElseThrow_bind {e : ε} (h : K e) {o : Option α} {f : α → Except ε β} :
    FailsOutside K (orElseThrow e o >>= f) ↔ ∃ a, o = some a ∧ FailsOutside K (f a) := by
  cases o with
  | none =>
    refine iff_of_false (not_failsOutside_error h) ?_
    rintro ⟨a, ha, -⟩
    cases ha
  | some a => simp

/-- Where no failure is expected, failing is not succeeding. -/
theorem failsOutside_iff {x : Except ε α} (h : ∀ e, x = .error e → ¬ K e) :
    FailsOutside K x ↔ ¬ Succeeds x := by
  rw [not_succeeds_iff]
  exact ⟨fun ⟨e, he, _⟩ => ⟨e, he⟩, fun ⟨e, he⟩ => ⟨e, he, h e he⟩⟩

theorem mapM_eq_error {f : α → Except ε β} {l : List α} {e : ε} (h : l.mapM f = .error e) :
    ∃ a ∈ l, f a = .error e := by
  induction l with
  | nil => cases h
  | cons a l ih =>
    rw [List.mapM_cons] at h
    rcases bind_eq_error.mp h with h | ⟨b, -, h⟩
    · exact ⟨a, List.mem_cons_self, h⟩
    · rcases bind_eq_error.mp h with h | ⟨bs, -, h⟩
      · obtain ⟨a', ha', h⟩ := ih h
        exact ⟨a', List.mem_cons_of_mem _ ha', h⟩
      · cases h

end FailsOutside

/-- Where every other computation of a list succeeds, the list fails as the one does. -/
theorem mapM_of_others {f : α → Except ε β} {l : List α} {i : Nat} {a : α}
    (ha : l[i]? = some a) (h : ∀ j b, j ≠ i → l[j]? = some b → ∃ r, f b = .ok r) :
    ((∃ rs, l.mapM f = .ok rs) ↔ ∃ r, f a = .ok r) ∧
      ∀ e, f a = .error e → l.mapM f = .error e := by
  induction l generalizing i with
  | nil => simp at ha
  | cons b l ih =>
    rw [List.mapM_cons]
    cases i with
    | zero =>
      obtain rfl : b = a := by simpa using ha
      have htail : ∃ rs, l.mapM f = .ok rs := by
        apply mapM_ok_of_forall
        intro c hc
        obtain ⟨j, hj⟩ := List.mem_iff_getElem?.mp hc
        exact h (j + 1) c (by omega) (by simpa using hj)
      obtain ⟨rs, hrs⟩ := htail
      cases hb : f b with
      | ok r => exact ⟨⟨fun _ => ⟨r, rfl⟩, fun _ => ⟨r :: rs, by rw [ok_bind, hrs]; rfl⟩⟩, nofun⟩
      | error e =>
        refine ⟨⟨fun ⟨_, hr⟩ => (nomatch hr), fun ⟨_, hr⟩ => (nomatch hr)⟩, ?_⟩
        intro e' he
        cases he
        rfl
    | succ i =>
      obtain ⟨r, hr⟩ := h 0 b (by omega) rfl
      obtain ⟨hiff, herr⟩ := ih (by simpa using ha) fun j c hj hc =>
        h (j + 1) c (by omega) (by simpa using hc)
      rw [hr, ok_bind, ← hiff]
      constructor
      · constructor
        · rintro ⟨rs, hrs⟩
          obtain ⟨rs', hrs', -⟩ := bind_eq_ok.mp hrs
          exact ⟨rs', hrs'⟩
        · rintro ⟨rs, hrs⟩
          exact ⟨r :: rs, by rw [hrs]; rfl⟩
      · intro e he
        rw [herr e he]
        rfl

/-- Invariants of a loop over a list, as a property of what has been consumed. -/
theorem foldlM_induct {f : β → α → Except ε β} {l : List α} {motive : List α → β → Prop}
    {b r : β} (start : motive [] b)
    (step : ∀ done a rest b b', done ++ a :: rest = l → motive done b → f b a = .ok b' →
      motive (done ++ [a]) b')
    (h : l.foldlM f b = .ok r) : motive l r := by
  suffices H : ∀ rest done b, done ++ rest = l → motive done b → rest.foldlM f b = .ok r →
      motive l r from H l [] b rfl start h
  intro rest
  induction rest with
  | nil =>
    intro done b hl hb hr
    cases hr
    rwa [← hl, List.append_nil]
  | cons a rest ih =>
    intro done b hl hb hr
    rw [List.foldlM_cons] at hr
    obtain ⟨b', hb', hr⟩ := bind_eq_ok.mp hr
    exact ih (done ++ [a]) b' (by simpa using hl) (step done a rest b b' hl hb hb') hr

/-- A computation for each position succeeds with `r` exactly when every position holds
what `r` puts there and the values pass their check. -/
theorem mapM_range_eq_ok {γ : Type} {n : Nat} {f : Nat → Except ε β} {g : Nat → γ}
    {h : Nat → β → γ} {check : β → Prop}
    (hf : ∀ i < n, ∀ b, f i = .ok b ↔ g i = h i b ∧ check b) {r : List β} :
    (List.range n).mapM f = .ok r ↔
      (List.range n).map g = r.mapIdx h ∧ ∀ b ∈ r, check b := by
  rw [mapM_eq_ok, List.forall₂_iff_get]
  constructor
  · rintro ⟨hl, hget⟩
    have hpos : ∀ i (hi : i < r.length), g i = h i r[i] ∧ check r[i] := fun i hi => by
      have hn : i < n := by simpa [← hl] using hi
      exact (hf i hn _).mp (by simpa using hget i (by simpa using hn) hi)
    refine ⟨List.ext_getElem (by simpa using hl) fun i hi hi' => ?_, fun b hb => ?_⟩
    · simpa using (hpos i (by simpa using hi')).1
    · obtain ⟨i, hi, rfl⟩ := List.getElem_of_mem hb
      exact (hpos i hi).2
  · rintro ⟨heq, hcheck⟩
    have hl : n = r.length := by simpa using congrArg List.length heq
    refine ⟨by simpa using hl, fun i hi hi' => ?_⟩
    have hn : i < n := hl ▸ hi'
    have hget := List.getElem_of_eq heq (show i < ((List.range n).map g).length by simpa using hn)
    simp only [List.getElem_map, List.getElem_range, List.getElem_mapIdx] at hget
    simpa using (hf i hn r[i]).mpr ⟨hget, hcheck _ (List.getElem_mem _)⟩

/-- A list of optional values is there when each of them is. -/
theorem option_mapM_eq_some {f : α → Option β} {l : List α} {r : List β} :
    l.mapM f = some r ↔ List.Forall₂ (fun a b => f a = some b) l r := by
  induction l generalizing r with
  | nil => cases r <;> simp
  | cons a l ih =>
    simp only [List.mapM_cons, Option.bind_eq_bind, Option.bind_eq_some_iff, Option.pure_def,
      Option.some.injEq]
    constructor
    · rintro ⟨b, hb, bs, hbs, he⟩
      cases he
      exact .cons hb (ih.mp hbs)
    · intro h
      cases h with
      | cons hb hbs => exact ⟨_, hb, _, ih.mpr hbs, rfl⟩

theorem option_mapM_of_forall {f : α → Option β} {l : List α} (h : ∀ a ∈ l, ∃ b, f a = some b) :
    ∃ r, l.mapM f = some r := by
  induction l with
  | nil => exact ⟨[], rfl⟩
  | cons a l ih =>
    obtain ⟨b, hb⟩ := h a List.mem_cons_self
    obtain ⟨bs, hbs⟩ := ih fun a ha => h a (List.mem_cons_of_mem _ ha)
    exact ⟨b :: bs, by rw [List.mapM_cons, hb, hbs]; rfl⟩

end ExceptRules
