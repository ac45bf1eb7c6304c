import Yubtc.Net

/-!
# Failover

`AutoBackend` asks the backends one after another. Its walk is observed from outside: each
backend is wrapped so that the world also keeps a log of who was asked, in which state, and
what came back.
-/
namespace Yubtc.Failover

open DynamicJson Net

variable {σ : Type}

structure AutoBackend (σ : Type) where
  backends : List (NetworkBackend σ)
  preferred : Option Nat := none

/-- What a call raises. -/
inductive Failure where
  | allBackendsFailed (message : String)
  | indexError
  deriving DecidableEq

namespace AutoBackend

/-- Preferred first, then the rest of the list wrapping around. -/
def order (self : AutoBackend σ) : List Nat :=
  let total := self.backends.length
  let start := self.preferred.getD 0
  (List.range total).map fun offset => (start + offset) % total

/-- The loop of `_run` over what is left of the order, with the trail so far. -/
def tryEach (self : AutoBackend σ) (r : Request) :
    List Nat → List String → σ → Except Failure Json × AutoBackend σ × σ
  | [], attempts, s =>
    (.error (.allBackendsFailed ("all backends failed: " ++ "; ".intercalate attempts)), self, s)
  | index :: rest, attempts, s =>
    match self.backends[index]? with
    | none => (.error .indexError, self, s)
    | some backend =>
      match backend.request r s with
      | (.error error, s') =>
        self.tryEach r rest (attempts ++ [backend.name ++ ": " ++ error]) s'
      | (.ok result, s') => (.ok result, { self with preferred := some index }, s')

/-- `_run`. -/
def run (self : AutoBackend σ) (r : Request) (s : σ) : Except Failure Json × AutoBackend σ × σ :=
  self.tryEach r self.order [] s

/-- A run of calls, with the result of each. -/
def calls (self : AutoBackend σ) : List Request → σ → List (Except Failure Json) × AutoBackend σ × σ
  | [], s => ([], self, s)
  | r :: rest, s =>
    let first := self.run r s
    let later := first.2.1.calls rest first.2.2
    (first.1 :: later.1, later.2)

end AutoBackend

/-- One backend asked once. -/
structure Attempt (σ : Type) where
  index : Nat
  request : Request
  before : σ
  outcome : Except String Json

def Attempt.failed (a : Attempt σ) : Prop := ∃ error, a.outcome = .error error

/-- The attempt is the backend's own answer to the request. -/
def Attempt.madeFor (backends : List (NetworkBackend σ)) (r : Request) (a : Attempt σ) : Prop :=
  a.request = r ∧ ∃ backend, backends[a.index]? = some backend ∧
    a.outcome = (backend.request r a.before).1

/-- The line of the trail about a failed attempt. -/
def Attempt.entry (backends : List (NetworkBackend σ)) (a : Attempt σ) : String :=
  ((backends[a.index]?).map NetworkBackend.name).getD "" ++ ": " ++
    match a.outcome with
    | .error error => error
    | .ok _ => ""

/-- The backend at a position, keeping the log. -/
def recordedAt (index : Nat) (backend : NetworkBackend σ) :
    NetworkBackend (σ × List (Attempt σ)) where
  name := backend.name
  request := fun r w =>
    ((backend.request r w.1).1, (backend.request r w.1).2,
      w.2 ++ [⟨index, r, w.1, (backend.request r w.1).1⟩])

def recorded (backends : List (NetworkBackend σ)) : List (NetworkBackend (σ × List (Attempt σ))) :=
  backends.mapIdx recordedAt

/-- The backend that succeeded last. -/
def lastSuccess (log : List (Attempt σ)) : Option Nat :=
  (log.filter fun a => a.outcome.isOk).getLast?.map Attempt.index

@[simp] theorem recorded_length (backends : List (NetworkBackend σ)) :
    (recorded backends).length = backends.length := by
  simp [recorded]

@[simp] theorem recorded_getElem? (backends : List (NetworkBackend σ)) (i : Nat) :
    (recorded backends)[i]? = (backends[i]?).map (recordedAt i) := by
  simp [recorded]

/-- The same walk without the log. -/
def forget (x : Except Failure Json × AutoBackend (σ × List (Attempt σ)) × σ × List (Attempt σ)) :
    Except Failure Json × Option Nat × σ :=
  (x.1, x.2.1.preferred, x.2.2.1)

/-- Keeping the log changes nothing. -/
theorem tryEach_recorded (backends : List (NetworkBackend σ)) (preferred : Option Nat)
    (r : Request) (order : List Nat) (trail : List String) (w : σ × List (Attempt σ)) :
    forget (AutoBackend.tryEach ⟨recorded backends, preferred⟩ r order trail w) =
      ((AutoBackend.tryEach ⟨backends, preferred⟩ r order trail w.1).1,
        (AutoBackend.tryEach ⟨backends, preferred⟩ r order trail w.1).2.1.preferred,
        (AutoBackend.tryEach ⟨backends, preferred⟩ r order trail w.1).2.2) := by
  induction order generalizing trail w with
  | nil => rfl
  | cons index rest ih =>
    simp only [AutoBackend.tryEach, recorded_getElem?]
    cases hb : backends[index]? with
    | none => rfl
    | some backend =>
      rcases hx : backend.request r w.1 with ⟨outcome, s'⟩
      cases outcome with
      | error error => simp only [Option.map_some, recordedAt, hx, ih]
      | ok result => simp only [Option.map_some, recordedAt, hx, forget]

@[simp] theorem tryEach_backends (self : AutoBackend σ) (r : Request) (order : List Nat)
    (trail : List String) (s : σ) : (self.tryEach r order trail s).2.1.backends = self.backends := by
  induction order generalizing trail s with
  | nil => rfl
  | cons index rest ih =>
    simp only [AutoBackend.tryEach]
    cases hb : self.backends[index]? with
    | none => rfl
    | some backend =>
      rcases hx : backend.request r s with ⟨outcome, s'⟩
      cases outcome with
      | error error => simp only [hx, ih]
      | ok result => simp only [hx]

/-- How the walk over what is left of an order ends: with the first success, or with the trail
of everyone asked. -/
def Ended (backends : List (NetworkBackend σ)) (preferred : Option Nat) (order : List Nat)
    (trail : List String) (attempts : List (Attempt σ)) (result : Except Failure Json)
    (preferred' : Option Nat) : Prop :=
  (∃ failed a answer rest, attempts = failed ++ [a] ∧ (∀ b ∈ failed, b.failed) ∧
      order = attempts.map Attempt.index ++ rest ∧ a.outcome = .ok answer ∧
      result = .ok answer ∧ preferred' = some a.index) ∨
    (attempts.map Attempt.index = order ∧ (∀ b ∈ attempts, b.failed) ∧
      result = .error (.allBackendsFailed ("all backends failed: " ++
        "; ".intercalate (trail ++ attempts.map (Attempt.entry backends)))) ∧
      preferred' = preferred)

/-- One more failure in front. -/
theorem Ended.cons {backends : List (NetworkBackend σ)} {preferred preferred' : Option Nat}
    {order : List Nat} {trail : List String} {attempts : List (Attempt σ)}
    {result : Except Failure Json} {a : Attempt σ} (ha : a.failed)
    (h : Ended backends preferred order (trail ++ [a.entry backends]) attempts result preferred') :
    Ended backends preferred (a.index :: order) trail (a :: attempts) result preferred' := by
  rcases h with ⟨failed, b, answer, rest, rfl, hfailed, rfl, hb, hr, hp⟩ |
    ⟨hindex, hfailed, hr, hp⟩
  · refine .inl ⟨a :: failed, b, answer, rest, rfl, ?_, by simp, hb, hr, hp⟩
    intro c hc
    rcases List.mem_cons.mp hc with rfl | hc
    · exact ha
    · exact hfailed c hc
  · refine .inr ⟨by simp [hindex], ?_, ?_, hp⟩
    · intro c hc
      rcases List.mem_cons.mp hc with rfl | hc
      · exact ha
      · exact hfailed c hc
    · rw [hr]
      simp

/-- What the walk over valid positions does to the log and to the preference. -/
theorem tryEach_ended (backends : List (NetworkBackend σ)) (preferred : Option Nat) (r : Request)
    (order : List Nat) (horder : ∀ i ∈ order, i < backends.length) (trail : List String)
    (w : σ × List (Attempt σ)) :
    ∃ attempts, (AutoBackend.tryEach ⟨recorded backends, preferred⟩ r order trail w).2.2.2 =
        w.2 ++ attempts ∧
      (∀ a ∈ attempts, a.madeFor backends r) ∧
      Ended backends preferred order trail attempts
        (AutoBackend.tryEach ⟨recorded backends, preferred⟩ r order trail w).1
        (AutoBackend.tryEach ⟨recorded backends, preferred⟩ r order trail w).2.1.preferred := by
  induction order generalizing trail w with
  | nil => exact ⟨[], by simp [AutoBackend.tryEach], nofun, .inr ⟨rfl, nofun, by
      simp [AutoBackend.tryEach], rfl⟩⟩
  | cons index rest ih =>
    have hi : index < backends.length := horder index List.mem_cons_self
    have hrest : ∀ i ∈ rest, i < backends.length := fun i h => horder i (List.mem_cons_of_mem _ h)
    have hb' : backends[index]? = some backends[index] := List.getElem?_eq_getElem hi
    rcases hx : backends[index].request r w.1 with ⟨outcome, s'⟩
    simp only [AutoBackend.tryEach, recorded_getElem?, hb', Option.map_some, recordedAt, hx]
    cases outcome with
    | error error =>
      set a : Attempt σ := ⟨index, r, w.1, .error error⟩ with ha
      have hentry : a.entry backends = backends[index].name ++ ": " ++ error := by
        simp [Attempt.entry, ha, hb']
      obtain ⟨attempts, hlog, hreq, hended⟩ :=
        ih hrest (trail ++ [a.entry backends]) (s', w.2 ++ [a])
      rw [hentry] at hlog hended
      refine ⟨a :: attempts, by simpa using hlog, ?_, ?_⟩
      · intro b hb
        rcases List.mem_cons.mp hb with rfl | hb
        · exact ⟨rfl, _, hb', (congrArg Prod.fst hx).symm⟩
        · exact hreq b hb
      · exact Ended.cons ⟨error, rfl⟩ (by rw [hentry]; exact hended)
    | ok result =>
      exact ⟨[⟨index, r, w.1, .ok result⟩], rfl,
        fun a ha => List.mem_singleton.mp ha ▸ ⟨rfl, _, hb', (congrArg Prod.fst hx).symm⟩,
        .inl ⟨[], _, result, rest, rfl, nofun, rfl, rfl, rfl, rfl⟩⟩

theorem order_lt (self : AutoBackend σ) : ∀ i ∈ self.order, i < self.backends.length := by
  intro i hi
  simp only [AutoBackend.order, List.mem_map, List.mem_range] at hi
  obtain ⟨offset, h, rfl⟩ := hi
  exact Nat.mod_lt _ (by omega)

/-- Every backend comes once in an order, wherever it starts. -/
theorem order_nodup (self : AutoBackend σ) : self.order.Nodup := by
  refine List.Nodup.map_on ?_ List.nodup_range
  intro a ha b hb h
  rw [List.mem_range] at ha hb
  have h := Nat.ModEq.add_left_cancel' _ (show _ ≡ _ [MOD self.backends.length] from h)
  rwa [Nat.ModEq, Nat.mod_eq_of_lt ha, Nat.mod_eq_of_lt hb] at h

theorem mem_order_iff (self : AutoBackend σ) (i : Nat) :
    i ∈ self.order ↔ i < self.backends.length := by
  constructor
  · exact order_lt self i
  · intro hi
    have hsub : self.order ⊆ List.range self.backends.length := fun j hj =>
      List.mem_range.mpr (order_lt self j hj)
    have hperm := (List.subperm_of_subset (order_nodup self) hsub).perm_of_length_le
      (by simp [AutoBackend.order])
    exact hperm.mem_iff.mpr (List.mem_range.mpr hi)

theorem lastSuccess_append (log : List (Attempt σ)) {attempts : List (Attempt σ)}
    (h : ∀ a ∈ attempts, a.failed) : lastSuccess (log ++ attempts) = lastSuccess log := by
  have hnone : attempts.filter (fun a => a.outcome.isOk) = [] := by
    refine List.filter_eq_nil_iff.mpr fun a ha => ?_
    obtain ⟨error, he⟩ := h a ha
    simp [he, Except.isOk, Except.toBool]
  simp [lastSuccess, List.filter_append, hnone]

theorem lastSuccess_concat (log : List (Attempt σ)) (a : Attempt σ) (answer : Json)
    (h : a.outcome = .ok answer) : lastSuccess (log ++ [a]) = some a.index := by
  simp [lastSuccess, List.filter_append, h, Except.isOk, Except.toBool]

/-- The log decides the preference after a call as before it. -/
theorem Ended.lastSuccess_eq {backends : List (NetworkBackend σ)} {preferred preferred' : Option Nat}
    {order : List Nat} {attempts : List (Attempt σ)} {result : Except Failure Json}
    {log : List (Attempt σ)} (hlog : preferred = lastSuccess log)
    (h : Ended backends preferred order [] attempts result preferred') :
    preferred' = lastSuccess (log ++ attempts) := by
  rcases h with ⟨failed, a, answer, rest, rfl, hfailed, -, ha, -, rfl⟩ | ⟨-, hfailed, -, rfl⟩
  · rw [← List.append_assoc, lastSuccess_concat _ a answer ha]
  · rw [lastSuccess_append log hfailed, hlog]

/-- The specification of one call, from the backend that succeeded last. -/
structure Walked (backends : List (NetworkBackend σ)) (start : Option Nat)
    (attempts : List (Attempt σ)) (result : Except Failure Json) (preferred : Option Nat) :
    Prop where
  cyclic : attempts.map Attempt.index <+:
    (List.range backends.length).map fun k => (start.getD 0 + k) % backends.length
  once : (attempts.map Attempt.index).Nodup
  stops : ∀ a ∈ attempts.dropLast, a.failed
  success : ∀ answer, result = .ok answer ↔
    ∃ a, attempts.getLast? = some a ∧ a.outcome = .ok answer
  sticks : ∀ answer, result = .ok answer →
    ∃ a, attempts.getLast? = some a ∧ preferred = some a.index
  raises : (∃ e, result = .error e) ↔
    ∀ i < backends.length, ∃ a ∈ attempts, a.index = i ∧ a.failed
  trail : ∀ e, result = .error e →
    e = .allBackendsFailed ("all backends failed: " ++
        "; ".intercalate (attempts.map (Attempt.entry backends))) ∧
      attempts.length = backends.length
  kept : ∀ e, result = .error e → preferred = start

theorem Attempt.failed_ok {a : Attempt σ} {answer : Json} (h : a.failed) :
    a.outcome ≠ .ok answer := by
  obtain ⟨error, he⟩ := h
  simp [he]

/-- A walk over the cyclic order meets the specification. -/
theorem Ended.walked (self : AutoBackend σ) {attempts : List (Attempt σ)}
    {result : Except Failure Json} {preferred' : Option Nat}
    (h : Ended self.backends self.preferred self.order [] attempts result preferred') :
    Walked self.backends self.preferred attempts result preferred' := by
  have hnodup := order_nodup self
  rcases h with ⟨failed, a, answer, rest, rfl, hfailed, horder, ha, rfl, rfl⟩ |
    ⟨horder, hfailed, rfl, rfl⟩
  · -- The walk stopped at `a`: the positions after it were not asked.
    rw [horder] at hnodup
    refine ⟨⟨rest, horder.symm⟩, (List.nodup_append.mp hnodup).1, by simpa using hfailed, ?_, ?_,
      ⟨nofun, fun hall => ?_⟩, nofun, nofun⟩
    · intro other
      simp [ha]
    · intro other _
      exact ⟨a, by simp, rfl⟩
    · have hi : a.index < self.backends.length :=
        order_lt self _ (by rw [horder]; simp)
      obtain ⟨b, hb, hsame, hbad⟩ := hall a.index hi
      rcases List.mem_append.mp hb with hb | hb
      · -- `a` is asked once, so the failed attempt is not at its position.
        have hdisjoint := (List.nodup_append.mp (by
          simpa using (List.nodup_append.mp hnodup).1 :
            (failed.map Attempt.index ++ [a.index]).Nodup)).2.2
        exact absurd hsame (hdisjoint _ (List.mem_map_of_mem hb) _ (List.mem_singleton_self _))
      · rw [List.mem_singleton.mp hb] at hbad
        exact absurd ha (Attempt.failed_ok hbad)
  · have hlength : attempts.length = self.backends.length := by
      have := congrArg List.length horder
      simpa [AutoBackend.order] using this
    refine ⟨by rw [horder]; exact List.prefix_rfl, by rw [horder]; exact hnodup,
      fun a ha => hfailed a (List.mem_of_mem_dropLast ha), ?_, nofun,
      ⟨fun _ i hi => ?_, fun _ => ⟨_, rfl⟩⟩, ?_, fun _ _ => rfl⟩
    · intro answer
      constructor
      · nofun
      · rintro ⟨a, hlast, ha⟩
        exact absurd ha (Attempt.failed_ok (hfailed a (List.mem_of_getLast? hlast)))
    · have hmem : i ∈ attempts.map Attempt.index := by
        rw [horder]
        exact (mem_order_iff self i).mpr hi
      obtain ⟨a, ha, hindex⟩ := List.mem_map.mp hmem
      exact ⟨a, ha, hindex, hfailed a ha⟩
    · rintro e he
      cases he
      exact ⟨by simp, hlength⟩

@[simp] theorem order_recorded (backends : List (NetworkBackend σ)) (preferred : Option Nat) :
    AutoBackend.order ⟨recorded backends, preferred⟩ =
      AutoBackend.order ⟨backends, preferred⟩ := by
  simp [AutoBackend.order]

/-- What holds between two calls: the preference is what the log says. -/
structure Between (backends : List (NetworkBackend σ))
    (auto : AutoBackend (σ × List (Attempt σ))) (w : σ × List (Attempt σ)) : Prop where
  backends : auto.backends = recorded backends
  preferred : auto.preferred = lastSuccess w.2

/-- One call: what it adds to the log, and that the invariant holds after it. -/
theorem Between.run {backends : List (NetworkBackend σ)}
    {auto : AutoBackend (σ × List (Attempt σ))} {w : σ × List (Attempt σ)}
    (h : Between backends auto w) (r : Request) :
    (∃ attempts, (auto.run r w).2.2.2 = w.2 ++ attempts ∧ (∀ a ∈ attempts, a.madeFor backends r) ∧
      Walked backends (lastSuccess w.2) attempts (auto.run r w).1
        (auto.run r w).2.1.preferred) ∧
      Between backends (auto.run r w).2.1 (auto.run r w).2.2 := by
  obtain ⟨autoBackends, preferred⟩ := auto
  obtain ⟨hb, hp⟩ := h
  dsimp only at hb hp
  subst hb
  rw [AutoBackend.run, order_recorded]
  obtain ⟨attempts, hlog, hreq, hended⟩ := tryEach_ended backends preferred r _
    (order_lt ⟨backends, preferred⟩) [] w
  refine ⟨⟨attempts, hlog, hreq, ?_⟩, tryEach_backends _ _ _ _ _, ?_⟩
  · rw [← hp]
    exact Ended.walked ⟨backends, preferred⟩ hended
  · rw [hlog]
    exact hended.lastSuccess_eq hp

theorem Between.calls {backends : List (NetworkBackend σ)} (rs : List Request)
    {auto : AutoBackend (σ × List (Attempt σ))} {w : σ × List (Attempt σ)}
    (h : Between backends auto w) :
    Between backends (auto.calls rs w).2.1 (auto.calls rs w).2.2 := by
  induction rs generalizing auto w with
  | nil => exact h
  | cons r rest ih => exact ih (h.run r).2

/-- Keeping the log changes no result of a run of calls. -/
theorem calls_recorded (backends : List (NetworkBackend σ)) (preferred : Option Nat)
    (rs : List Request) (w : σ × List (Attempt σ)) :
    (AutoBackend.calls ⟨recorded backends, preferred⟩ rs w).1 =
      (AutoBackend.calls ⟨backends, preferred⟩ rs w.1).1 := by
  induction rs generalizing preferred w with
  | nil => rfl
  | cons r rest ih =>
    have hrun := tryEach_recorded backends preferred r
      (AutoBackend.order ⟨backends, preferred⟩) [] w
    have hrecorded := tryEach_backends ⟨recorded backends, preferred⟩ r
      (AutoBackend.order ⟨backends, preferred⟩) [] w
    have hplain := tryEach_backends ⟨backends, preferred⟩ r
      (AutoBackend.order ⟨backends, preferred⟩) [] w.1
    simp only [AutoBackend.calls, AutoBackend.run, order_recorded]
    revert hrun hrecorded hplain
    generalize AutoBackend.tryEach ⟨recorded backends, preferred⟩ r _ [] w = x
    generalize AutoBackend.tryEach ⟨backends, preferred⟩ r _ [] w.1 = y
    obtain ⟨result, ⟨bs, p⟩, w'⟩ := x
    obtain ⟨result', ⟨bs', p'⟩, s'⟩ := y
    simp only [forget, Prod.mk.injEq]
    rintro ⟨rfl, rfl, rfl⟩ rfl rfl
    rw [ih]

/-- In every run of calls, each call asks every backend at most once, in cyclic order from the
one that succeeded last, and ends with the first success or with everyone's failure. -/
theorem autoBackend_walk (backends : List (NetworkBackend σ)) (rs : List Request) (r : Request)
    (s : σ) :
    let before := (AutoBackend.calls ⟨recorded backends, none⟩ rs (s, [])).2
    let after := before.1.run r before.2
    (AutoBackend.calls ⟨recorded backends, none⟩ rs (s, [])).1 =
        (AutoBackend.calls ⟨backends, none⟩ rs s).1 ∧
      ∃ attempts, after.2.2.2 = before.2.2 ++ attempts ∧ (∀ a ∈ attempts, a.madeFor backends r) ∧
        Walked backends (lastSuccess before.2.2) attempts after.1 after.2.1.preferred := by
  intro before after
  have hbetween : Between backends before.1 before.2 := Between.calls rs ⟨rfl, rfl⟩
  exact ⟨calls_recorded backends none rs (s, []), (hbetween.run r).1⟩

end Yubtc.Failover
