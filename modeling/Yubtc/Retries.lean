import Yubtc.Net

/-!
# The retry loop

A service answers one attempt after another with a stream of outcomes. What the loop did with them
is read off its trace.
-/
namespace Yubtc.Retries

open Net

variable {σ : Type}

/-- The outcomes that a service has in store. -/
def replies (send : σ → HttpReply × σ) (s : σ) (n : Nat) : HttpReply :=
  (send ((fun s => (send s).2)^[n] s)).1

/-- The service that answers with a given stream. -/
def ofStream (outcomes : Nat → HttpReply) (n : Nat) : HttpReply × Nat := (outcomes n, n + 1)

/-- Attempts at the outcomes from the `n`th on, one more than there are delays between them. -/
def alternating (outcomes : Nat → HttpReply) : Nat → List Rat → List Event
  | n, [] => [.attempt (outcomes n)]
  | n, delay :: delays => .attempt (outcomes n) :: .sleep delay :: alternating outcomes (n + 1) delays

/-- One sleep between two attempts, each in the larger of the two windows; a further attempt
exactly after an outcome that is retried, as long as retries are left; the last outcome is the
result. -/
structure Orderly (outcomes : Nat → HttpReply) (retries : Nat) (run : Requested σ)
    (delays : List Rat) : Prop where
  trace : run.trace = alternating outcomes 0 delays
  attempts : delays.length + 1 ≤ retries + 1
  ending : run.ending = .reply (outcomes delays.length)
  retried : ∀ n < delays.length, (outcomes n).retried = true
  stopped : delays.length < retries → (outcomes delays.length).retried = false
  bounded : ∀ delay ∈ delays, 0 ≤ delay ∧ delay ≤ max httpRetryMaxDelay httpRetryAfterMax

theorem backoffDelay_eq_none {attempt : Nat} : backoffDelay attempt = none ↔ 1024 ≤ attempt := by
  rw [backoffDelay]
  split
  · simp only [reduceCtorEq, false_iff]
    omega
  · simp only [true_iff]
    omega

theorem backoffDelay_bounds {attempt : Nat} {delay : Rat} (h : backoffDelay attempt = some delay) :
    0 ≤ delay ∧ delay ≤ httpRetryMaxDelay := by
  rw [backoffDelay] at h
  split at h
  · cases h
    constructor
    · apply le_min
      · exact mul_nonneg (by norm_num [httpRetryBaseDelay]) (by positivity)
      · norm_num [httpRetryMaxDelay]
    · exact min_le_right _ _
  · cases h

theorem retryAfterSane_bounds {response : Response} {delay : Rat}
    (h : retryAfterSane response = some delay) : 0 ≤ delay ∧ delay ≤ httpRetryAfterMax := by
  simp only [retryAfterSane, Option.bind_eq_bind, Option.bind_eq_some_iff] at h
  obtain ⟨raw, -, secs, -, hsane⟩ := h
  split at hsane
  · rename_i hwindow
    cases hsane
    exact ⟨by exact_mod_cast hwindow.1, by exact_mod_cast hwindow.2⟩
  · cases hsane

theorem delayAfter_eq_none {attempt : Nat} {reply : HttpReply} :
    delayAfter attempt reply = none ↔ 1024 ≤ attempt := by
  rw [← backoffDelay_eq_none, delayAfter]
  cases hdelay : backoffDelay attempt with
  | none => simp
  | some delay =>
    cases reply with
    | response r => by_cases h : r.statusCode = 429 <;> simp [h]
    | _ => simp

theorem delayAfter_bounds {attempt : Nat} {reply : HttpReply} {delay : Rat}
    (h : delayAfter attempt reply = some delay) :
    0 ≤ delay ∧ delay ≤ max httpRetryMaxDelay httpRetryAfterMax := by
  have hwiden : ∀ {d : Rat}, 0 ≤ d ∧ d ≤ httpRetryMaxDelay →
      0 ≤ d ∧ d ≤ max httpRetryMaxDelay httpRetryAfterMax := fun hd =>
    ⟨hd.1, hd.2.trans (le_max_left _ _)⟩
  simp only [delayAfter, Option.bind_eq_bind, Option.bind_eq_some_iff] at h
  obtain ⟨backoff, hbackoff, hchosen⟩ := h
  have hregular := hwiden (backoffDelay_bounds hbackoff)
  cases reply with
  | response r =>
    simp only at hchosen
    split at hchosen
    · cases hchosen
      cases hsane : retryAfterSane r with
      | none => exact hregular
      | some secs =>
        have hsecs := retryAfterSane_bounds hsane
        exact ⟨hsecs.1, hsecs.2.trans (le_max_right _ _)⟩
    · cases hchosen
      exact hregular
  | _ =>
    cases hchosen
    exact hregular

theorem replies_succ (send : σ → HttpReply × σ) (s : σ) (n : Nat) :
    replies send s (n + 1) = replies send (send s).2 n := by
  rw [replies, Function.iterate_succ_apply, replies]

theorem replies_ofStream (outcomes : Nat → HttpReply) :
    replies (ofStream outcomes) 0 = outcomes := by
  have hstate : ∀ n, (fun s => (ofStream outcomes s).2)^[n] 0 = n := by
    intro n
    induction n with
    | zero => rfl
    | succ n ih => rw [Function.iterate_succ_apply', ih, ofStream]
  funext n
  rw [replies, hstate, ofStream]

theorem alternating_succ {outcomes shifted : Nat → HttpReply}
    (h : ∀ n, outcomes (n + 1) = shifted n) (delays : List Rat) (n : Nat) :
    alternating outcomes (n + 1) delays = alternating shifted n delays := by
  induction delays generalizing n with
  | nil => rw [alternating, alternating, h]
  | cons delay delays ih => rw [alternating, alternating, h, ih]

/-- What the loop did from an attempt on: it waited after each reply but the last, where it stopped
or failed. -/
structure Walk (outcomes : Nat → HttpReply) (attempt left : Nat) (run : Requested σ)
    (delays : List Rat) : Prop where
  trace : run.trace = alternating outcomes 0 delays
  attempts : delays.length ≤ left
  computed : ∀ n < delays.length, attempt + n < 1024
  retried : ∀ n < delays.length, (outcomes n).retried = true
  bounded : ∀ delay ∈ delays, 0 ≤ delay ∧ delay ≤ max httpRetryMaxDelay httpRetryAfterMax
  ending : (run.ending = .reply (outcomes delays.length) ∧
      (delays.length < left → (outcomes delays.length).retried = false)) ∨
    (run.ending = .overflowError ∧ delays.length < left ∧
      (outcomes delays.length).retried = true ∧ 1024 ≤ attempt + delays.length)

/-- The first attempt was also the last. -/
theorem walk_single {outcomes : Nat → HttpReply} {attempt left : Nat} {run : Requested σ}
    (htrace : run.trace = [.attempt (outcomes 0)])
    (hending : (run.ending = .reply (outcomes 0) ∧ (0 < left → (outcomes 0).retried = false)) ∨
      (run.ending = .overflowError ∧ 0 < left ∧ (outcomes 0).retried = true ∧ 1024 ≤ attempt)) :
    Walk outcomes attempt left run [] where
  trace := htrace
  attempts := Nat.zero_le _
  computed := fun _ hn => absurd hn (Nat.not_lt_zero _)
  retried := fun _ hn => absurd hn (Nat.not_lt_zero _)
  bounded := fun _ hmem => absurd hmem List.not_mem_nil
  ending := hending

/-- One retried attempt in front of a walk. -/
theorem Walk.cons {outcomes shifted : Nat → HttpReply} {attempt left : Nat} {run : Requested σ}
    {delays : List Rat} {delay : Rat} (hshift : ∀ n, outcomes (n + 1) = shifted n)
    (hretried : (outcomes 0).retried = true) (hdelay : delayAfter attempt (outcomes 0) = some delay)
    (h : Walk shifted (attempt + 1) left run delays) :
    Walk outcomes attempt (left + 1) (run.after [.attempt (outcomes 0), .sleep delay])
      (delay :: delays) := by
  have hattempt : attempt < 1024 := by
    by_contra hge
    rw [delayAfter_eq_none.mpr (Nat.le_of_not_lt hge)] at hdelay
    cases hdelay
  constructor
  · rw [alternating, alternating_succ hshift, ← h.trace]
    rfl
  · exact Nat.succ_le_succ h.attempts
  · intro n hn
    cases n with
    | zero => exact hattempt
    | succ n =>
      have := h.computed n (Nat.lt_of_succ_lt_succ hn)
      omega
  · intro n hn
    cases n with
    | zero => exact hretried
    | succ n =>
      rw [hshift]
      exact h.retried n (Nat.lt_of_succ_lt_succ hn)
  · intro d hd
    cases hd with
    | head => exact delayAfter_bounds hdelay
    | tail _ hd => exact h.bounded d hd
  · rw [List.length_cons, hshift]
    apply h.ending.imp
    · intro hstop
      exact ⟨hstop.1, fun hlt => hstop.2 (Nat.lt_of_succ_lt_succ hlt)⟩
    · intro hfail
      exact ⟨hfail.1, Nat.succ_lt_succ hfail.2.1, hfail.2.2.1, by have := hfail.2.2.2; omega⟩

/-- By induction on the retries that are left. -/
theorem requestLoop_walk (send : σ → HttpReply × σ) (left : Nat) :
    ∀ (attempt : Nat) (s : σ),
      ∃ delays, Walk (replies send s) attempt left (requestLoop send attempt left s) delays := by
  induction left with
  | zero =>
    intro attempt s
    exact ⟨[], walk_single rfl (.inl ⟨rfl, fun hlt => absurd hlt (Nat.lt_irrefl 0)⟩)⟩
  | succ left ih =>
    intro attempt s
    rw [requestLoop]
    by_cases hretried : (send s).1.retried = true
    · rw [if_pos hretried]
      cases hdelay : delayAfter attempt (send s).1 with
      | none =>
        exact ⟨[], walk_single rfl
          (.inr ⟨rfl, Nat.succ_pos _, hretried, delayAfter_eq_none.mp hdelay⟩)⟩
      | some delay =>
        obtain ⟨delays, hwalk⟩ := ih (attempt + 1) (send s).2
        exact ⟨delay :: delays, hwalk.cons (replies_succ send s) hretried hdelay⟩
    · rw [if_neg hretried]
      exact ⟨[], walk_single rfl (.inl ⟨rfl, fun _ => Bool.not_eq_true _ ▸ hretried⟩)⟩

theorem alternating_injective {outcomes : Nat → HttpReply} {n : Nat} {delays delays' : List Rat}
    (h : alternating outcomes n delays = alternating outcomes n delays') : delays = delays' := by
  induction delays generalizing n delays' with
  | nil =>
    cases delays' with
    | nil => rfl
    | cons _ _ => simp [alternating] at h
  | cons delay delays ih =>
    cases delays' with
    | nil => simp [alternating] at h
    | cons delay' delays' =>
      simp only [alternating, List.cons.injEq, Event.sleep.injEq, true_and] at h
      rw [h.1, ih h.2]

/-- The delays of the first 1024 attempts can be computed, and no other. -/
theorem requestLoop_orderly (send : σ → HttpReply × σ) (retries : Nat) (s : σ) :
    (∃ delays, Orderly (replies send s) retries (requestLoop send 0 retries s) delays) ↔
      retries ≤ 1024 ∨ ∃ n ≤ 1024, (replies send s n).retried = false := by
  obtain ⟨delays, hwalk⟩ := requestLoop_walk send retries 0 s
  have hlength : delays.length ≤ 1024 := by
    by_contra hlong
    have := hwalk.computed 1024 (by omega)
    omega
  constructor
  · rintro ⟨delays', horderly⟩
    by_contra hno
    obtain ⟨hretries, hall⟩ := not_or.mp hno
    have hsame := alternating_injective (hwalk.trace.symm.trans horderly.trace)
    have hstopped := horderly.stopped
    rw [← hsame] at hstopped
    exact hall ⟨delays.length, hlength, hstopped (by omega)⟩
  · intro hcond
    cases hwalk.ending with
    | inl hreply =>
      exact ⟨delays, hwalk.trace, Nat.succ_le_succ hwalk.attempts, hreply.1, hwalk.retried,
        hreply.2, hwalk.bounded⟩
    | inr hoverflow =>
      obtain ⟨-, hleft, hlast, hattempt⟩ := hoverflow
      cases hcond with
      | inl hretries => omega
      | inr hterminal =>
        obtain ⟨n, hn, hterminal⟩ := hterminal
        have hretried : (replies send s n).retried = true := by
          rcases Nat.lt_or_ge n delays.length with hlt | hge
          · exact hwalk.retried n hlt
          · rwa [show n = delays.length by omega]
        rw [hretried] at hterminal
        cases hterminal

/-- For every stream of outcomes, the loop is orderly exactly if it never needs the delay after
its 1025th attempt. -/
theorem requestWithRetries_orderly (outcomes : Nat → HttpReply) (retries : Nat) :
    (∃ delays, Orderly outcomes retries (requestLoop (ofStream outcomes) 0 retries 0) delays) ↔
      retries ≤ 1024 ∨ ∃ n ≤ 1024, (outcomes n).retried = false := by
  have h := requestLoop_orderly (ofStream outcomes) retries 0
  rwa [replies_ofStream] at h

/-- A service that always times out, asked 1026 times. -/
theorem delay_overflows : ¬ ∀ (outcomes : Nat → HttpReply) (retries : Nat),
    ∃ delays, Orderly outcomes retries (requestLoop (ofStream outcomes) 0 retries 0) delays := by
  intro h
  have horderly := h (fun _ => .timeout "timed out") 1025
  have hcond := requestLoop_orderly (ofStream fun _ => .timeout "timed out") 1025 0
  rw [replies_ofStream] at hcond
  rcases hcond.mp horderly with hle | ⟨n, -, hterminal⟩
  · omega
  · cases hterminal

end Yubtc.Retries
