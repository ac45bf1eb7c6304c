import Yubtc.Lib.Loop
import Yubtc.Lib.Binary64
import Yubtc.Transaction

/-!
# Outputs and the fee loop

Both builders price a transaction the same way: build it for a fee, read the fee off its
virtual size, and go on until a size comes back; then the best candidate is picked.
-/
namespace Yubtc.FeeLoop

open Wire Errors ExceptRules Transaction

variable {τ : Type}

structure VoutResult where
  vout : List COut
  cashback : Int
  amount : Int

/-- `make_vout`; `amount` is `none` for everything. The lock script of an address is looked up
elsewhere. -/
def makeVout (makeLockScript : String → Except Exn Bytes) (src dst : String) (inAmount : Int)
    (amount : Option Int) (fee : Int) : Except Exn VoutResult := do
  reject (inAmount < fee) (.valueError "input does not cover fee")
  reject (∃ a, amount = some a ∧ a + fee > inAmount) (.valueError "amount + fee exceeds input")
  let voutScript ← makeLockScript dst
  if ∀ a, amount = some a → a + fee = inAmount then
    let out ← COut.make (inAmount - fee) voutScript
    .ok ⟨[out], 0, inAmount - fee⟩
  else
    let amount := amount.getD 0
    let cashback := inAmount - amount - fee
    let cashbackLockScript ← makeLockScript src
    let back ← COut.make cashback cashbackLockScript
    let out ← COut.make amount voutScript
    .ok ⟨[back, out], cashback, amount⟩

/-- An amount that fits is written, and read back from the output. -/
theorem make_eq_ok {amount : Int} {script : Bytes} {out : COut} :
    COut.make amount script = .ok out ↔
      (0 ≤ amount ∧ amount ≤ 0xffffffffffffffff) ∧ out = ⟨UInt64.ofNat amount.toNat, script⟩ := by
  rw [COut.make, reject_bind_eq_ok, reject_bind_eq_ok, pure_eq_ok, Except.ok.injEq, and_assoc,
    not_lt, not_lt, eq_comm (a := out)]

/-- What `make_vout` returns: one output, or the change and the payment. -/
theorem makeVout_cases {makeLockScript : String → Except Exn Bytes} {src dst : String}
    {inAmount fee : Int} {amount : Option Int} {result : VoutResult}
    (h : makeVout makeLockScript src dst inAmount amount fee = .ok result) :
    ∃ voutScript, makeLockScript dst = .ok voutScript ∧
      (((∀ a, amount = some a → a + fee = inAmount) ∧
          ∃ out, COut.make (inAmount - fee) voutScript = .ok out ∧
            result = ⟨[out], 0, inAmount - fee⟩) ∨
        ∃ a, amount = some a ∧ a + fee < inAmount ∧
          ∃ backScript back out, makeLockScript src = .ok backScript ∧
            COut.make (inAmount - a - fee) backScript = .ok back ∧
            COut.make a voutScript = .ok out ∧
            result = ⟨[back, out], inAmount - a - fee, a⟩) := by
  unfold makeVout at h
  obtain ⟨-, h⟩ := reject_bind_eq_ok.mp h
  obtain ⟨hcovers, h⟩ := reject_bind_eq_ok.mp h
  obtain ⟨voutScript, hscript, h⟩ := bind_eq_ok.mp h
  refine ⟨voutScript, hscript, ?_⟩
  rcases ite_eq_ok.mp h with ⟨hall, h⟩ | ⟨hsome, h⟩
  · obtain ⟨out, hout, h⟩ := bind_eq_ok.mp h
    cases h
    exact .inl ⟨hall, out, hout, rfl⟩
  · cases amount with
    | none => exact absurd (by nofun) hsome
    | some a =>
      obtain ⟨backScript, hback, h⟩ := bind_eq_ok.mp h
      obtain ⟨back, hbackOut, h⟩ := bind_eq_ok.mp h
      obtain ⟨out, hout, h⟩ := bind_eq_ok.mp h
      cases h
      simp only [Option.some.injEq, exists_eq_left', forall_eq'] at hcovers hsome
      exact .inr ⟨a, rfl, by omega, backScript, back, out, hback, hbackOut, hout, rfl⟩

/-- A priced candidate `(fee, vout_result, stx)`. -/
structure Candidate (τ : Type) where
  fee : Int
  vout : VoutResult
  tx : τ

/-- `by_size`, in insertion order. -/
abbrev BySize (τ : Type) := List (Nat × List (Candidate τ))

/-- `by_size.setdefault(size, []).append(candidate)`. -/
def appendCandidate (bySize : BySize τ) (size : Nat) (c : Candidate τ) : BySize τ :=
  if bySize.any fun e => e.1 == size then
    bySize.map fun e => if e.1 = size then (e.1, e.2 ++ [c]) else e
  else bySize ++ [(size, [c])]

/-- What a candidate of a size must pay: the rate and the relay floor. -/
def pays (feekb minRelayPerKb : Int) (size : Nat) (fee : Int) : Prop :=
  size * feekb / 1000 ≤ fee ∧ size * minRelayPerKb / 1000 ≤ fee

instance (feekb minRelayPerKb : Int) (size : Nat) (fee : Int) :
    Decidable (pays feekb minRelayPerKb size fee) :=
  inferInstanceAs (Decidable (_ ∧ _))

/-- A smaller size is better, then a smaller fee. -/
def better (size : Nat) (fee : Int) (size' : Nat) (fee' : Int) : Prop :=
  size < size' ∨ size = size' ∧ fee < fee'

instance (size : Nat) (fee : Int) (size' : Nat) (fee' : Int) : Decidable (better size fee size' fee') :=
  inferInstanceAs (Decidable (_ ∨ _))

/-- One candidate in the search for the best. -/
def consider (feekb minRelayPerKb : Int) (best : Option (Nat × Candidate τ))
    (next : Nat × Candidate τ) : Option (Nat × Candidate τ) :=
  if pays feekb minRelayPerKb next.1 next.2.fee then
    match best with
    | none => some next
    | some b => if better next.1 next.2.fee b.1 b.2.fee then some next else some b
  else best

/-- The candidates with their sizes. -/
def entries (bySize : BySize τ) : List (Nat × Candidate τ) :=
  bySize.flatMap fun e => e.2.map fun c => (e.1, c)

def minRelayTxFee : Int := 1000

/-- `_pick_best_fee_loop_candidate`: without a candidate that pays, the first of the smallest
size. -/
def pickBestFeeLoopCandidate (bySize : BySize τ) (feekb minRelayPerKb : Int) :
    Except Exn (Nat × Candidate τ) :=
  let sorted := bySize.mergeSort fun a b => a.1 ≤ b.1
  match (entries sorted).foldl (consider feekb minRelayPerKb) none with
  | some best => .ok best
  | none =>
    match sorted with
    | [] => .error (.valueError "min() arg is an empty sequence")
    | (_, []) :: _ => .error .indexError
    | (size, c :: _) :: _ => .ok (size, c)

structure FeeState (τ : Type) where
  bySize : BySize τ
  seenSizes : List Nat
  currentFee : Int

/-- What a loop builds for a fee, the size it bills, and the fee of a size. -/
structure Pricing (τ : Type) where
  build : Int → Except Exn (VoutResult × τ)
  vsize : τ → Nat
  newFee : Nat → Except Exn Int

/-- One round: the candidate is kept, and a size that was seen ends the loop. -/
def feeRound (p : Pricing τ) (s : FeeState τ) : FeeState τ ⊕ Except Exn (BySize τ) :=
  match p.build s.currentFee with
  | .error e => .inr (.error e)
  | .ok built =>
    let size := p.vsize built.2
    match p.newFee size with
    | .error e => .inr (.error e)
    | .ok newFee =>
      let bySize := appendCandidate s.bySize size ⟨s.currentFee, built.1, built.2⟩
      if size ∈ s.seenSizes then .inr (.ok bySize)
      else .inl ⟨bySize, size :: s.seenSizes, newFee⟩

/-- The loop and the choice after it. -/
def FeeLoopReturns (p : Pricing τ) (feekb : Int) (result : Except Exn (Candidate τ)) : Prop :=
  ∃ tried, Loop.Returns (feeRound p) ⟨[], [], 0⟩ tried ∧
    result = tried >>= fun bySize => do
      let best ← pickBestFeeLoopCandidate bySize feekb minRelayTxFee
      .ok best.2

theorem mem_appendCandidate {bySize : BySize τ} {size : Nat} {c : Candidate τ}
    {entry : Nat × Candidate τ} :
    entry ∈ entries (appendCandidate bySize size c) ↔ entry ∈ entries bySize ∨ entry = (size, c) := by
  unfold appendCandidate
  split
  · rename_i hany
    simp only [List.any_eq_true, beq_iff_eq] at hany
    obtain ⟨e, he, hsize⟩ := hany
    simp only [entries, List.mem_flatMap, List.mem_map]
    constructor
    · rintro ⟨_, ⟨e', he', rfl⟩, x, hx, rfl⟩
      by_cases hsame : e'.1 = size
      · simp only [hsame, if_true, List.mem_append, List.mem_singleton] at hx
        rcases hx with hx | rfl
        · exact .inl ⟨e', he', x, hx, by rw [if_pos hsame]⟩
        · exact .inr (by rw [if_pos hsame, hsame])
      · rw [if_neg hsame] at hx
        exact .inl ⟨e', he', x, hx, by rw [if_neg hsame]⟩
    · rintro (⟨e', he', x, hx, rfl⟩ | rfl)
      · refine ⟨_, ⟨e', he', rfl⟩, x, ?_, ?_⟩
        · split
          · exact List.mem_append_left _ hx
          · exact hx
        · split <;> rfl
      · refine ⟨_, ⟨e, he, rfl⟩, c, ?_, ?_⟩
        · rw [if_pos hsize]
          simp
        · rw [if_pos hsize, hsize]
  · simp [entries]

/-- The candidate that the search holds is the best of those it has seen. -/
def Leads (feekb minRelayPerKb : Int) (seen : List (Nat × Candidate τ)) :
    Option (Nat × Candidate τ) → Prop
  | none => ∀ e ∈ seen, ¬pays feekb minRelayPerKb e.1 e.2.fee
  | some b => b ∈ seen ∧ pays feekb minRelayPerKb b.1 b.2.fee ∧
    ∀ e ∈ seen, pays feekb minRelayPerKb e.1 e.2.fee → ¬better e.1 e.2.fee b.1 b.2.fee

theorem Leads.consider {feekb minRelayPerKb : Int} {seen : List (Nat × Candidate τ)}
    {best : Option (Nat × Candidate τ)} (h : Leads feekb minRelayPerKb seen best)
    (next : Nat × Candidate τ) :
    Leads feekb minRelayPerKb (seen ++ [next]) (consider feekb minRelayPerKb best next) := by
  unfold FeeLoop.consider
  by_cases hpays : pays feekb minRelayPerKb next.1 next.2.fee
  · rw [if_pos hpays]
    cases best with
    | none =>
      refine ⟨by simp, hpays, ?_⟩
      intro e he hepays
      rcases List.mem_append.mp he with he | he
      · exact absurd hepays (h e he)
      · rw [List.mem_singleton.mp he]
        simp [better]
    | some b =>
      obtain ⟨hmem, hbpays, hleast⟩ := h
      dsimp only
      split
      · rename_i hbetter
        refine ⟨by simp, hpays, ?_⟩
        intro e he hepays
        rcases List.mem_append.mp he with he | he
        · have := hleast e he hepays
          simp only [better] at this hbetter ⊢
          omega
        · rw [List.mem_singleton.mp he]
          simp [better]
      · rename_i hworse
        refine ⟨List.mem_append_left _ hmem, hbpays, ?_⟩
        intro e he hepays
        rcases List.mem_append.mp he with he | he
        · exact hleast e he hepays
        · rwa [List.mem_singleton.mp he]
  · rw [if_neg hpays]
    cases best with
    | none =>
      intro e he
      rcases List.mem_append.mp he with he | he
      · exact h e he
      · rwa [List.mem_singleton.mp he]
    | some b =>
      obtain ⟨hmem, hbpays, hleast⟩ := h
      refine ⟨List.mem_append_left _ hmem, hbpays, ?_⟩
      intro e he hepays
      rcases List.mem_append.mp he with he | he
      · exact hleast e he hepays
      · rw [List.mem_singleton.mp he] at hepays
        exact absurd hepays hpays

theorem leads_foldl (feekb minRelayPerKb : Int) (l : List (Nat × Candidate τ)) :
    Leads feekb minRelayPerKb l (l.foldl (consider feekb minRelayPerKb) none) := by
  induction l using List.reverseRecOn with
  | nil => exact nofun
  | append_singleton l next ih =>
    rw [List.foldl_concat]
    exact ih.consider next

theorem mem_entries_mergeSort (bySize : BySize τ) (le : Nat × List (Candidate τ) →
    Nat × List (Candidate τ) → Bool) (entry : Nat × Candidate τ) :
    entry ∈ entries (bySize.mergeSort le) ↔ entry ∈ entries bySize := by
  simp only [entries, List.mem_flatMap, List.mem_mergeSort]

/-- If some candidate pays, the choice pays and none that pays is better. -/
theorem pickBest_of_pays {bySize : BySize τ} {feekb minRelayPerKb : Int}
    {entry : Nat × Candidate τ} (hmem : entry ∈ entries bySize)
    (hpays : pays feekb minRelayPerKb entry.1 entry.2.fee) :
    ∃ best, pickBestFeeLoopCandidate bySize feekb minRelayPerKb = .ok best ∧
      best ∈ entries bySize ∧ pays feekb minRelayPerKb best.1 best.2.fee ∧
      ∀ e ∈ entries bySize, pays feekb minRelayPerKb e.1 e.2.fee →
        ¬better e.1 e.2.fee best.1 best.2.fee := by
  have hleads := leads_foldl feekb minRelayPerKb (entries (bySize.mergeSort fun a b => a.1 ≤ b.1))
  unfold pickBestFeeLoopCandidate
  dsimp only
  cases hbest : (entries (bySize.mergeSort fun a b => a.1 ≤ b.1)).foldl
      (consider feekb minRelayPerKb) none with
  | none =>
    rw [hbest] at hleads
    exact absurd hpays (hleads entry ((mem_entries_mergeSort _ _ _).mpr hmem))
  | some best =>
    rw [hbest] at hleads
    obtain ⟨hin, hbpays, hleast⟩ := hleads
    exact ⟨best, rfl, (mem_entries_mergeSort _ _ _).mp hin, hbpays, fun e he =>
      hleast e ((mem_entries_mergeSort _ _ _).mpr he)⟩

/-- The fees a loop tries: from 0 on, each the fee of the size before it. -/
inductive Tries (p : Pricing τ) : Int → Prop where
  | first : Tries p 0
  | next {fee fee' : Int} {built : VoutResult × τ} (h : Tries p fee) (hbuild : p.build fee = .ok built)
    (hfee : p.newFee (p.vsize built.2) = .ok fee') : Tries p fee'

/-- The loop before a round. -/
structure Running (p : Pricing τ) (s : FeeState τ) : Prop where
  sound : ∀ e ∈ entries s.bySize, Tries p e.2.fee ∧ p.build e.2.fee = .ok (e.2.vout, e.2.tx) ∧
    e.1 = p.vsize e.2.tx
  current : Tries p s.currentFee
  first : s.currentFee = 0 ∨ ∃ e ∈ entries s.bySize, e.2.fee = 0
  closed : ∀ e ∈ entries s.bySize, ∀ fee, p.newFee e.1 = .ok fee →
    fee = s.currentFee ∨ ∃ e' ∈ entries s.bySize, e'.2.fee = fee
  seen : ∀ size, size ∈ s.seenSizes ↔ ∃ e ∈ entries s.bySize, e.1 = size

/-- What the loop has gathered when a size comes back: every candidate it can ever try. -/
structure Gathered (p : Pricing τ) (bySize : BySize τ) : Prop where
  sound : ∀ e ∈ entries bySize, Tries p e.2.fee ∧ p.build e.2.fee = .ok (e.2.vout, e.2.tx) ∧
    e.1 = p.vsize e.2.tx
  first : ∃ e ∈ entries bySize, e.2.fee = 0
  closed : ∀ e ∈ entries bySize, ∀ fee, p.newFee e.1 = .ok fee →
    ∃ e' ∈ entries bySize, e'.2.fee = fee

theorem running_start (p : Pricing τ) : Running p ⟨[], [], 0⟩ :=
  ⟨nofun, .first, .inl rfl, nofun, by simp [entries]⟩

/-- The round of a fee fails. -/
def Stuck (p : Pricing τ) (fee : Int) (e : Exn) : Prop :=
  p.build fee = .error e ∨
    ∃ built, p.build fee = .ok built ∧ p.newFee (p.vsize built.2) = .error e

/-- A round goes on with the price of a size that is new. -/
theorem feeRound_next {p : Pricing τ} {s s' : FeeState τ} (h : feeRound p s = .inl s') :
    ∃ built fee, p.build s.currentFee = .ok built ∧ p.newFee (p.vsize built.2) = .ok fee ∧
      p.vsize built.2 ∉ s.seenSizes ∧
      ⟨appendCandidate s.bySize (p.vsize built.2) ⟨s.currentFee, built.1, built.2⟩,
        p.vsize built.2 :: s.seenSizes, fee⟩ = s' := by
  cases hbuild : p.build s.currentFee with
  | error e => simp [feeRound, hbuild] at h
  | ok built =>
    cases hfee : p.newFee (p.vsize built.2) with
    | error e => simp [feeRound, hbuild, hfee] at h
    | ok fee =>
      by_cases hseen : p.vsize built.2 ∈ s.seenSizes
      · simp [feeRound, hbuild, hfee, hseen] at h
      · exact ⟨built, fee, rfl, hfee, hseen, by simpa [feeRound, hbuild, hfee, hseen] using h⟩

/-- It ends the loop with an error, or with a size that was seen. -/
theorem feeRound_stop {p : Pricing τ} {s : FeeState τ} {r : Except Exn (BySize τ)}
    (h : feeRound p s = .inr r) :
    (∃ e, Stuck p s.currentFee e ∧ .error e = r) ∨
      ∃ built, p.build s.currentFee = .ok built ∧ p.vsize built.2 ∈ s.seenSizes ∧
        .ok (appendCandidate s.bySize (p.vsize built.2) ⟨s.currentFee, built.1, built.2⟩) = r := by
  cases hbuild : p.build s.currentFee with
  | error e => exact .inl ⟨e, .inl hbuild, by simpa [feeRound, hbuild] using h⟩
  | ok built =>
    cases hfee : p.newFee (p.vsize built.2) with
    | error e =>
      exact .inl ⟨e, .inr ⟨built, hbuild, hfee⟩, by simpa [feeRound, hbuild, hfee] using h⟩
    | ok fee =>
      by_cases hseen : p.vsize built.2 ∈ s.seenSizes
      · exact .inr ⟨built, rfl, hseen, by simpa [feeRound, hbuild, hfee, hseen] using h⟩
      · simp [feeRound, hbuild, hfee, hseen] at h

section

variable {p : Pricing τ} {s : FeeState τ} {built : VoutResult × τ}

/-- The new candidate is one of the loop's. -/
theorem Running.append_sound (h : Running p s) (hbuild : p.build s.currentFee = .ok built) :
    ∀ e ∈ entries (appendCandidate s.bySize (p.vsize built.2) ⟨s.currentFee, built.1, built.2⟩),
      Tries p e.2.fee ∧ p.build e.2.fee = .ok (e.2.vout, e.2.tx) ∧ e.1 = p.vsize e.2.tx := by
  intro e he
  rcases mem_appendCandidate.mp he with he | rfl
  · exact h.sound e he
  · exact ⟨h.current, hbuild, rfl⟩

/-- A fee that was the next one to try belongs to a candidate now. -/
theorem Running.append_fee {fee : Int}
    (h : fee = s.currentFee ∨ ∃ e ∈ entries s.bySize, e.2.fee = fee) :
    ∃ e ∈ entries (appendCandidate s.bySize (p.vsize built.2) ⟨s.currentFee, built.1, built.2⟩),
      e.2.fee = fee := by
  rcases h with rfl | ⟨e, he, rfl⟩
  · exact ⟨_, mem_appendCandidate.mpr (.inr rfl), rfl⟩
  · exact ⟨e, mem_appendCandidate.mpr (.inl he), rfl⟩

theorem Running.next {fee : Int} (h : Running p s) (hbuild : p.build s.currentFee = .ok built)
    (hfee : p.newFee (p.vsize built.2) = .ok fee) :
    Running p ⟨appendCandidate s.bySize (p.vsize built.2) ⟨s.currentFee, built.1, built.2⟩,
      p.vsize built.2 :: s.seenSizes, fee⟩ where
  sound := h.append_sound hbuild
  current := .next h.current hbuild hfee
  first := .inr (Running.append_fee (h.first.imp Eq.symm id))
  closed := by
    intro e he fee' hfee'
    rcases mem_appendCandidate.mp he with he | rfl
    · exact .inr (Running.append_fee (h.closed e he fee' hfee'))
    · rw [hfee, Except.ok.injEq] at hfee'
      exact .inl hfee'.symm
  seen := by
    intro size
    simp only [List.mem_cons, h.seen, mem_appendCandidate]
    constructor
    · rintro (rfl | ⟨e, he, rfl⟩)
      · exact ⟨_, .inr rfl, rfl⟩
      · exact ⟨e, .inl he, rfl⟩
    · rintro ⟨e, he | rfl, rfl⟩
      · exact .inr ⟨e, he, rfl⟩
      · exact .inl rfl

/-- When a size comes back, its fee was tried after it was met first. -/
theorem Running.gathered (h : Running p s) (hbuild : p.build s.currentFee = .ok built)
    (hseen : p.vsize built.2 ∈ s.seenSizes) :
    Gathered p (appendCandidate s.bySize (p.vsize built.2) ⟨s.currentFee, built.1, built.2⟩) where
  sound := h.append_sound hbuild
  first := Running.append_fee (h.first.imp Eq.symm id)
  closed := by
    intro e he fee hfee
    rcases mem_appendCandidate.mp he with he | rfl
    · exact Running.append_fee (h.closed e he fee hfee)
    · obtain ⟨e', he', hsize⟩ := (h.seen _).mp hseen
      exact Running.append_fee (h.closed e' he' fee (by rw [hsize]; exact hfee))

end

/-- Everything that can be tried has been. -/
theorem Gathered.fees {p : Pricing τ} {bySize : BySize τ} (h : Gathered p bySize) {fee : Int}
    (htries : Tries p fee) : ∃ e ∈ entries bySize, e.2.fee = fee := by
  induction htries with
  | first => exact h.first
  | next _ hbuild hfee ih =>
    obtain ⟨e, he, rfl⟩ := ih
    obtain ⟨-, hbuild', hsize⟩ := h.sound e he
    rw [hbuild', Except.ok.injEq] at hbuild
    exact h.closed e he _ (by rw [hsize, ← hfee, ← hbuild])

theorem Gathered.all {p : Pricing τ} {bySize : BySize τ} (h : Gathered p bySize) {fee : Int}
    (htries : Tries p fee) {built : VoutResult × τ} (hbuild : p.build fee = .ok built) :
    (p.vsize built.2, (⟨fee, built.1, built.2⟩ : Candidate τ)) ∈ entries bySize := by
  obtain ⟨⟨size, c⟩, he, rfl⟩ := h.fees htries
  obtain ⟨-, hbuild', hsize⟩ := h.sound _ he
  rw [hbuild', Except.ok.injEq] at hbuild
  subst hbuild
  rw [← hsize]
  exact he

/-- The candidate tried after the largest one pays for itself. -/
theorem Gathered.exists_pays {p : Pricing τ} {bySize : BySize τ} (h : Gathered p bySize)
    {feekb : Int} (hrate : minRelayTxFee ≤ feekb)
    (hprice : ∀ e ∈ entries bySize, p.newFee e.1 = .ok (e.1 * feekb / 1000)) :
    ∃ e ∈ entries bySize, pays feekb minRelayTxFee e.1 e.2.fee := by
  obtain ⟨first, hfirst, -⟩ := h.first
  obtain ⟨large, hlarge, hmax⟩ := Set.exists_max_image {e | e ∈ entries bySize} Prod.fst
    (entries bySize).finite_toSet ⟨first, hfirst⟩
  obtain ⟨next, hnext, hfee⟩ := h.closed large hlarge _ (hprice large hlarge)
  have hle : next.1 ≤ large.1 := hmax next hnext
  have hrate' : (1000 : Int) ≤ feekb := hrate
  have hmul : (next.1 : Int) * feekb ≤ large.1 * feekb :=
    Int.mul_le_mul_of_nonneg_right (by omega) (by omega)
  have hfloor : (next.1 : Int) * 1000 ≤ large.1 * feekb :=
    Int.mul_le_mul (by omega) hrate' (by omega) (by omega)
  refine ⟨next, hnext, ?_, ?_⟩
  · rw [hfee]
    exact Int.ediv_le_ediv (by omega) hmul
  · rw [hfee]
    exact Int.ediv_le_ediv (by omega) hfloor

/-- How an ordinary loop ends: with a refusal of the builder, or with a candidate that pays and
that none that pays is better than. -/
def Ordinary (p : Pricing τ) (feekb : Int) (result : Except Exn (Candidate τ)) : Prop :=
  (∃ fee e, Tries p fee ∧ p.build fee = .error e ∧ result = .error e) ∨
    ∃ best, result = .ok best ∧ Tries p best.fee ∧ p.build best.fee = .ok (best.vout, best.tx) ∧
      pays feekb minRelayTxFee (p.vsize best.tx) best.fee ∧
      ∀ fee built, Tries p fee → p.build fee = .ok built →
        pays feekb minRelayTxFee (p.vsize built.2) fee →
        ¬better (p.vsize built.2) fee (p.vsize best.tx) best.fee

/-- A loop whose sizes take finitely many values returns. -/
theorem feeLoop_returns (p : Pricing τ) {size : Int → Nat} (hfinite : (Set.range size).Finite)
    (hsize : ∀ fee built, p.build fee = .ok built → p.vsize built.2 = size fee) :
    ∃ tried, Loop.Returns (feeRound p) ⟨[], [], 0⟩ tried := by
  have hnext : ∀ s s', True → feeRound p s = .inl s' →
      True ∧ (hfinite.toFinset \ s'.seenSizes.toFinset).card <
        (hfinite.toFinset \ s.seenSizes.toFinset).card := by
    intro s s' _ hround
    obtain ⟨built, fee, hbuild, -, hnew, rfl⟩ := feeRound_next hround
    -- The new size is one of the finitely many and was not seen.
    refine ⟨trivial, Finset.card_lt_card ⟨?_, ?_⟩⟩
    · intro x hx
      simp only [Finset.mem_sdiff, List.mem_toFinset, List.mem_cons] at hx ⊢
      exact ⟨hx.1, fun hin => hx.2 (.inr hin)⟩
    · intro hsub
      have hmem : p.vsize built.2 ∈ hfinite.toFinset \ s.seenSizes.toFinset := by
        simp only [Finset.mem_sdiff, Set.Finite.mem_toFinset, List.mem_toFinset]
        exact ⟨⟨_, (hsize _ _ hbuild).symm⟩, hnew⟩
      simpa using hsub hmem
  exact Loop.returns_of_measure _ hnext trivial

/-- A round that goes on keeps the loop running. -/
theorem Running.round {p : Pricing τ} {s s' : FeeState τ} (hs : Running p s)
    (hround : feeRound p s = .inl s') : Running p s' := by
  obtain ⟨built, fee, hbuild, hfee, -, rfl⟩ := feeRound_next hround
  exact hs.next hbuild hfee

/-- Where a round fails, every other fee that is ever tried has its candidate already. -/
theorem Running.fees {p : Pricing τ} {s : FeeState τ} (hs : Running p s) {e : Exn}
    (hstuck : Stuck p s.currentFee e) {fee : Int} (htries : Tries p fee) :
    fee = s.currentFee ∨ ∃ entry ∈ entries s.bySize, entry.2.fee = fee := by
  induction htries with
  | first => exact hs.first.imp Eq.symm id
  | next _ hbuild hfee ih =>
    rcases ih with rfl | ⟨entry, hentry, rfl⟩
    · rcases hstuck with hstuck | ⟨built, hbuilt, hstuck⟩
      · simp [hstuck] at hbuild
      · rw [hbuilt, Except.ok.injEq] at hbuild
        simp [← hbuild, hstuck] at hfee
    · obtain ⟨-, hbuild', hsize⟩ := hs.sound entry hentry
      rw [hbuild', Except.ok.injEq] at hbuild
      exact hs.closed entry hentry _ (by rw [hsize, ← hfee, ← hbuild])

/-- The end of a loop is a fee whose round fails, the only one tried that does, or everything
it can try. -/
theorem feeLoop_ends {p : Pricing τ} {tried : Except Exn (BySize τ)}
    (h : Loop.Returns (feeRound p) ⟨[], [], 0⟩ tried) :
    (∃ fee e, Tries p fee ∧ Stuck p fee e ∧ tried = .error e ∧
        ∀ other, Tries p other → other = fee ∨ ∃ built, p.build other = .ok built) ∨
      ∃ bySize, tried = .ok bySize ∧ Gathered p bySize := by
  have hfails : ∀ s e, Running p s → Stuck p s.currentFee e →
      ∀ other, Tries p other → other = s.currentFee ∨ ∃ built, p.build other = .ok built := by
    intro s e hs hstuck other hother
    refine (hs.fees hstuck hother).imp_right ?_
    rintro ⟨entry, hentry, rfl⟩
    exact ⟨_, (hs.sound entry hentry).2.1⟩
  have hstop : ∀ s r, Running p s → feeRound p s = .inr r →
      (∃ fee e, Tries p fee ∧ Stuck p fee e ∧ r = .error e ∧
          ∀ other, Tries p other → other = fee ∨ ∃ built, p.build other = .ok built) ∨
        ∃ bySize, r = .ok bySize ∧ Gathered p bySize := by
    intro s r hs hround
    rcases feeRound_stop hround with ⟨e, hstuck, rfl⟩ | ⟨built, hbuild, hseen, rfl⟩
    · exact .inl ⟨s.currentFee, e, hs.current, hstuck, rfl, hfails s e hs hstuck⟩
    · exact .inr ⟨_, rfl, hs.gathered hbuild hseen⟩
  exact h.post (fun _ _ hs hround => hs.round hround) hstop (running_start p)

/-- At an ordinary rate a loop returns, and ends as an ordinary loop does. -/
theorem feeLoop_ordinary (p : Pricing τ) {feekb : Int} (hrate : minRelayTxFee ≤ feekb)
    {size : Int → Nat} (hfinite : (Set.range size).Finite)
    (hsize : ∀ fee built, p.build fee = .ok built → p.vsize built.2 = size fee)
    (hprice : ∀ fee, p.newFee (size fee) = .ok (size fee * feekb / 1000)) :
    (∃ result, FeeLoopReturns p feekb result) ∧
      ∀ result, FeeLoopReturns p feekb result → Ordinary p feekb result := by
  constructor
  · obtain ⟨tried, htried⟩ := feeLoop_returns p hfinite hsize
    exact ⟨_, tried, htried, rfl⟩
  · rintro _ ⟨tried, htried, rfl⟩
    rcases feeLoop_ends htried with ⟨fee, e, hfee, hstuck, rfl, -⟩ | ⟨bySize, rfl, hgathered⟩
    · rcases hstuck with hbuild | ⟨built, hbuild, hnewFee⟩
      · exact .inl ⟨fee, e, hfee, hbuild, rfl⟩
      · simp [hsize fee built hbuild, hprice] at hnewFee
    · have hprices : ∀ e ∈ entries bySize, p.newFee e.1 = .ok (e.1 * feekb / 1000) := by
        intro e he
        obtain ⟨-, hbuild, hvsize⟩ := hgathered.sound e he
        rw [hvsize, hsize _ _ hbuild]
        exact hprice _
      obtain ⟨entry, hentry, hpays⟩ := hgathered.exists_pays hrate hprices
      obtain ⟨best, hpick, hmem, hbest, hleast⟩ := pickBest_of_pays hentry hpays
      obtain ⟨htries, hbuild, hvsize⟩ := hgathered.sound best hmem
      refine .inr ⟨best.2, by simp [hpick], htries, hbuild, hvsize ▸ hbest, ?_⟩
      intro fee built htries' hbuild' hpays'
      rw [← hvsize]
      exact hleast _ (hgathered.all htries' hbuild') hpays'

theorem pickBest_mem {bySize : BySize τ} {feekb minRelayPerKb : Int} {best : Nat × Candidate τ}
    (h : pickBestFeeLoopCandidate bySize feekb minRelayPerKb = .ok best) :
    best ∈ entries bySize := by
  have hleads := leads_foldl feekb minRelayPerKb (entries (bySize.mergeSort fun a b => a.1 ≤ b.1))
  have hmem := mem_entries_mergeSort bySize (fun a b => a.1 ≤ b.1)
  unfold pickBestFeeLoopCandidate at h
  dsimp only at h
  split at h
  · rename_i b hbest
    rw [hbest] at hleads
    cases h
    exact (hmem _).mp hleads.1
  · split at h
    · cases h
    · cases h
    · rename_i size c cs rest hsorted
      cases h
      refine (hmem _).mp ?_
      rw [hsorted]
      simp [entries]

/-- The groups of a loop: one for each size, and the first one begins with the unpriced
candidate. -/
structure Grouped (bySize : BySize τ) : Prop where
  keys : (bySize.map Prod.fst).Nodup
  first : bySize = [] ∨ ∃ size c cs rest, bySize = (size, c :: cs) :: rest ∧ c.fee = 0

theorem Grouped.append {bySize : BySize τ} (h : Grouped bySize) (size : Nat) {c : Candidate τ}
    (hc : bySize = [] → c.fee = 0) : Grouped (appendCandidate bySize size c) := by
  unfold appendCandidate
  split
  · rename_i hany
    constructor
    · have hkeys : (bySize.map fun e => if e.1 = size then (e.1, e.2 ++ [c]) else e).map Prod.fst =
          bySize.map Prod.fst := by
        rw [List.map_map]
        refine List.map_congr_left fun e _ => ?_
        simp only [Function.comp_apply]
        split <;> rfl
      rw [hkeys]
      exact h.keys
    · rcases h.first with rfl | ⟨n, c', cs, rest, rfl, hfee⟩
      · cases hany
      · by_cases hn : n = size
        · exact .inr ⟨n, c', cs ++ [c], rest.map _, by rw [List.map_cons, if_pos hn]; rfl, hfee⟩
        · exact .inr ⟨n, c', cs, rest.map _, by rw [List.map_cons, if_neg hn], hfee⟩
  · rename_i hany
    constructor
    · rw [List.map_append, List.nodup_append]
      refine ⟨h.keys, List.nodup_singleton _, ?_⟩
      intro n hn m hm hnm
      obtain ⟨e, he, rfl⟩ := List.mem_map.mp hn
      refine hany (List.any_eq_true.mpr ⟨e, he, ?_⟩)
      rw [hnm, List.mem_singleton.mp hm]
      exact beq_self_eq_true _
    · rcases h.first with rfl | ⟨n, c', cs, rest, rfl, hfee⟩
      · exact .inr ⟨size, c, [], [], rfl, hc rfl⟩
      · exact .inr ⟨n, c', cs, rest ++ [(size, [c])], rfl, hfee⟩

/-- What a loop returns was tried, and its candidates are grouped. -/
theorem feeLoop_gathered {p : Pricing τ} {bySize : BySize τ}
    (h : Loop.Returns (feeRound p) ⟨[], [], 0⟩ (.ok bySize)) :
    Gathered p bySize ∧ Grouped bySize := by
  have hempty : ∀ s : FeeState τ, Running p s → s.bySize = [] → s.currentFee = 0 := by
    intro s hs hnil
    rcases hs.first with hzero | ⟨e, he, -⟩
    · exact hzero
    · simp [hnil, entries] at he
  have hnext : ∀ s s', Running p s ∧ Grouped s.bySize → feeRound p s = .inl s' →
      Running p s' ∧ Grouped s'.bySize := by
    rintro s s' ⟨hs, hgroups⟩ hround
    obtain ⟨built, fee, hbuild, hfee, -, rfl⟩ := feeRound_next hround
    exact ⟨hs.next hbuild hfee, hgroups.append _ (hempty s hs)⟩
  have hstop : ∀ s r, Running p s ∧ Grouped s.bySize → feeRound p s = .inr r →
      ∀ bySize, r = .ok bySize → Gathered p bySize ∧ Grouped bySize := by
    rintro s r ⟨hs, hgroups⟩ hround bySize rfl
    rcases feeRound_stop hround with ⟨e, -, hr⟩ | ⟨built, hbuild, hseen, hr⟩
    · cases hr
    · cases hr
      exact ⟨hs.gathered hbuild hseen, hgroups.append _ (hempty s hs)⟩
  exact h.post hnext hstop ⟨running_start p, List.nodup_nil, .inl rfl⟩ bySize rfl

/-- The candidate a loop returns is one it tried. -/
theorem feeLoop_sound {p : Pricing τ} {feekb : Int} {best : Candidate τ}
    (h : FeeLoopReturns p feekb (.ok best)) :
    Tries p best.fee ∧ p.build best.fee = .ok (best.vout, best.tx) := by
  obtain ⟨tried, htried, h⟩ := h
  obtain ⟨bySize, rfl, hbest⟩ := bind_eq_ok.mp h.symm
  obtain ⟨entry, hpick, hbest⟩ := bind_eq_ok.mp hbest
  cases hbest
  have hsound := (feeLoop_gathered htried).1.sound entry (pickBest_mem hpick)
  exact ⟨hsound.1, hsound.2.1⟩

/-- Without a candidate that pays, the loop returns one of the smallest size, and the unpriced
one if that has the smallest size. -/
theorem feeLoop_fallback {p : Pricing τ} {feekb : Int} {best : Candidate τ}
    (h : FeeLoopReturns p feekb (.ok best))
    (hnone : ∀ fee built, Tries p fee → p.build fee = .ok built →
      ¬pays feekb minRelayTxFee (p.vsize built.2) fee) :
    (∀ fee built, Tries p fee → p.build fee = .ok built →
        p.vsize best.tx ≤ p.vsize built.2) ∧
      ∃ first, p.build 0 = .ok first ∧ (p.vsize best.tx = p.vsize first.2 → best.fee = 0) := by
  obtain ⟨tried, htried, h⟩ := h
  obtain ⟨bySize, rfl, hbest⟩ := bind_eq_ok.mp h.symm
  obtain ⟨entry, hpick, hbest⟩ := bind_eq_ok.mp hbest
  cases hbest
  obtain ⟨hgathered, hgroups⟩ := feeLoop_gathered htried
  have hsound := hgathered.sound entry (pickBest_mem hpick)
  have hleads := leads_foldl feekb minRelayTxFee (entries (bySize.mergeSort fun a b => a.1 ≤ b.1))
  have hsorted : (bySize.mergeSort fun a b => a.1 ≤ b.1).Pairwise fun a b => a.1 ≤ b.1 := by
    have := @List.pairwise_mergeSort _ (fun a b : Nat × List (Candidate τ) => decide (a.1 ≤ b.1))
      (by simpa using fun _ _ _ => Nat.le_trans) (by simpa using fun _ _ => Nat.le_total _ _) bySize
    simpa using this
  have hperm := List.mergeSort_perm bySize fun a b => decide (a.1 ≤ b.1)
  unfold pickBestFeeLoopCandidate at hpick
  dsimp only at hpick
  split at hpick
  · rename_i b hbest
    rw [hbest] at hleads
    obtain ⟨htries, hbuild, hsize⟩ := hgathered.sound b ((mem_entries_mergeSort _ _ _).mp hleads.1)
    exact absurd (hsize ▸ hleads.2.1) (hnone _ _ htries hbuild)
  · split at hpick
    · cases hpick
    · cases hpick
    · rename_i size c cs rest heq
      cases hpick
      rw [heq] at hsorted hperm
      have hleast : ∀ e ∈ bySize, size ≤ e.1 := by
        intro e he
        rcases List.mem_cons.mp (hperm.symm.mem_iff.mp he) with rfl | he
        · exact le_rfl
        · exact (List.pairwise_cons.mp hsorted).1 e he
      dsimp only at hsound ⊢
      constructor
      · intro fee built htries hbuild
        obtain ⟨e, he, hin⟩ := List.mem_flatMap.mp (hgathered.all htries hbuild)
        obtain ⟨c', -, heq'⟩ := List.mem_map.mp hin
        rw [← hsound.2.2, ← (Prod.mk.inj heq').1]
        exact hleast e he
      · obtain ⟨e, he, hfee⟩ := hgathered.first
        have hfirst := (hgathered.sound e he).2.1
        rw [hfee] at hfirst
        refine ⟨_, hfirst, fun hsize => ?_⟩
        rcases hgroups.first with hnil | ⟨n, c', cs', rest', hbySize, hzero⟩
        · rw [hnil] at hperm
          exact absurd hperm.length_eq (by simp)
        · -- The group of the smallest size is the first one, which the unpriced candidate opens.
          have hmem : (size, c :: cs) ∈ bySize := hperm.mem_iff.mp List.mem_cons_self
          have hn : n = size := by
            have hc' := hgathered.sound (n, c') (by rw [hbySize]; simp [entries])
            dsimp only at hc'
            rw [hzero, hfirst, Except.ok.injEq] at hc'
            rw [hc'.2.2, hsound.2.2, hsize, hc'.2.1]
          have hsame : ((size, c :: cs) : Nat × List (Candidate τ)) = (n, c' :: cs') :=
            List.inj_on_of_nodup_map hgroups.keys hmem (by rw [hbySize]; exact List.mem_cons_self)
              hn.symm
          cases hsame
          exact hzero

/-- With a candidate that pays among those tried, the one returned pays. -/
theorem feeLoop_pays {p : Pricing τ} {feekb fee : Int} {best : Candidate τ}
    {built : VoutResult × τ} (h : FeeLoopReturns p feekb (.ok best)) (htries : Tries p fee)
    (hbuild : p.build fee = .ok built)
    (hpays : pays feekb minRelayTxFee (p.vsize built.2) fee) :
    pays feekb minRelayTxFee (p.vsize best.tx) best.fee := by
  obtain ⟨tried, htried, h⟩ := h
  obtain ⟨bySize, rfl, hbest⟩ := bind_eq_ok.mp h.symm
  obtain ⟨entry, hpick, hbest⟩ := bind_eq_ok.mp hbest
  cases hbest
  have hgathered := (feeLoop_gathered htried).1
  obtain ⟨best, hpick', hmem, hbest, -⟩ := pickBest_of_pays (hgathered.all htries hbuild) hpays
  rw [hpick, Except.ok.injEq] at hpick'
  subst hpick'
  rw [← (hgathered.sound entry hmem).2.2]
  exact hbest

/-- The first round of a loop goes on with the first price. -/
theorem feeRound_first {p : Pricing τ} {fee : Int} {first : VoutResult × τ}
    (hfirst : p.build 0 = .ok first) (hfee : p.newFee (p.vsize first.2) = .ok fee) :
    feeRound p ⟨[], [], 0⟩ =
      .inl ⟨[(p.vsize first.2, [⟨0, first.1, first.2⟩])], [p.vsize first.2], fee⟩ := by
  simp [feeRound, hfirst, hfee, appendCandidate]

section OneSize

variable {p : Pricing τ} {feekb fee : Int} {first priced : VoutResult × τ}

/-- A loop that meets one size only ends with the unpriced candidate and the priced one. -/
theorem oneSize_tried (hfirst : p.build 0 = .ok first)
    (hfee : p.newFee (p.vsize first.2) = .ok fee) (hpriced : p.build fee = .ok priced)
    (hsame : p.vsize priced.2 = p.vsize first.2) :
    Loop.Returns (feeRound p) ⟨[], [], 0⟩
      (.ok [(p.vsize first.2, [⟨0, first.1, first.2⟩, ⟨fee, priced.1, priced.2⟩])]) := by
  apply (Loop.returns_of_next (feeRound_first hfirst hfee)).mpr
  apply Loop.Returns.stop
  simp [feeRound, hpriced, hsame, hfee, appendCandidate]

/-- At a price below what pays, it returns the unpriced one. -/
theorem feeLoop_oneSize (hfirst : p.build 0 = .ok first)
    (hfee : p.newFee (p.vsize first.2) = .ok fee) (hpriced : p.build fee = .ok priced)
    (hsame : p.vsize priced.2 = p.vsize first.2)
    (hzero : ¬pays feekb minRelayTxFee (p.vsize first.2) 0)
    (hshort : ¬pays feekb minRelayTxFee (p.vsize first.2) fee) :
    FeeLoopReturns p feekb (.ok ⟨0, first.1, first.2⟩) := by
  refine ⟨_, oneSize_tried hfirst hfee hpriced hsame, ?_⟩
  simp [pickBestFeeLoopCandidate, entries, consider, hzero, hshort]

/-- At a price that pays, it returns the priced one. -/
theorem feeLoop_oneSize_priced (hfirst : p.build 0 = .ok first)
    (hfee : p.newFee (p.vsize first.2) = .ok fee) (hpriced : p.build fee = .ok priced)
    (hsame : p.vsize priced.2 = p.vsize first.2)
    (hzero : ¬pays feekb minRelayTxFee (p.vsize first.2) 0)
    (hpays : pays feekb minRelayTxFee (p.vsize first.2) fee) :
    FeeLoopReturns p feekb (.ok ⟨fee, priced.1, priced.2⟩) := by
  refine ⟨_, oneSize_tried hfirst hfee hpriced hsame, ?_⟩
  simp [pickBestFeeLoopCandidate, entries, consider, hzero, hpays]

end OneSize

/-- A loop that tries a fee the builder refuses ends with that refusal. -/
theorem feeLoop_refused {p : Pricing τ} {feekb fee : Int} {e : Exn}
    {result : Except Exn (Candidate τ)} (h : FeeLoopReturns p feekb result)
    (htries : Tries p fee) (hbuild : p.build fee = .error e) : result = .error e := by
  obtain ⟨tried, htried, rfl⟩ := h
  rcases feeLoop_ends htried with ⟨fee', e', -, hstuck, rfl, hothers⟩ | ⟨bySize, -, hgathered⟩
  · rcases hothers fee htries with rfl | ⟨built, hbuilt⟩
    · rcases hstuck with hstuck | ⟨built, hbuilt, -⟩
      · rw [hbuild, Except.error.injEq] at hstuck
        rw [hstuck]
        rfl
      · simp [hbuild] at hbuilt
    · simp [hbuild] at hbuilt
  · obtain ⟨entry, hentry, rfl⟩ := hgathered.fees htries
    have hbuilt := (hgathered.sound entry hentry).2.1
    simp [hbuild] at hbuilt

end Yubtc.FeeLoop
