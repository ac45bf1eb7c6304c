import Yubtc.Wallet

/-!
# What a scan finds

The scan is compared with the chain itself: what the ever-paid forms of the nonces hold, in
order, and the first nonce at which it may stop.
-/
namespace Yubtc.Scan

open Wallet

variable {κ : Type} (chain : ChainState) (ring : Keyring κ)

/-- A nonce with a form that was ever paid. -/
def Used (nonce : Nat) : Prop := ∃ t, 0 < chain.totalReceived (TPrivKey.make ring nonce t).address

/-- The ever-paid forms of a list that hold something, with what they hold. -/
def heldBy (forms : List (TPrivKey κ)) : List (Source κ) :=
  (forms.filter fun form =>
    0 < chain.totalReceived form.address ∧ chain.unspent form.address ≠ []).map
    fun form => (form, chain.unspent form.address)

/-- What nonce `n` holds, in the order P2PKH, P2WPKH, P2TR. -/
def held (n : Nat) : List (Source κ) :=
  heldBy chain ((addrTypes).map (TPrivKey.make ring n))

/-- What the nonces below `n` hold. -/
def heldBelow (n : Nat) : List (Source κ) := (List.range n).flatMap (held chain ring)

def valueOf (sources : List (Source κ)) : Nat := (sources.map fun s => amountOf s.2).sum

/-- Nonce `k` contributes and completes the target. -/
def Meets (target : Int) (k : Nat) : Prop :=
  held chain ring k ≠ [] ∧ target ≤ valueOf (heldBelow chain ring (k + 1))

/-- The result of a complete scan: stopped at the first nonce that meets the target, with no
unused nonce before it, or at the first unused nonce. -/
def Complete (addrType : AddrType) (target : Option Int) (result : List (Source κ) × String) :
    Prop :=
  (∃ amount k last, target = some amount ∧ (∀ j ≤ k, Used chain ring j) ∧
      Meets chain ring amount k ∧ (∀ j < k, ¬Meets chain ring amount j) ∧
      (held chain ring k).getLast? = some last ∧
      result = (heldBelow chain ring (k + 1), last.1.address)) ∨
    ∃ gap, ¬Used chain ring gap ∧ (∀ j < gap, Used chain ring j) ∧
      (∀ amount, target = some amount → ∀ j < gap, ¬Meets chain ring amount j) ∧
      result = (heldBelow chain ring gap, (TPrivKey.make ring gap addrType).address)

variable {chain ring}

theorem getUnspent_zero (key : TPrivKey κ) : key.getUnspent chain 0 = chain.unspent key.address := by
  simp [TPrivKey.getUnspent]

theorem nonceIsUsed_iff (n : Nat) :
    nonceIsUsed chain (nonceAddressForms ring n) = true ↔ Used chain ring n := by
  simp only [nonceIsUsed, nonceAddressForms, addrTypes, Used, List.map_cons, List.map_nil,
    List.any_cons, List.any_nil, Bool.or_eq_true, decide_eq_true_eq, Bool.or_false]
  constructor
  · rintro (h | h | h)
    · exact ⟨.legacy, h⟩
    · exact ⟨.native, h⟩
    · exact ⟨.taproot, h⟩
  · rintro ⟨t, h⟩
    cases t with
    | legacy => exact .inl h
    | native => exact .inr (.inl h)
    | taproot => exact .inr (.inr h)

/-- Gathering appends what the forms hold. -/
theorem foldl_gatherForm (forms : List (TPrivKey κ)) (g : Gathered κ) :
    forms.foldl (gatherForm chain) g =
      ⟨g.sources ++ heldBy chain forms, g.total + valueOf (heldBy chain forms),
        ((heldBy chain forms).getLast?.map fun s => s.1.address).or g.lastAddr⟩ := by
  induction forms generalizing g with
  | nil => simp [heldBy, valueOf]
  | cons form forms ih =>
    rw [List.foldl_cons, ih, gatherForm, getUnspent_zero]
    by_cases hpaid : chain.totalReceived form.address = 0
    · simp [heldBy, hpaid]
    · by_cases hempty : chain.unspent form.address = []
      · simp [heldBy, hempty]
      · have hheld : heldBy chain (form :: forms) =
            (form, chain.unspent form.address) :: heldBy chain forms := by
          simp [heldBy, hempty, Nat.pos_of_ne_zero hpaid]
        rw [hheld, List.getLast?_cons]
        cases (heldBy chain forms).getLast? <;>
          simp [hpaid, hempty, valueOf, Nat.add_assoc]

theorem heldBelow_succ (n : Nat) :
    heldBelow chain ring (n + 1) = heldBelow chain ring n ++ held chain ring n := by
  simp [heldBelow, List.range_succ]

theorem valueOf_append (a b : List (Source κ)) : valueOf (a ++ b) = valueOf a + valueOf b := by
  simp [valueOf]

/-- The scan between two nonces: everything below has been gathered and was no reason to stop. -/
structure Between (chain : ChainState) (ring : Keyring κ) (target : Option Int)
    (s : ScanState κ) : Prop where
  sources : s.sources = heldBelow chain ring s.nonce
  total : s.total = valueOf (heldBelow chain ring s.nonce)
  used : ∀ j < s.nonce, Used chain ring j
  short : ∀ amount, target = some amount → ∀ j < s.nonce, ¬Meets chain ring amount j

theorem between_start (target : Option Int) : Between chain ring target ⟨0, [], 0⟩ :=
  ⟨rfl, rfl, nofun, nofun⟩

/-- What a round gathers at a used nonce. -/
theorem Between.gather {target : Option Int} {s : ScanState κ} (h : Between chain ring target s) :
    (nonceAddressForms ring s.nonce).foldl (gatherForm chain) ⟨s.sources, s.total, none⟩ =
      ⟨heldBelow chain ring (s.nonce + 1), valueOf (heldBelow chain ring (s.nonce + 1)),
        (held chain ring s.nonce).getLast?.map fun source => source.1.address⟩ := by
  rw [foldl_gatherForm, h.sources, h.total, heldBelow_succ, valueOf_append, Option.or_none]
  rfl

/-- What a round can do. -/
theorem Between.round {target : Option Int} {s : ScanState κ} (h : Between chain ring target s)
    (addrType : AddrType) :
    (¬Used chain ring s.nonce ∧ scanRound chain ring addrType target s =
        .inr (heldBelow chain ring s.nonce, (TPrivKey.make ring s.nonce addrType).address)) ∨
      (Used chain ring s.nonce ∧ ∃ amount last, target = some amount ∧
        Meets chain ring amount s.nonce ∧ (held chain ring s.nonce).getLast? = some last ∧
        scanRound chain ring addrType target s =
          .inr (heldBelow chain ring (s.nonce + 1), last.1.address)) ∨
      (Used chain ring s.nonce ∧
        (∀ amount, target = some amount → ¬Meets chain ring amount s.nonce) ∧
        scanRound chain ring addrType target s = .inl ⟨s.nonce + 1,
          heldBelow chain ring (s.nonce + 1), valueOf (heldBelow chain ring (s.nonce + 1))⟩) := by
  by_cases hused : Used chain ring s.nonce
  · have htrue := (nonceIsUsed_iff s.nonce).mpr hused
    cases hlast : (held chain ring s.nonce).getLast? with
    | none =>
      have hempty : held chain ring s.nonce = [] := List.getLast?_eq_none_iff.mp hlast
      refine .inr (.inr ⟨hused, fun _ _ hmeets => hmeets.1 hempty, ?_⟩)
      simp only [scanRound, htrue, if_true, h.gather, hlast, Option.map_none]
    | some last =>
      have hne : held chain ring s.nonce ≠ [] := by
        intro hempty
        simp [hempty] at hlast
      cases target with
      | none =>
        refine .inr (.inr ⟨hused, nofun, ?_⟩)
        simp only [scanRound, htrue, if_true, h.gather, hlast, Option.map_some]
      | some amount =>
        by_cases hmet : amount ≤ valueOf (heldBelow chain ring (s.nonce + 1))
        · refine .inr (.inl ⟨hused, amount, last, rfl, ⟨hne, hmet⟩, rfl, ?_⟩)
          simp only [scanRound, htrue, if_true, h.gather, hlast, Option.map_some, hmet]
        · refine .inr (.inr ⟨hused, ?_, ?_⟩)
          · intro other hother hmeets
            rw [Option.some.injEq] at hother
            exact hmet (hother ▸ hmeets.2)
          · simp only [scanRound, htrue, if_true, h.gather, hlast, Option.map_some, hmet, if_false]
  · have hfalse : ¬nonceIsUsed chain (nonceAddressForms ring s.nonce) = true :=
      fun htrue => hused ((nonceIsUsed_iff s.nonce).mp htrue)
    refine .inl ⟨hused, ?_⟩
    rw [scanRound, if_neg hfalse, h.sources]

/-- A round that goes on has gathered its nonce and found no reason to stop. -/
theorem Between.next {addrType : AddrType} {target : Option Int} {s s' : ScanState κ}
    (h : Between chain ring target s)
    (hround : scanRound chain ring addrType target s = .inl s') :
    Between chain ring target s' ∧ s'.nonce = s.nonce + 1 := by
  rcases h.round addrType with ⟨-, heq⟩ | ⟨-, _, _, -, -, -, heq⟩ | ⟨hused, hshort, heq⟩
  · simp [heq] at hround
  · simp [heq] at hround
  · rw [heq, Sum.inl.injEq] at hround
    subst hround
    refine ⟨⟨rfl, rfl, ?_, ?_⟩, rfl⟩
    · intro j hj
      rcases Nat.lt_succ_iff_lt_or_eq.mp hj with hlt | rfl
      · exact h.used j hlt
      · exact hused
    · intro amount htarget j hj
      rcases Nat.lt_succ_iff_lt_or_eq.mp hj with hlt | rfl
      · exact h.short amount htarget j hlt
      · exact hshort amount htarget

theorem Between.stop {addrType : AddrType} {target : Option Int} {s : ScanState κ}
    {result : List (Source κ) × String} (h : Between chain ring target s)
    (hround : scanRound chain ring addrType target s = .inr result) :
    Complete chain ring addrType target result := by
  rcases h.round addrType with ⟨hgap, heq⟩ | ⟨hused, amount, last, htarget, hmeets, hlast, heq⟩ |
    ⟨-, -, heq⟩
  · rw [heq, Sum.inr.injEq] at hround
    exact .inr ⟨s.nonce, hgap, h.used, h.short, hround.symm⟩
  · rw [heq, Sum.inr.injEq] at hround
    refine .inl ⟨amount, s.nonce, last, htarget, ?_, hmeets, h.short amount htarget, hlast,
      hround.symm⟩
    intro j hj
    rcases Nat.lt_or_eq_of_le hj with hlt | rfl
    · exact h.used j hlt
    · exact hused
  · simp [heq] at hround

/-- With finitely many used nonces the scan returns, and what it returns is complete. -/
theorem scanInputs_complete (chain : ChainState) (ring : Keyring κ)
    (hfinite : {n | Used chain ring n}.Finite) (addrType : AddrType) (target : Option Int)
    (confirmations : Int) :
    (∃ result, ScanInputs chain ring addrType target confirmations result) ∧
      ∀ result, ScanInputs chain ring addrType target confirmations result →
        Complete chain ring addrType target result := by
  constructor
  · -- The distance to an unused nonce gets smaller with each round.
    obtain ⟨gap, hgap⟩ := hfinite.exists_notMem
    have hnext : ∀ s s', Between chain ring target s →
        scanRound chain ring addrType target s = .inl s' →
        Between chain ring target s' ∧ gap + 1 - s'.nonce < gap + 1 - s.nonce := by
      intro s s' hs hround
      obtain ⟨hs', hnonce⟩ := hs.next hround
      have hle : s'.nonce ≤ gap := by
        by_contra hlt
        exact hgap (hs'.used gap (by omega))
      exact ⟨hs', by omega⟩
    exact Loop.returns_of_measure (fun s => gap + 1 - s.nonce) hnext (between_start target)
  · intro result hresult
    exact hresult.post (fun s s' hs hround => (hs.next hround).1)
      (fun s result hs hround => hs.stop hround) (between_start target)

/-- Keys named by their nonce and form. -/
def sampleRing : Keyring Nat where
  seed2privkey := fun n _ => n
  addressForKey := fun n t =>
    match n, t with
    | 0, .native => "bc1q0"
    | 0, .taproot => "bc1p0"
    | _, _ => "other"

def sampleUtxo (tx : String) (amount confirmations : Nat) : Utxo := ⟨tx, 0, amount, "", confirmations⟩

/-- A chain that paid two forms of nonce 0. -/
def sampleChain : ChainState where
  totalReceived := fun address =>
    if address = "bc1q0" then 1000 else if address = "bc1p0" then 2000 else 0
  unspent := fun address =>
    if address = "bc1q0" then [sampleUtxo "aa" 1000 6]
    else if address = "bc1p0" then [sampleUtxo "bb" 2000 0] else []
  unspent_nil := by
    intro address
    split
    · simp
    · split <;> simp

theorem sample_used (n : Nat) : Used sampleChain sampleRing n ↔ n = 0 := by
  constructor
  · rintro ⟨t, ht⟩
    by_contra hn
    obtain ⟨m, rfl⟩ := Nat.exists_eq_succ_of_ne_zero hn
    cases t <;> simp [TPrivKey.make, sampleRing, sampleChain] at ht
  · rintro rfl
    exact ⟨.native, by decide⟩

theorem scanInputs_complete_sample :
    (∃ result, ScanInputs sampleChain sampleRing .legacy (some 2500) 6 result) ∧
      ∀ result, ScanInputs sampleChain sampleRing .legacy (some 2500) 6 result →
        Complete sampleChain sampleRing .legacy (some 2500) result :=
  scanInputs_complete sampleChain sampleRing
    ((Set.finite_singleton 0).subset fun n hn => (sample_used n).mp hn) .legacy (some 2500) 6

end Yubtc.Scan
