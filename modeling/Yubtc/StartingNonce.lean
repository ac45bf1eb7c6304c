import Yubtc.Confirmations

/-!
# The starting nonce

A wallet is opened at a nonce and its keys start there. The walk behind `--scan` and
`--interactive` starts at nonce 0 whatever the wallet was opened at.
-/
namespace Yubtc.StartingNonce

open Wallet Scan Selection Confirmations

variable {κ : Type}

/-- A walk from `nonce` stays there until it has that nonce's key. -/
def FromStart (ring : Keyring κ) (addrType : AddrType) (nonce : Nat) (s : WalkState κ) : Prop :=
  s.privkeys.head? = some (TPrivKey.make ring nonce addrType) ∨ s.privkeys = [] ∧ s.nonce = nonce

theorem FromStart.round {chain : ChainState} {ring : Keyring κ} {addrType : AddrType} {nonce : Nat}
    {s s' : WalkState κ} (h : FromStart ring addrType nonce s)
    (hround : walkRound chain ring addrType s = .inl s' ∨ walkRound chain ring addrType s = .inr s') :
    FromStart ring addrType nonce s' := by
  unfold walkRound at hround
  split at hround
  · rcases hround with hround | hround
    · cases hround
      rcases h with hhead | ⟨hempty, hnonce⟩
      · exact .inl (by simp [hhead])
      · exact .inl (by simp [hempty, hnonce])
    · cases hround
  · rcases hround with hround | hround
    · cases hround
    · cases hround
      exact h

/-- The first key of a wallet has the nonce it was opened at. -/
theorem opens_head {chain : ChainState} {ring : Keyring κ} {addrType : AddrType}
    {nonce newAddresses : Nat} {privkeys : List (TPrivKey κ)} {key : TPrivKey κ}
    (h : Opens chain ring addrType nonce newAddresses privkeys)
    (hkey : privkeys.head? = some key) : key = TPrivKey.make ring nonce addrType := by
  obtain ⟨walked, hwalked, rfl⟩ := h
  have hstart : FromStart ring addrType nonce walked :=
    hwalked.post (fun _ _ hs hround => FromStart.round hs (.inl hround))
      (fun _ _ hs hround => hs.round (.inr hround)) (.inr ⟨rfl, rfl⟩)
  rcases hstart with hhead | ⟨hempty, hnonce⟩
  · simpa [hhead, eq_comm] using hkey
  · cases newAddresses with
    | zero => simp [hempty] at hkey
    | succ n => simpa [hempty, hnonce, List.range_succ_eq_map, eq_comm] using hkey

/-- Every output that is spent is one that the chain reports at a form of a nonce from `nonce`
on, and is spent with the key of that form. -/
def FromNonce (chain : ChainState) (ring : Keyring κ) (nonce : Nat) (sources : List (Source κ)) :
    Prop :=
  ∀ source ∈ sources, ∀ u ∈ source.2, ∃ k t, nonce ≤ k ∧ source.1 = TPrivKey.make ring k t ∧
    u ∈ chain.unspent (TPrivKey.make ring k t).address

/-- When a mode keeps to the nonces from `nonce` on: always for the primary address; for a scan
when the nonces before it that the walk covers hold nothing; for an interactive selection when
nothing that they hold is left selected. -/
def KeepsFrom (chain : ChainState) (ring : Keyring κ) (addrType : AddrType) (nonce : Nat)
    (amount : Option Int) (fee confirmations : Int) : Mode → Prop
  | .primary => True
  | .scan => ∀ n < nonce, Covered chain ring (amount.map (· + fee)) n → ∀ t,
    chain.unspent (TPrivKey.make ring n t).address = []
  | .interactive keys => ∀ scanned cashbackAddr st,
    ScanInputs chain ring addrType none confirmations (scanned, cashbackAddr) →
    afterKeys scanned (startState scanned amount) keys = some st →
    ∀ n < nonce, Covered chain ring none n → ∀ t,
      ∀ u ∈ chain.unspent (TPrivKey.make ring n t).address,
        marker (TPrivKey.make ring n t) u ∉ st.selected

/-- What a key of the wallet's seed can show of the starting nonce. -/
theorem make_fromNonce {chain : ChainState} {ring : Keyring κ} {nonce n : Nat} {t : AddrType}
    {u : Utxo} (hu : u ∈ chain.unspent (TPrivKey.make ring n t).address) :
    (∃ k t', nonce ≤ k ∧ TPrivKey.make ring n t = TPrivKey.make ring k t' ∧
      u ∈ chain.unspent (TPrivKey.make ring k t').address) ↔ nonce ≤ n := by
  constructor
  · rintro ⟨k, t', hk, hsame, -⟩
    have hnonce : n = k := congrArg TPrivKey.nonce hsame
    omega
  · intro hn
    exact ⟨n, t, hn, rfl, hu⟩

/-- A send command keeps to the nonces from the starting nonce on exactly under the condition of
its mode. -/
theorem fromNonce_iff (chain : ChainState) (ring : Keyring κ) (addrType : AddrType)
    (nonce newAddresses : Nat) (privkeys : List (TPrivKey κ)) (amount : Option Int)
    (fee confirmations : Int) (mode : Mode) (sources : List (Source κ))
    (hopen : Opens chain ring addrType nonce newAddresses privkeys)
    (h : SendSources chain ring addrType privkeys amount fee confirmations mode sources) :
    FromNonce chain ring nonce sources ↔
      KeepsFrom chain ring addrType nonce amount fee confirmations mode := by
  have hkey : ∀ n t u, u ∈ chain.unspent (TPrivKey.make ring n t).address →
      ((∃ k t', nonce ≤ k ∧ TPrivKey.make ring n t = TPrivKey.make ring k t' ∧
        u ∈ chain.unspent (TPrivKey.make ring k t').address) ↔ nonce ≤ n) := fun n t u hu =>
    make_fromNonce hu
  cases mode with
  | primary =>
    obtain ⟨key, hhead, rfl⟩ := h
    refine iff_of_true ?_ trivial
    intro source hsource u hu
    rw [List.mem_singleton.mp hsource] at hu ⊢
    rw [opens_head hopen hhead] at hu ⊢
    exact ⟨nonce, addrType, le_rfl, rfl, List.mem_of_mem_filter hu⟩
  | scan =>
    obtain ⟨cashbackAddr, hscan⟩ := h
    refine (forall_complete (complete_of_scanInputs hscan) fun key u => ∃ k t, nonce ≤ k ∧
      key = TPrivKey.make ring k t ∧ u ∈ chain.unspent (TPrivKey.make ring k t).address).trans ?_
    constructor
    · intro hall n hn hcovered t
      refine List.eq_nil_iff_forall_not_mem.mpr fun u hu => ?_
      have hle := (hkey n t u hu).mp (hall n hcovered t u hu)
      omega
    · intro hall n hcovered t u hu
      refine (hkey n t u hu).mpr ?_
      by_contra hlt
      rw [hall n (by omega) hcovered t] at hu
      cases hu
  | interactive keys =>
    obtain ⟨scanned, cashbackAddr, hscan, -, -, st, flat, hrun, hpress, rfl⟩ := h
    rw [press_newline] at hpress
    cases hpress
    refine (forall_interactive hscan hrun fun key u => ∃ k t, nonce ≤ k ∧
      key = TPrivKey.make ring k t ∧ u ∈ chain.unspent (TPrivKey.make ring k t).address).trans ?_
    constructor
    · intro hall scanned cashbackAddr st hscan hrun n hn hcovered t u hu hmarker
      have hle := (hkey n t u hu).mp
        (hall scanned cashbackAddr st hscan hrun n hcovered t u hu hmarker)
      omega
    · intro hall scanned cashbackAddr st hscan hrun n hcovered t u hu hmarker
      refine (hkey n t u hu).mpr ?_
      by_contra hlt
      exact hall scanned cashbackAddr st hscan hrun n (by omega) hcovered t u hu hmarker

theorem sample_opens : Opens sampleChain sampleRing .native 1 1 [TPrivKey.make sampleRing 1 .native] :=
  ⟨⟨1, []⟩, ⟨1, rfl⟩, rfl⟩

theorem sample_scanned : SendSources sampleChain sampleRing .native
    [TPrivKey.make sampleRing 1 .native] (some 2500) 200 6 .scan sampleSources :=
  ⟨"bc1p0", 1, rfl⟩

/-- A wallet opened at nonce 1 spends what nonce 0 holds. -/
theorem sample_before_nonce :
    ¬∀ (chain : ChainState) (ring : Keyring Nat) (addrType : AddrType) (nonce newAddresses : Nat)
      (privkeys : List (TPrivKey Nat)) (amount : Option Int) (fee confirmations : Int)
      (mode : Mode) (sources : List (Source Nat)),
      Opens chain ring addrType nonce newAddresses privkeys →
      SendSources chain ring addrType privkeys amount fee confirmations mode sources →
        FromNonce chain ring nonce sources := by
  intro h
  have hfrom := h _ _ _ _ _ _ _ _ _ _ _ sample_opens sample_scanned
  obtain ⟨k, t, hk, hsame, -⟩ := hfrom (TPrivKey.make sampleRing 0 .native,
    [sampleUtxo "aa" 1000 6]) List.mem_cons_self _ List.mem_cons_self
  have hzero : 0 = k := congrArg TPrivKey.nonce hsame
  omega

theorem fromNonce_iff_sample :
    FromNonce sampleChain sampleRing 1 sampleSources ↔
      KeepsFrom sampleChain sampleRing .native 1 (some 2500) 200 6 .scan :=
  fromNonce_iff _ _ _ _ _ _ _ _ _ _ _ sample_opens sample_scanned

end Yubtc.StartingNonce
