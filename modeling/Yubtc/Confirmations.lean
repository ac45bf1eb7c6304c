import Yubtc.Selection

/-!
# Confirmations of what is spent

The sources that each mode of the send command hands to `_make_vin`, which makes one input of
every output in them, and the outputs `ms_create_psbt` selects.
-/
namespace Yubtc.Confirmations

open Wallet Scan Selection

variable {κ : Type}

/-- The selection mode of a send command; the keys are those pressed before the selection is
confirmed. -/
inductive Mode where
  | primary
  | scan
  | interactive (keys : List Int)

/-- The sources of the transaction. `amount` is `none` for everything. -/
def SendSources (chain : ChainState) (ring : Keyring κ) (addrType : AddrType)
    (privkeys : List (TPrivKey κ)) (amount : Option Int) (fee : Int) (confirmations : Int) :
    Mode → List (Source κ) → Prop
  | .primary, sources => ∃ key, privkeys.head? = some key ∧
    sources = [(key, key.getUnspent chain confirmations)]
  | .scan, sources => ∃ cashbackAddr, ScanInputs chain ring addrType (amount.map (· + fee))
    confirmations (sources, cashbackAddr)
  | .interactive keys, sources => ∃ scanned cashbackAddr,
    ScanInputs chain ring addrType none confirmations (scanned, cashbackAddr) ∧ scanned ≠ [] ∧
    (∀ target, amount = some target → target ≤ valueOf scanned) ∧
    ∃ st flat, afterKeys scanned (startState scanned amount) keys = some st ∧
      press scanned st keyNewline = .confirmed flat ∧ sources = selectionToSources flat

/-- The outputs that become inputs. -/
def spent (sources : List (Source κ)) : List Utxo := sources.flatMap Prod.snd

/-- `ms_select_utxos`: the smallest prefix that reaches the target. -/
def msSelectFrom (target : Option Int) : Nat → List Utxo → List Utxo
  | _, [] => []
  | total, u :: rest =>
    if targetMet target (total + u.amount) then [u]
    else u :: msSelectFrom target (total + u.amount) rest

def msSelectUtxos (utxos : List Utxo) (target : Option Int) : List Utxo :=
  msSelectFrom target 0 utxos

/-- What `ms_create_psbt` spends of the quorum address. -/
def msSelected (chain : ChainState) (quorumAddr : String) (confirmations amount fee : Int) :
    List Utxo :=
  msSelectUtxos ((chain.unspent quorumAddr).filter fun u => decide (confirmations ≤ u.confirmations))
    (some (amount + fee))

/-- A nonce that a scan reaches and gathers. -/
def Covered (chain : ChainState) (ring : Keyring κ) (target : Option Int) (n : Nat) : Prop :=
  (∀ j ≤ n, Used chain ring j) ∧
    ∀ amount, target = some amount → ∀ j < n, ¬Meets chain ring amount j

/-- A complete scan returns what the covered nonces hold. -/
theorem mem_complete {chain : ChainState} {ring : Keyring κ} {addrType : AddrType}
    {target : Option Int} {result : List (Source κ) × String}
    (h : Complete chain ring addrType target result) (source : Source κ) :
    source ∈ result.1 ↔ ∃ n, Covered chain ring target n ∧ source ∈ held chain ring n := by
  rcases h with ⟨amount, k, last, rfl, hused, hmeets, hfirst, -, rfl⟩ | ⟨gap, hgap, hused, hshort, rfl⟩
  · rw [mem_heldBelow]
    constructor
    · rintro ⟨n, hn, hsource⟩
      refine ⟨n, ⟨fun j hj => hused j (by omega), ?_⟩, hsource⟩
      intro other hother j hj
      rw [Option.some.injEq] at hother
      exact hother ▸ hfirst j (by omega)
    · rintro ⟨n, ⟨-, hshort⟩, hsource⟩
      refine ⟨n, ?_, hsource⟩
      by_contra hlt
      exact hshort amount rfl k (by omega) hmeets
  · rw [mem_heldBelow]
    constructor
    · rintro ⟨n, hn, hsource⟩
      exact ⟨n, ⟨fun j hj => hused j (by omega), fun amount hamount j hj =>
        hshort amount hamount j (by omega)⟩, hsource⟩
    · rintro ⟨n, ⟨hreached, -⟩, hsource⟩
      refine ⟨n, ?_, hsource⟩
      by_contra hlt
      exact hgap (hreached gap (by omega))

/-- What holds of everything the scan returns holds of all forms of the covered nonces. -/
theorem forall_complete {chain : ChainState} {ring : Keyring κ} {addrType : AddrType}
    {target : Option Int} {result : List (Source κ) × String}
    (h : Complete chain ring addrType target result) (p : TPrivKey κ → Utxo → Prop) :
    (∀ source ∈ result.1, ∀ u ∈ source.2, p source.1 u) ↔
      ∀ n, Covered chain ring target n → ∀ t,
        ∀ u ∈ chain.unspent (TPrivKey.make ring n t).address, p (TPrivKey.make ring n t) u := by
  simp only [mem_complete h, mem_held]
  constructor
  · intro hall n hn t u hu
    exact hall _ ⟨n, hn, t, rfl, List.ne_nil_of_mem hu⟩ u hu
  · rintro hall _ ⟨n, hn, t, rfl, -⟩ u hu
    exact hall n hn t u hu

/-- A complete scan has different keys. -/
theorem complete_idents {chain : ChainState} {ring : Keyring κ} {addrType : AddrType}
    {target : Option Int} {result : List (Source κ) × String}
    (h : Complete chain ring addrType target result) :
    (result.1.map fun source => ident source.1).Nodup := by
  rcases h with ⟨_, k, _, -, -, -, -, -, rfl⟩ | ⟨gap, -, -, -, rfl⟩
  · exact heldBelow_idents chain ring (k + 1)
  · exact heldBelow_idents chain ring gap

/-- A scan that returns is complete. -/
theorem complete_of_scanInputs {chain : ChainState} {ring : Keyring κ} {addrType : AddrType}
    {target : Option Int} {confirmations : Int} {result : List (Source κ) × String}
    (h : ScanInputs chain ring addrType target confirmations result) :
    Complete chain ring addrType target result :=
  h.post (fun _ _ hs hround => (hs.next hround).1) (fun _ _ hs hround => hs.stop hround)
    (between_start target)

/-- What holds of everything an interactive selection spends holds of all outputs on the covered
nonces that are left selected. -/
theorem forall_interactive {chain : ChainState} {ring : Keyring κ} {addrType : AddrType}
    {amount : Option Int} {confirmations : Int} {keys : List Int}
    {scanned : List (Source κ)} {cashbackAddr : String} {st : TuiState}
    (hscan : ScanInputs chain ring addrType none confirmations (scanned, cashbackAddr))
    (hrun : afterKeys scanned (startState scanned amount) keys = some st)
    (p : TPrivKey κ → Utxo → Prop) :
    (∀ source ∈ selectionToSources (materialise scanned st.selected), ∀ u ∈ source.2,
        p source.1 u) ↔
      ∀ scanned cashbackAddr st,
        ScanInputs chain ring addrType none confirmations (scanned, cashbackAddr) →
        afterKeys scanned (startState scanned amount) keys = some st →
        ∀ n, Covered chain ring none n → ∀ t, ∀ u ∈ chain.unspent (TPrivKey.make ring n t).address,
          marker (TPrivKey.make ring n t) u ∈ st.selected → p (TPrivKey.make ring n t) u := by
  have hcomplete := complete_of_scanInputs hscan
  have hgrouped : (∀ source ∈ selectionToSources (materialise scanned st.selected),
        ∀ u ∈ source.2, p source.1 u) ↔ ∀ source ∈ scanned, ∀ u ∈ source.2,
      marker source.1 u ∈ st.selected → p source.1 u := by
    rw [selectionToSources_materialise (complete_idents hcomplete)]
    simp only [List.mem_filter, List.mem_map, marked]
    constructor
    · intro hall source hsource u hu hmarker
      have hmarked : u ∈ source.2.filter fun u => decide (marker source.1 u ∈ st.selected) := by
        simp [hu, hmarker]
      exact hall _ ⟨⟨source, hsource, rfl⟩, by simpa using ⟨u, hu, hmarker⟩⟩ u hmarked
    · rintro hall _ ⟨⟨source, hsource, rfl⟩, -⟩ u hu
      have hu := List.mem_filter.mp hu
      exact hall source hsource u hu.1 (by simpa using hu.2)
  rw [hgrouped, forall_complete hcomplete fun key u => marker key u ∈ st.selected → p key u]
  constructor
  · intro hall scanned' cashbackAddr' st' hscan' hrun'
    cases hscan.unique hscan'
    cases hrun.symm.trans hrun'
    exact hall
  · intro hall
    exact hall scanned cashbackAddr st hscan hrun

/-- When a mode spends confirmed outputs only: always for the primary address; for a scan when
everything on the covered nonces is confirmed; for an interactive selection when every output
on them that is left selected is. -/
def ConfirmedWhen (chain : ChainState) (ring : Keyring κ) (addrType : AddrType)
    (amount : Option Int) (fee : Int) (confirmations : Int) : Mode → Prop
  | .primary => True
  | .scan => ∀ n, Covered chain ring (amount.map (· + fee)) n → ∀ t,
    ∀ u ∈ chain.unspent (TPrivKey.make ring n t).address, confirmations ≤ u.confirmations
  | .interactive keys => ∀ scanned cashbackAddr st,
    ScanInputs chain ring addrType none confirmations (scanned, cashbackAddr) →
    afterKeys scanned (startState scanned amount) keys = some st →
    ∀ n, Covered chain ring none n → ∀ t, ∀ u ∈ chain.unspent (TPrivKey.make ring n t).address,
      marker (TPrivKey.make ring n t) u ∈ st.selected → confirmations ≤ u.confirmations

theorem spent_iff {sources : List (Source κ)} {confirmations : Int} :
    (∀ u ∈ spent sources, confirmations ≤ u.confirmations) ↔
      ∀ source ∈ sources, ∀ u ∈ source.2, confirmations ≤ u.confirmations := by
  simp only [spent, List.mem_flatMap]
  constructor
  · intro h source hsource u hu
    exact h u ⟨source, hsource, hu⟩
  · rintro h u ⟨source, hsource, hu⟩
    exact h source hsource u hu

/-- A send command spends outputs with enough confirmations exactly under the condition of
its mode. -/
theorem spent_confirmed_iff {chain : ChainState} {ring : Keyring κ} {addrType : AddrType}
    {privkeys : List (TPrivKey κ)} {amount : Option Int} {fee confirmations : Int} {mode : Mode}
    {sources : List (Source κ)}
    (h : SendSources chain ring addrType privkeys amount fee confirmations mode sources) :
    (∀ u ∈ spent sources, confirmations ≤ u.confirmations) ↔
      ConfirmedWhen chain ring addrType amount fee confirmations mode := by
  cases mode with
  | primary =>
    obtain ⟨key, -, rfl⟩ := h
    simp [ConfirmedWhen, spent, TPrivKey.getUnspent]
  | scan =>
    obtain ⟨cashbackAddr, hscan⟩ := h
    rw [spent_iff]
    exact forall_complete (complete_of_scanInputs hscan) fun _ u => confirmations ≤ u.confirmations
  | interactive keys =>
    obtain ⟨scanned, cashbackAddr, hscan, -, -, st, flat, hrun, hpress, rfl⟩ := h
    rw [press_newline] at hpress
    cases hpress
    rw [spent_iff]
    exact forall_interactive hscan hrun fun _ u => confirmations ≤ u.confirmations

theorem msSelectFrom_sublist (target : Option Int) (total : Nat) (utxos : List Utxo) :
    (msSelectFrom target total utxos).Sublist utxos := by
  induction utxos generalizing total with
  | nil => exact .slnil
  | cons u rest ih =>
    rw [msSelectFrom]
    split
    · exact (List.nil_sublist rest).cons_cons u
    · exact (ih _).cons_cons u

/-- What a quorum spends is reported at its address, with enough confirmations. -/
theorem msSelected_confirmed (chain : ChainState) (quorumAddr : String)
    (confirmations amount fee : Int) :
    ∀ u ∈ msSelected chain quorumAddr confirmations amount fee,
      u ∈ chain.unspent quorumAddr ∧ confirmations ≤ u.confirmations := by
  intro u hu
  have hmem := (msSelectFrom_sublist _ 0 _).mem hu
  simpa using List.mem_filter.mp hmem

/-- A list of outputs that the chain reports at some address, with enough confirmations. -/
def Respected (chain : ChainState) (confirmations : Int) (utxos : List Utxo) : Prop :=
  ∀ u ∈ utxos, (∃ address, u ∈ chain.unspent address) ∧ confirmations ≤ u.confirmations

/-- Whatever the mode, only outputs that the chain reports are spent. -/
theorem spent_reported {chain : ChainState} {ring : Keyring κ} {addrType : AddrType}
    {privkeys : List (TPrivKey κ)} {amount : Option Int} {fee confirmations : Int} {mode : Mode}
    {sources : List (Source κ)}
    (h : SendSources chain ring addrType privkeys amount fee confirmations mode sources) :
    ∀ u ∈ spent sources, ∃ address, u ∈ chain.unspent address := by
  suffices hall : ∀ source ∈ sources, ∀ u ∈ source.2, ∃ address, u ∈ chain.unspent address by
    intro u hu
    obtain ⟨source, hsource, hu⟩ := List.mem_flatMap.mp hu
    exact hall source hsource u hu
  cases mode with
  | primary =>
    obtain ⟨key, -, rfl⟩ := h
    intro source hsource u hu
    rw [List.mem_singleton.mp hsource] at hu
    exact ⟨key.address, List.mem_of_mem_filter hu⟩
  | scan =>
    obtain ⟨cashbackAddr, hscan⟩ := h
    rw [forall_complete (complete_of_scanInputs hscan) fun _ u => ∃ address, u ∈ chain.unspent address]
    exact fun n _ t u hu => ⟨_, hu⟩
  | interactive keys =>
    obtain ⟨scanned, cashbackAddr, hscan, -, -, st, flat, hrun, hpress, rfl⟩ := h
    rw [press_newline] at hpress
    cases hpress
    rw [forall_interactive hscan hrun fun _ u => ∃ address, u ∈ chain.unspent address]
    exact fun _ _ _ _ _ n _ t u hu _ => ⟨_, hu⟩

/-- A send command respects the confirmations it is given exactly under the condition of its
mode, and a quorum spend always does. -/
theorem respected_iff (chain : ChainState) (ring : Keyring κ) (addrType : AddrType)
    (privkeys : List (TPrivKey κ)) (amount : Option Int) (fee confirmations : Int) (mode : Mode)
    (sources : List (Source κ))
    (h : SendSources chain ring addrType privkeys amount fee confirmations mode sources) :
    (Respected chain confirmations (spent sources) ↔
        ConfirmedWhen chain ring addrType amount fee confirmations mode) ∧
      ∀ (quorumAddr : String) (msAmount msFee : Int),
        Respected chain confirmations (msSelected chain quorumAddr confirmations msAmount msFee) := by
  constructor
  · rw [← spent_confirmed_iff h]
    constructor
    · intro hrespected u hu
      exact (hrespected u hu).2
    · intro hconfirmed u hu
      exact ⟨spent_reported h u hu, hconfirmed u hu⟩
  · intro quorumAddr msAmount msFee u hu
    have hms := msSelected_confirmed chain quorumAddr confirmations msAmount msFee u hu
    exact ⟨⟨quorumAddr, hms.1⟩, hms.2⟩

/-- The scan of the sample chain takes an output without confirmations. -/
def sampleSources : List (Source Nat) :=
  [(TPrivKey.make sampleRing 0 .native, [sampleUtxo "aa" 1000 6]),
    (TPrivKey.make sampleRing 0 .taproot, [sampleUtxo "bb" 2000 0])]

theorem sample_not_respected :
    ¬∀ (chain : ChainState) (ring : Keyring Nat) (addrType : AddrType)
      (privkeys : List (TPrivKey Nat)) (amount : Option Int) (fee confirmations : Int) (mode : Mode)
      (sources : List (Source Nat)),
      SendSources chain ring addrType privkeys amount fee confirmations mode sources →
        Respected chain confirmations (spent sources) := by
  intro h
  have hscan : SendSources sampleChain sampleRing .native [TPrivKey.make sampleRing 0 .native]
      (some 2500) 200 6 .scan sampleSources := ⟨"bc1p0", 1, rfl⟩
  have hbad := h _ _ _ _ _ _ _ _ _ hscan (sampleUtxo "bb" 2000 0) (by decide)
  exact absurd hbad.2 (by decide)

theorem respected_iff_sample :
    (Respected sampleChain 6 (spent sampleSources) ↔
        ConfirmedWhen sampleChain sampleRing .native (some 2500) 200 6 .scan) ∧
      ∀ (quorumAddr : String) (msAmount msFee : Int),
        Respected sampleChain 6 (msSelected sampleChain quorumAddr 6 msAmount msFee) :=
  respected_iff sampleChain sampleRing .native [TPrivKey.make sampleRing 0 .native] (some 2500) 200 6
    .scan sampleSources ⟨"bc1p0", 1, rfl⟩

end Yubtc.Confirmations
