import Yubtc.Scan

/-!
# The interactive selection

The screen, its fee estimate and its layout are left out: they read the selection and never
change it. A selected output is one whose marker is in the set, which is what the check mark
shows, what the total counts and what is handed on.
-/
namespace Yubtc.Selection

open Wallet Scan

variable {κ : Type}

/-- `(nonce, out_n)`. -/
abbrev Marker := Nat × Nat

def marker (key : TPrivKey κ) (u : Utxo) : Marker := (key.nonce, u.outN)

/-- `target is not None and total >= target`. -/
def targetMet (target : Option Int) (total : Nat) : Bool :=
  match target with
  | none => false
  | some amount => decide (amount ≤ total)

/-- The outputs of one source, until the target is met. -/
def selectUnspent (target : Option Int) (key : TPrivKey κ) :
    List Utxo → Finset Marker × Nat → Finset Marker × Nat
  | [], acc => acc
  | u :: rest, acc =>
    let acc' := (insert (marker key u) acc.1, acc.2 + u.amount)
    if targetMet target acc'.2 then acc' else selectUnspent target key rest acc'

def selectSources (target : Option Int) :
    List (Source κ) → Finset Marker × Nat → Finset Marker × Nat
  | [], acc => acc
  | source :: rest, acc =>
    if targetMet target acc.2 then acc
    else selectSources target rest (selectUnspent target source.1 source.2 acc)

/-- `default_selection`. -/
def defaultSelection (sources : List (Source κ)) (target : Option Int) : Finset Marker :=
  (selectSources target sources (∅, 0)).1

/-- The outputs of a source whose marker is in the set. -/
def marked (selected : Finset Marker) (source : Source κ) : List Utxo :=
  source.2.filter fun u => decide (marker source.1 u ∈ selected)

def computeTotal (sources : List (Source κ)) (selected : Finset Marker) : Nat :=
  (sources.map fun source => amountOf (marked selected source)).sum

inductive Row where
  | addr (nonce : Nat) (addr : String)
  | utxo (nonce : Nat) (addr : String) (outN : Nat) (utxo : Utxo)

def buildRows (sources : List (Source κ)) : List Row :=
  sources.flatMap fun source =>
    .addr source.1.nonce source.1.address ::
      source.2.map fun u => .utxo source.1.nonce source.1.address u.outN u

/-- `materialise`. -/
def materialise (sources : List (Source κ)) (selected : Finset Marker) :
    List (TPrivKey κ × Utxo) :=
  sources.flatMap fun source => (marked selected source).map fun u => (source.1, u)

/-- What tells the key objects of one scan apart. -/
def ident (key : TPrivKey κ) : Nat × AddrType := (key.nonce, key.addrType)

/-- One output appended to the group of its key. -/
def appendTo (groups : List (Source κ)) (item : TPrivKey κ × Utxo) : List (Source κ) :=
  if groups.any fun g => ident g.1 == ident item.1 then
    groups.map fun g => if ident g.1 = ident item.1 then (g.1, g.2 ++ [item.2]) else g
  else groups ++ [(item.1, [item.2])]

/-- `selection_to_sources`. -/
def selectionToSources (flat : List (TPrivKey κ × Utxo)) : List (Source κ) :=
  flat.foldl appendTo []

structure TuiState where
  selected : Finset Marker
  total : Nat
  cursor : Nat

/-- What one key press leads to. -/
inductive Pressed (κ : Type) where
  | goOn (state : TuiState)
  | cancelled
  | confirmed (flat : List (TPrivKey κ × Utxo))
  | indexError

/-- `_step`: the cursor stays put at either end. -/
def stepCursor (rows : List Row) (cursor : Nat) (direction : Int) : Nat :=
  let newCursor := cursor + direction
  if 0 ≤ newCursor ∧ newCursor < rows.length then newCursor.toNat else cursor

/-- Space on an output flips its marker; on an address it selects the markers of its nonce, or
drops them when all are selected. -/
def toggle (sources : List (Source κ)) (selected : Finset Marker) : Row → Finset Marker
  | .utxo nonce _ outN _ =>
    if (nonce, outN) ∈ selected then selected.erase (nonce, outN)
    else insert (nonce, outN) selected
  | .addr nonce _ =>
    let markers := (sources.filter fun source => source.1.nonce = nonce).flatMap fun source =>
      source.2.map (marker source.1)
    if markers ≠ [] ∧ ∀ m ∈ markers, m ∈ selected then selected \ markers.toFinset
    else selected ∪ markers.toFinset

def keySpace : Int := 32
def keyQ : Int := 113
def keyEscape : Int := 27
def keyNewline : Int := 10
def keyEnter : Int := 343
def keyA : Int := 97
def keyN : Int := 110
def keyDown : Int := 258
def keyJ : Int := 106
def keyUp : Int := 259
def keyK : Int := 107

/-- One key press in `_loop`. -/
def press (sources : List (Source κ)) (st : TuiState) (key : Int) : Pressed κ :=
  if key = keyQ ∨ key = keyEscape then .cancelled
  else if key = keyNewline ∨ key = keyEnter then .confirmed (materialise sources st.selected)
  else if key = keySpace then
    match (buildRows sources)[st.cursor]? with
    | none => .indexError
    | some row =>
      let selected := toggle sources st.selected row
      .goOn { st with selected := selected, total := computeTotal sources selected }
  else if key = keyA then
    let selected := st.selected ∪
      (sources.flatMap fun source => source.2.map (marker source.1)).toFinset
    .goOn { st with selected := selected, total := computeTotal sources selected }
  else if key = keyN then .goOn { st with selected := ∅, total := 0 }
  else if key = keyDown ∨ key = keyJ then
    .goOn { st with cursor := stepCursor (buildRows sources) st.cursor 1 }
  else if key = keyUp ∨ key = keyK then
    .goOn { st with cursor := stepCursor (buildRows sources) st.cursor (-1) }
  else .goOn st

/-- The state of the loop before the first key. -/
def startState (sources : List (Source κ)) (target : Option Int) : TuiState :=
  let selected := defaultSelection sources target
  ⟨selected, computeTotal sources selected, 0⟩

/-- The state after some keys, none of which ends the loop. -/
def afterKeys (sources : List (Source κ)) : TuiState → List Int → Option TuiState
  | st, [] => some st
  | st, key :: keys =>
    match press sources st key with
    | .goOn st' => afterKeys sources st' keys
    | _ => none

/-- The sources of a scan: each holds something, no key comes twice, and no outpoint does. -/
structure Scanned (κ : Type) where
  sources : List (Source κ)
  nonempty : ∀ source ∈ sources, source.2 ≠ []
  idents : (sources.map fun source => ident source.1).Nodup
  outpoints : (sources.flatMap fun source => source.2.map fun u => (u.tx, u.outN)).Nodup

theorem mem_held {chain : ChainState} {ring : Keyring κ} {n : Nat} {source : Source κ} :
    source ∈ held chain ring n ↔ ∃ t, source =
        (TPrivKey.make ring n t, chain.unspent (TPrivKey.make ring n t).address) ∧
      source.2 ≠ [] := by
  simp only [held, heldBy, List.mem_map, List.mem_filter, decide_eq_true_eq]
  constructor
  · rintro ⟨_, ⟨⟨t, -, rfl⟩, -, hne⟩, rfl⟩
    exact ⟨t, rfl, hne⟩
  · rintro ⟨t, rfl, hne⟩
    have hpaid : 0 < chain.totalReceived (TPrivKey.make ring n t).address :=
      Nat.pos_of_ne_zero fun hzero => hne (chain.unspent_nil _ hzero)
    refine ⟨_, ⟨⟨t, ?_, rfl⟩, hpaid, hne⟩, rfl⟩
    cases t <;> simp [addrTypes]

theorem mem_heldBelow {chain : ChainState} {ring : Keyring κ} {n : Nat} {source : Source κ} :
    source ∈ heldBelow chain ring n ↔ ∃ j < n, source ∈ held chain ring j := by
  simp [heldBelow]

theorem held_idents (chain : ChainState) (ring : Keyring κ) (n : Nat) :
    ((held chain ring n).map fun source => ident source.1).Nodup := by
  have hall : (((addrTypes).map (TPrivKey.make ring n)).map ident).Nodup := by
    simp [addrTypes, ident, TPrivKey.make]
  rw [held, heldBy, List.map_map]
  exact hall.sublist ((List.filter_sublist).map ident)

/-- The keys a scan returns are all different. -/
theorem heldBelow_idents (chain : ChainState) (ring : Keyring κ) (n : Nat) :
    ((heldBelow chain ring n).map fun source => ident source.1).Nodup := by
  induction n with
  | zero => simp [heldBelow]
  | succ n ih =>
    rw [heldBelow_succ, List.map_append, List.nodup_append]
    refine ⟨ih, held_idents chain ring n, ?_⟩
    intro a ha b hb hab
    obtain ⟨source, hsource, rfl⟩ := List.mem_map.mp ha
    obtain ⟨other, hother, rfl⟩ := List.mem_map.mp hb
    obtain ⟨j, hj, hsource⟩ := mem_heldBelow.mp hsource
    obtain ⟨t, hsource, -⟩ := mem_held.mp hsource
    obtain ⟨t', hother, -⟩ := mem_held.mp hother
    have hnonce := congrArg Prod.fst hab
    rw [hsource, hother] at hnonce
    exact Nat.ne_of_lt hj hnonce

/-- What a scan returns, when no outpoint comes twice. -/
def scanOf (chain : ChainState) (ring : Keyring κ) (n : Nat)
    (outpoints : ((heldBelow chain ring n).flatMap fun source =>
      source.2.map fun u => (u.tx, u.outN)).Nodup) : Scanned κ where
  sources := heldBelow chain ring n
  nonempty := by
    intro source hsource
    obtain ⟨j, -, hsource⟩ := mem_heldBelow.mp hsource
    exact (mem_held.mp hsource).choose_spec.2
  idents := heldBelow_idents chain ring n
  outpoints := outpoints

/-- What each row stands for: a source, or one output of it. -/
def places (sources : List (Source κ)) : List (Source κ × Option Utxo) :=
  sources.flatMap fun source => (source, none) :: source.2.map fun u => (source, some u)

def rowOf (place : Source κ × Option Utxo) : Row :=
  match place.2 with
  | none => .addr place.1.1.nonce place.1.1.address
  | some u => .utxo place.1.1.nonce place.1.1.address u.outN u

theorem buildRows_eq (sources : List (Source κ)) : buildRows sources = (places sources).map rowOf := by
  simp [buildRows, places, List.map_flatMap, rowOf, Function.comp_def]

/-- The selected state of an output. -/
def Selected (st : TuiState) (source : Source κ) (u : Utxo) : Prop :=
  marker source.1 u ∈ st.selected

instance (st : TuiState) (source : Source κ) (u : Utxo) : Decidable (Selected st source u) :=
  inferInstanceAs (Decidable (marker source.1 u ∈ st.selected))

/-- What a user may expect of every sequence of key presses. -/
structure Expected (scan : Scanned κ) (target : Option Int) : Prop where
  utxoRow : ∀ keys st, afterKeys scan.sources (startState scan.sources target) keys = some st →
    ∀ source u, (places scan.sources)[st.cursor]? = some (source, some u) →
      ∃ st', press scan.sources st keySpace = .goOn st' ∧
        (Selected st' source u ↔ ¬Selected st source u) ∧
        ∀ other ∈ scan.sources, ∀ v ∈ other.2, (other, v) ≠ (source, u) →
          (Selected st' other v ↔ Selected st other v)
  addrRow : ∀ keys st, afterKeys scan.sources (startState scan.sources target) keys = some st →
    ∀ source, (places scan.sources)[st.cursor]? = some (source, none) →
      ∃ st', press scan.sources st keySpace = .goOn st' ∧
        ∀ other ∈ scan.sources, other ≠ source → ∀ v ∈ other.2,
          (Selected st' other v ↔ Selected st other v)
  total : ∀ keys st, afterKeys scan.sources (startState scan.sources target) keys = some st →
    st.total = ((scan.sources.flatMap (marked st.selected)).map Utxo.amount).sum
  confirmed : ∀ keys st, afterKeys scan.sources (startState scan.sources target) keys = some st →
    ∃ flat, press scan.sources st keyNewline = .confirmed flat ∧
      selectionToSources flat = (scan.sources.map fun source =>
        (source.1, marked st.selected source)).filter fun source => !source.2.isEmpty

/-- No two sources share their nonce, and no two outputs of a source their number. -/
def Distinct (sources : List (Source κ)) : Prop :=
  (sources.map fun source => source.1.nonce).Nodup ∧
    ∀ source ∈ sources, (source.2.map Utxo.outN).Nodup

theorem computeTotal_eq (sources : List (Source κ)) (selected : Finset Marker) :
    computeTotal sources selected =
      ((sources.flatMap (marked selected)).map Utxo.amount).sum := by
  induction sources with
  | nil => rfl
  | cons source sources ih =>
    simp only [computeTotal, List.map_cons, List.sum_cons, List.flatMap_cons, List.map_append,
      List.sum_append, amountOf] at ih ⊢
    rw [ih]

/-- The total shown counts the selection. -/
def Counted (sources : List (Source κ)) (st : TuiState) : Prop :=
  st.total = computeTotal sources st.selected

theorem computeTotal_empty (sources : List (Source κ)) : computeTotal sources ∅ = 0 := by
  simp [computeTotal, marked, amountOf]

theorem press_counted {sources : List (Source κ)} {st st' : TuiState} {key : Int}
    (h : Counted sources st) (hpress : press sources st key = .goOn st') : Counted sources st' := by
  unfold press at hpress
  split at hpress
  · cases hpress
  · split at hpress
    · cases hpress
    · split at hpress
      · split at hpress
        · cases hpress
        · cases hpress
          rfl
      · split at hpress
        · cases hpress
          rfl
        · split at hpress
          · cases hpress
            exact (computeTotal_empty sources).symm
          · split at hpress
            · cases hpress
              exact h
            · split at hpress
              · cases hpress
                exact h
              · cases hpress
                exact h

theorem afterKeys_counted {sources : List (Source κ)} (keys : List Int) (st : TuiState)
    {st' : TuiState} (h : Counted sources st) (hrun : afterKeys sources st keys = some st') :
    Counted sources st' := by
  induction keys generalizing st with
  | nil =>
    cases hrun
    exact h
  | cons key keys ih =>
    simp only [afterKeys] at hrun
    cases hpress : press sources st key with
    | goOn next =>
      rw [hpress] at hrun
      exact ih next (press_counted h hpress) hrun
    | cancelled => simp [hpress] at hrun
    | confirmed flat => simp [hpress] at hrun
    | indexError => simp [hpress] at hrun

theorem appendTo_last {groups : List (Source κ)} {key : TPrivKey κ}
    (hnew : ∀ g ∈ groups, ident g.1 ≠ ident key) (held : List Utxo) (u : Utxo) :
    appendTo (groups ++ [(key, held)]) (key, u) = groups ++ [(key, held ++ [u])] := by
  have hsame : groups.map (fun g => if ident g.1 = ident key then (g.1, g.2 ++ [u]) else g) =
      groups := by
    rw [List.map_congr_left fun g hg => if_neg (hnew g hg), List.map_id']
  rw [appendTo, if_pos (by simp), List.map_append, hsame]
  simp

theorem foldl_appendTo_last {groups : List (Source κ)} {key : TPrivKey κ}
    (hnew : ∀ g ∈ groups, ident g.1 ≠ ident key) (held us : List Utxo) :
    (us.map fun u => (key, u)).foldl appendTo (groups ++ [(key, held)]) =
      groups ++ [(key, held ++ us)] := by
  induction us generalizing held with
  | nil => simp
  | cons u us ih =>
    rw [List.map_cons, List.foldl_cons, appendTo_last hnew, ih]
    simp

/-- The outputs of one key, none of whose came before, make one group. -/
theorem foldl_appendTo_block {groups : List (Source κ)} {key : TPrivKey κ}
    (hnew : ∀ g ∈ groups, ident g.1 ≠ ident key) (us : List Utxo) :
    (us.map fun u => (key, u)).foldl appendTo groups =
      groups ++ [(key, us)].filter fun source => !source.2.isEmpty := by
  cases us with
  | nil => simp
  | cons u us =>
    have hfirst : appendTo groups (key, u) = groups ++ [(key, [u])] := by
      refine if_neg ?_
      simpa using hnew
    rw [List.map_cons, List.foldl_cons, hfirst, foldl_appendTo_last hnew]
    simp

/-- Grouping what was materialised gives back the sources, each with its selected outputs. -/
theorem selectionToSources_materialise {sources : List (Source κ)}
    (h : (sources.map fun source => ident source.1).Nodup) (selected : Finset Marker) :
    selectionToSources (materialise sources selected) =
      (sources.map fun source => (source.1, marked selected source)).filter
        fun source => !source.2.isEmpty := by
  have hfold : ∀ groups : List (Source κ),
      (∀ g ∈ groups, ∀ source ∈ sources, ident g.1 ≠ ident source.1) →
      (materialise sources selected).foldl appendTo groups = groups ++
        (sources.map fun source => (source.1, marked selected source)).filter
          fun source => !source.2.isEmpty := by
    induction sources with
    | nil => intro groups _; simp [materialise]
    | cons source sources ih =>
      intro groups hgroups
      rw [List.map_cons, List.nodup_cons] at h
      have hblock := foldl_appendTo_block (fun g hg => hgroups g hg source List.mem_cons_self)
        (marked selected source)
      rw [materialise, List.flatMap_cons, List.foldl_append, hblock]
      rw [← materialise, ih h.2]
      · rw [List.append_assoc, ← List.filter_append]
        rfl
      · -- The group of `source` is the only new one.
        intro g hg other hother
        rcases List.mem_append.mp hg with hg | hg
        · exact hgroups g hg other (List.mem_cons_of_mem _ hother)
        · have hg' := List.mem_singleton.mp (List.mem_of_mem_filter hg)
          subst hg'
          intro hsame
          exact h.1 (List.mem_map.mpr ⟨other, hother, hsame.symm⟩)
  simpa [selectionToSources] using hfold [] (by simp)

theorem mem_places {sources : List (Source κ)} {source : Source κ} {o : Option Utxo} :
    (source, o) ∈ places sources ↔ source ∈ sources ∧ ∀ u, o = some u → u ∈ source.2 := by
  cases o <;> simp [places]

theorem press_space {sources : List (Source κ)} {st : TuiState} {place : Source κ × Option Utxo}
    (h : (places sources)[st.cursor]? = some place) :
    press sources st keySpace = .goOn { st with
      selected := toggle sources st.selected (rowOf place)
      total := computeTotal sources (toggle sources st.selected (rowOf place)) } := by
  have hrow : (buildRows sources)[st.cursor]? = some (rowOf place) := by
    rw [buildRows_eq, List.getElem?_map, h, Option.map_some]
  simp [press, keySpace, keyQ, keyEscape, keyNewline, keyEnter, hrow]

theorem press_newline (sources : List (Source κ)) (st : TuiState) :
    press sources st keyNewline = .confirmed (materialise sources st.selected) := by
  simp [press, keyNewline, keyQ, keyEscape]

theorem press_j (sources : List (Source κ)) (st : TuiState) :
    press sources st keyJ =
      .goOn { st with cursor := stepCursor (buildRows sources) st.cursor 1 } := by
  simp [press, keyJ, keyQ, keyEscape, keyNewline, keyEnter, keySpace, keyA, keyN, keyDown]

theorem press_n (sources : List (Source κ)) (st : TuiState) :
    press sources st keyN = .goOn { st with selected := ∅, total := 0 } := by
  simp [press, keyN, keyQ, keyEscape, keyNewline, keyEnter, keySpace, keyA]

/-- Space on an output flips its marker and no other. -/
theorem mem_toggle_utxo (sources : List (Source κ)) (selected : Finset Marker) (source : Source κ)
    (u : Utxo) (m : Marker) :
    m ∈ toggle sources selected (rowOf (source, some u)) ↔
      if m = marker source.1 u then m ∉ selected else m ∈ selected := by
  simp only [rowOf, toggle, marker]
  by_cases hm : m = (source.1.nonce, u.outN)
  · subst hm
    by_cases hin : (source.1.nonce, u.outN) ∈ selected <;> simp [hin]
  · by_cases hin : (source.1.nonce, u.outN) ∈ selected <;> simp [hin, hm]

/-- Space on an address leaves the markers of other nonces alone. -/
theorem mem_toggle_addr {sources : List (Source κ)} {selected : Finset Marker} {source : Source κ}
    {m : Marker} (h : m.1 ≠ source.1.nonce) :
    m ∈ toggle sources selected (rowOf (source, none)) ↔ m ∈ selected := by
  have hout : m ∉ ((sources.filter fun other => other.1.nonce = source.1.nonce).flatMap
      fun other => other.2.map (marker other.1)).toFinset := by
    simp only [List.mem_toFinset, List.mem_flatMap, List.mem_filter, List.mem_map,
      decide_eq_true_eq]
    rintro ⟨other, ⟨-, hnonce⟩, v, -, rfl⟩
    exact h hnonce
  simp only [rowOf, toggle]
  split
  · simp only [Finset.mem_sdiff, hout, not_false_eq_true, and_true]
  · simp only [Finset.mem_union, hout, or_false]

/-- From an empty selection an address row selects every output of its nonce. -/
theorem mem_toggle_addr_empty {sources : List (Source κ)} {source other : Source κ} {v : Utxo}
    (hother : other ∈ sources) (hnonce : other.1.nonce = source.1.nonce) (hv : v ∈ other.2) :
    marker other.1 v ∈ toggle sources ∅ (rowOf (source, none)) := by
  have hin : marker other.1 v ∈ (sources.filter fun s => s.1.nonce = source.1.nonce).flatMap
      fun s => s.2.map (marker s.1) := by
    simp only [List.mem_flatMap, List.mem_filter, List.mem_map, decide_eq_true_eq]
    exact ⟨other, ⟨hother, hnonce⟩, v, hv, rfl⟩
  simp only [rowOf, toggle]
  rw [if_neg]
  · simpa using hin
  · rintro ⟨-, hall⟩
    exact absurd (hall _ hin) (Finset.notMem_empty _)

theorem afterKeys_down (sources : List (Source κ)) (k i : Nat)
    (h : i + k < (places sources).length) :
    afterKeys sources ⟨∅, 0, i⟩ (List.replicate k keyJ) = some ⟨∅, 0, i + k⟩ := by
  induction k generalizing i with
  | zero => rfl
  | succ k ih =>
    have hstep : stepCursor (buildRows sources) i 1 = i + 1 := by
      have hlen : (buildRows sources).length = (places sources).length := by
        rw [buildRows_eq, List.length_map]
      rw [stepCursor, if_pos ⟨by omega, by omega⟩]
      omega
    rw [List.replicate_succ, afterKeys, press_j, hstep]
    dsimp only
    rw [ih (i + 1) (by omega)]
    congr 2
    omega

/-- Every row can be reached with nothing selected. -/
theorem exists_afterKeys (sources : List (Source κ)) (target : Option Int)
    {place : Source κ × Option Utxo} (h : place ∈ places sources) :
    ∃ keys c, afterKeys sources (startState sources target) keys = some ⟨∅, 0, c⟩ ∧
      (places sources)[c]? = some place := by
  obtain ⟨c, hc⟩ := List.mem_iff_getElem?.mp h
  have hlt : 0 + c < (places sources).length := by
    simpa using (List.getElem?_eq_some_iff.mp hc).1
  refine ⟨keyN :: List.replicate c keyJ, c, ?_, hc⟩
  rw [afterKeys, press_n]
  dsimp only [startState]
  simpa using afterKeys_down sources c 0 hlt

theorem Scanned.nodup (scan : Scanned κ) : scan.sources.Nodup := scan.idents.of_map _

theorem Scanned.unspent_nodup (scan : Scanned κ) {source : Source κ} (h : source ∈ scan.sources) :
    source.2.Nodup := by
  have hpart := List.Sublist.nodup (List.sublist_flatten_of_mem
    (List.mem_map.mpr ⟨source, h, rfl⟩)) scan.outpoints
  exact hpart.of_map _

/-- Markers name one output each. -/
theorem Distinct.marker_inj {sources : List (Source κ)} (h : Distinct sources)
    {source other : Source κ} (hsource : source ∈ sources) (hother : other ∈ sources) {u v : Utxo}
    (hu : u ∈ source.2) (hv : v ∈ other.2) (hmarker : marker other.1 v = marker source.1 u) :
    (other, v) = (source, u) := by
  simp only [marker, Prod.mk.injEq] at hmarker
  have hsame : other = source := List.inj_on_of_nodup_map h.1 hother hsource hmarker.1
  subst hsame
  rw [List.inj_on_of_nodup_map (h.2 other hother) hv hu hmarker.2]

/-- With names that tell the outputs apart, the selection is what was ticked. -/
theorem Distinct.expected {scan : Scanned κ} (h : Distinct scan.sources) (target : Option Int) :
    Expected scan target where
  utxoRow := by
    intro keys st _ source u hplace
    obtain ⟨hsource, hu⟩ := mem_places.mp (List.mem_of_getElem? hplace)
    refine ⟨_, press_space hplace, ?_, ?_⟩
    · simp only [Selected, mem_toggle_utxo, if_true]
    · intro other hother v hv hne
      have hmarker : marker other.1 v ≠ marker source.1 u := fun heq =>
        hne (h.marker_inj hsource hother (hu u rfl) hv heq)
      simp only [Selected, mem_toggle_utxo, if_neg hmarker]
  addrRow := by
    intro keys st _ source hplace
    obtain ⟨hsource, -⟩ := mem_places.mp (List.mem_of_getElem? hplace)
    refine ⟨_, press_space hplace, ?_⟩
    intro other hother hne v _
    exact mem_toggle_addr fun hnonce =>
      hne (List.inj_on_of_nodup_map h.1 hother hsource hnonce)
  total := by
    intro keys st hrun
    rw [← computeTotal_eq]
    exact afterKeys_counted keys (startState scan.sources target) rfl hrun
  confirmed := by
    intro keys st _
    exact ⟨_, press_newline _ _, selectionToSources_materialise scan.idents _⟩

/-- If the selection is always what was ticked, no two sources share their nonce. -/
theorem Expected.nonces {scan : Scanned κ} {target : Option Int} (h : Expected scan target) :
    (scan.sources.map fun source => source.1.nonce).Nodup := by
  refine scan.nodup.map_on ?_
  intro source hsource other hother hnonce
  by_contra hne
  have hplace : ((source, none) : Source κ × Option Utxo) ∈ places scan.sources :=
    mem_places.mpr ⟨hsource, nofun⟩
  obtain ⟨keys, c, hrun, hc⟩ := exists_afterKeys scan.sources target hplace
  obtain ⟨st', hpress, hkeep⟩ := h.addrRow keys _ hrun source hc
  obtain ⟨v, hv⟩ := List.exists_mem_of_ne_nil _ (scan.nonempty other hother)
  rw [press_space hc] at hpress
  cases hpress
  -- The output `v` of the other source is selected along with the row's own.
  have hselected := mem_toggle_addr_empty hother hnonce.symm hv
  exact Finset.notMem_empty _ ((hkeep other hother (Ne.symm hne) v hv).mp hselected)

/-- Nor do two outputs of a source share their number. -/
theorem Expected.numbers {scan : Scanned κ} {target : Option Int} (h : Expected scan target) :
    ∀ source ∈ scan.sources, (source.2.map Utxo.outN).Nodup := by
  intro source hsource
  refine (scan.unspent_nodup hsource).map_on ?_
  intro u hu v hv hnumber
  by_contra hne
  have hplace : ((source, some u) : Source κ × Option Utxo) ∈ places scan.sources := by
    refine mem_places.mpr ⟨hsource, ?_⟩
    rintro _ ⟨⟩
    exact hu
  obtain ⟨keys, c, hrun, hc⟩ := exists_afterKeys scan.sources target hplace
  obtain ⟨st', hpress, -, hkeep⟩ := h.utxoRow keys _ hrun source u hc
  rw [press_space hc] at hpress
  cases hpress
  have hmarker : marker source.1 v = marker source.1 u := by rw [marker, marker, hnumber]
  have hselected : marker source.1 v ∈ toggle scan.sources ∅ (rowOf (source, some u)) := by
    rw [mem_toggle_utxo, if_pos hmarker]
    exact Finset.notMem_empty _
  exact Finset.notMem_empty _ ((hkeep source hsource v hv (by
    rintro ⟨⟩
    exact hne rfl)).mp hselected)

/-- Over every sequence of key presses the selection is exactly what was ticked, if and only if
no two sources share their nonce and no two outputs of one source their number. -/
theorem expected_iff (scan : Scanned κ) (target : Option Int) :
    Expected scan target ↔ Distinct scan.sources :=
  ⟨fun h => ⟨h.nonces, h.numbers⟩, fun h => h.expected target⟩

/-- Two forms of nonce 0, each paid by the first output of its own transaction. -/
def sampleScan : Scanned Nat where
  sources := [(TPrivKey.make sampleRing 0 .native, [sampleUtxo "aa" 1000 6]),
    (TPrivKey.make sampleRing 0 .taproot, [sampleUtxo "bb" 2000 0])]
  nonempty := by decide
  idents := by decide
  outpoints := by decide

/-- Space on the output of one form selects that of the other as well. -/
theorem sampleScan_not_expected :
    ¬∀ (scan : Scanned Nat) (target : Option Int), Expected scan target := by
  intro h
  obtain ⟨st', hpress, -, hkeep⟩ := (h sampleScan none).utxoRow [keyN, keyJ] ⟨∅, 0, 1⟩ rfl
    (TPrivKey.make sampleRing 0 .native, [sampleUtxo "aa" 1000 6]) (sampleUtxo "aa" 1000 6) rfl
  have hother := hkeep (TPrivKey.make sampleRing 0 .taproot, [sampleUtxo "bb" 2000 0])
    (by simp [sampleScan]) (sampleUtxo "bb" 2000 0) (by simp) (by simp [sampleUtxo])
  cases hpress
  exact absurd (hother.mp (by decide)) (by decide)

end Yubtc.Selection
