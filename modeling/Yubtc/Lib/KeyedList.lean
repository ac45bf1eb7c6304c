import Mathlib

/-!
Lists of keyed items as finite maps. Sorting by key makes the order of insertion
invisible, and merging item by item is the union of the two maps wherever the maps
agree. A union of maps is a map exactly when they agree, which is all the algebra
that a partial join needs.
-/
namespace KeyedList

variable {α κ ν ε : Type}

/-- No key has two values. -/
def Functional (R : Set (κ × ν)) : Prop := ∀ k v w, (k, v) ∈ R → (k, w) ∈ R → v = w

/-- No key has different values in the two relations. -/
def Agree (A B : Set (κ × ν)) : Prop := ∀ k v w, (k, v) ∈ A → (k, w) ∈ B → v = w

theorem functional_union {A B : Set (κ × ν)} :
    Functional (A ∪ B) ↔ Functional A ∧ Functional B ∧ Agree A B := by
  constructor
  · intro h
    exact ⟨fun k v w hv hw => h k v w (.inl hv) (.inl hw),
      fun k v w hv hw => h k v w (.inr hv) (.inr hw),
      fun k v w hv hw => h k v w (.inl hv) (.inr hw)⟩
  · rintro ⟨ha, hb, hab⟩ k v w (hv | hv) (hw | hw)
    · exact ha k v w hv hw
    · exact hab k v w hv hw
    · exact (hab k w v hw hv).symm
    · exact hb k v w hv hw

theorem Agree.symm {A B : Set (κ × ν)} (h : Agree A B) : Agree B A :=
  fun k v w hv hw => (h k w v hw hv).symm

/-- Joining three maps asks the same of them in either order of joining. -/
theorem agree_assoc {A B C : Set (κ × ν)} (ha : Functional A) (hb : Functional B)
    (hc : Functional C) :
    Agree A B ∧ Agree (A ∪ B) C ↔ Agree B C ∧ Agree A (B ∪ C) := by
  have left : Functional (A ∪ B ∪ C) ↔ Agree A B ∧ Agree (A ∪ B) C := by
    rw [functional_union, functional_union]
    tauto
  have right : Functional (A ∪ (B ∪ C)) ↔ Agree B C ∧ Agree A (B ∪ C) := by
    rw [functional_union, functional_union]
    tauto
  rw [← left, ← right, Set.union_assoc]

/-- The relation a keyed list stands for. -/
def toRel (l : List (κ × ν)) : Set (κ × ν) := {x | x ∈ l}

@[simp] theorem mem_toRel {l : List (κ × ν)} {x : κ × ν} : x ∈ toRel l ↔ x ∈ l := Iff.rfl

theorem functional_of_nodup {l : List (κ × ν)} (h : (l.map Prod.fst).Nodup) :
    Functional (toRel l) := by
  intro k v w hv hw
  have hinj := List.inj_on_of_nodup_map h hv hw rfl
  exact (Prod.mk.inj hinj).2

/-- In a sorted list, two equal items would be neighbours. -/
theorem adjacent_ne_iff_nodup {le : α → α → Prop} (antisymm : ∀ a b, le a b → le b a → a = b)
    {l : List α} (h : l.Pairwise le) :
    (¬ ∃ p ∈ l.zip l.tail, p.1 = p.2) ↔ l.Nodup := by
  induction l with
  | nil => simp
  | cons a l ih =>
    cases l with
    | nil => simp
    | cons b l =>
      obtain ⟨ha, htail⟩ := List.pairwise_cons.mp h
      have ih := ih htail
      simp only [List.tail_cons, List.zip_cons_cons, List.mem_cons, exists_eq_or_imp, not_or]
        at ih ⊢
      rw [ih, show (a :: b :: l).Nodup ↔ _ from List.nodup_cons]
      refine ⟨fun ⟨hab, hnd⟩ => ⟨fun hmem => ?_, hnd⟩, fun ⟨hmem, hnd⟩ => ⟨?_, hnd⟩⟩
      · rcases List.mem_cons.mp hmem with rfl | hmem
        · exact hab rfl
        · have hba := (List.pairwise_cons.mp htail).1 a hmem
          exact hab (antisymm a b (ha b List.mem_cons_self) hba)
      · rintro rfl
        exact hmem List.mem_cons_self

/-- Sorting by a key forgets the order, when no key is repeated. -/
theorem insertionSort_eq_of_perm {le : κ → κ → Prop} [DecidableRel le] [Std.Total le]
    [IsTrans κ le] (antisymm : ∀ a b, le a b → le b a → a = b) (key : α → κ) {l l' : List α}
    (hp : l.Perm l') (hn : (l.map key).Nodup) :
    l.insertionSort (fun x y => le (key x) (key y)) =
      l'.insertionSort (fun x y => le (key x) (key y)) := by
  have : Std.Total (fun x y : α => le (key x) (key y)) :=
    ⟨fun x y => Std.Total.total (r := le) (key x) (key y)⟩
  have : IsTrans α (fun x y : α => le (key x) (key y)) :=
    ⟨fun x y z => IsTrans.trans (r := le) (key x) (key y) (key z)⟩
  have hl := List.perm_insertionSort (fun x y => le (key x) (key y)) l
  have hl' := List.perm_insertionSort (fun x y => le (key x) (key y)) l'
  refine List.Perm.eq_of_pairwise ?_ (List.pairwise_insertionSort _ l)
    (List.pairwise_insertionSort _ l') (hl.trans (hp.trans hl'.symm))
  intro x y hx hy hxy hyx
  exact List.inj_on_of_nodup_map hn (hl.mem_iff.mp hx) (hp.mem_iff.mpr (hl'.mem_iff.mp hy))
    (antisymm _ _ hxy hyx)

/-- A sorted list is what sorting makes of any of its orders. -/
theorem eq_insertionSort_of_perm {le : κ → κ → Prop} [DecidableRel le] [Std.Total le]
    [IsTrans κ le] (antisymm : ∀ a b, le a b → le b a → a = b) (key : α → κ) {l l' : List α}
    (hs : l.Pairwise fun x y => le (key x) (key y)) (hp : l.Perm l') (hn : (l.map key).Nodup) :
    l = l'.insertionSort fun x y => le (key x) (key y) := by
  rw [← insertionSort_eq_of_perm antisymm key hp hn, hs.insertionSort_eq]

/-- An item put before the first item that is not smaller leaves a strictly sorted list so. -/
theorem pairwise_insert {lt : α → α → Prop} (trans : ∀ a b c, lt a b → lt b c → lt a c)
    {below : α → Bool} {x : α} {l : List α} (hs : l.Pairwise lt)
    (hlow : ∀ y ∈ l, below y = true → lt y x) (hhigh : ∀ y ∈ l, ¬ below y = true → lt x y) :
    (l.takeWhile below ++ x :: l.dropWhile below).Pairwise lt := by
  induction l with
  | nil => simp
  | cons y l ih =>
    obtain ⟨hy, hs⟩ := List.pairwise_cons.mp hs
    have hlow' : ∀ z ∈ l, below z = true → lt z x := fun z hz => hlow z (List.mem_cons_of_mem _ hz)
    have hhigh' : ∀ z ∈ l, ¬ below z = true → lt x z := fun z hz =>
      hhigh z (List.mem_cons_of_mem _ hz)
    by_cases hb : below y = true
    · rw [List.takeWhile_cons_of_pos hb, List.dropWhile_cons_of_pos hb, List.cons_append,
        List.pairwise_cons]
      refine ⟨?_, ih hs hlow' hhigh'⟩
      intro z hz
      rcases List.mem_append.mp hz with hz | hz
      · exact hy z (List.takeWhile_subset _ hz)
      · rcases List.mem_cons.mp hz with rfl | hz
        · exact hlow y List.mem_cons_self hb
        · exact hy z (List.dropWhile_subset _ hz)
    · rw [List.takeWhile_cons_of_neg hb, List.dropWhile_cons_of_neg hb, List.nil_append,
        List.pairwise_cons]
      have hxy := hhigh y List.mem_cons_self hb
      refine ⟨?_, List.pairwise_cons.mpr ⟨hy, hs⟩⟩
      intro z hz
      rcases List.mem_cons.mp hz with rfl | hz
      · exact hxy
      · exact trans x y z hxy (hy z hz)

section Insertion

variable (le : α → α → Bool)

/-- Put an item behind the leading items that are not larger. -/
def insertBy (x : α) (l : List α) : List α :=
  l.takeWhile (fun y => le y x) ++ x :: l.dropWhile (fun y => le y x)

variable {le} {x y z : α} {l : List α}

theorem insertBy_cons_of_le (h : le z x = true) :
    insertBy le x (z :: l) = z :: insertBy le x l := by
  simp [insertBy, h]

theorem insertBy_cons_of_not_le (h : ¬ le z x = true) : insertBy le x (z :: l) = x :: z :: l := by
  simp [insertBy, h]

/-- Two insertions commute when their items are not equally large, sorted or not. -/
theorem insertBy_comm (trans : ∀ a b c, le a b = true → le b c = true → le a c = true)
    (hxy : le x y = true) (hyx : ¬ le y x = true) (l : List α) :
    insertBy le y (insertBy le x l) = insertBy le x (insertBy le y l) := by
  induction l with
  | nil => exact (insertBy_cons_of_le hxy).trans (insertBy_cons_of_not_le hyx).symm
  | cons z l ih =>
    by_cases hzx : le z x = true
    · have hzy := trans z x y hzx hxy
      rw [insertBy_cons_of_le hzx, insertBy_cons_of_le hzy, insertBy_cons_of_le hzy,
        insertBy_cons_of_le hzx, ih]
    · rw [insertBy_cons_of_not_le hzx, insertBy_cons_of_le hxy]
      by_cases hzy : le z y = true
      · rw [insertBy_cons_of_le hzy, insertBy_cons_of_not_le hzx]
      · rw [insertBy_cons_of_not_le hzy, insertBy_cons_of_not_le hyx]

end Insertion

section Consistent

variable (keyOf : α → κ)

/-- Items of the two lists with one key are the same item. -/
def Consistent (a b : List α) : Prop := ∀ x ∈ a, ∀ y ∈ b, keyOf x = keyOf y → x = y

variable {keyOf}

theorem consistent_cons_present {a b : List α} {existing item : α} (ha : (a.map keyOf).Nodup)
    (hmem : existing ∈ a) (hkey : keyOf existing = keyOf item) :
    Consistent keyOf a (item :: b) ↔ existing = item ∧ Consistent keyOf a b := by
  constructor
  · intro h
    exact ⟨h existing hmem item List.mem_cons_self hkey,
      fun x hx y hy => h x hx y (List.mem_cons_of_mem _ hy)⟩
  · rintro ⟨rfl, h⟩ x hx y hy hxy
    rcases List.mem_cons.mp hy with rfl | hy
    · exact List.inj_on_of_nodup_map ha hx hmem hxy
    · exact h x hx y hy hxy

theorem consistent_cons_absent {a b : List α} {item : α} (h : ∀ x ∈ a, keyOf x ≠ keyOf item)
    (hb : ∀ y ∈ b, keyOf item ≠ keyOf y) :
    Consistent keyOf a (item :: b) ↔ Consistent keyOf (a ++ [item]) b := by
  constructor
  · intro hc x hx y hy hxy
    rcases List.mem_append.mp hx with hx | hx
    · exact hc x hx y (List.mem_cons_of_mem _ hy) hxy
    · rw [List.mem_singleton.mp hx] at hxy
      exact absurd hxy (hb y hy)
  · intro hc x hx y hy hxy
    rcases List.mem_cons.mp hy with rfl | hy
    · exact absurd hxy (h x hx)
    · exact hc x (List.mem_append_left _ hx) y hy hxy

theorem nodup_append_singleton {a : List α} {item : α} (ha : (a.map keyOf).Nodup)
    (h : ∀ x ∈ a, keyOf x ≠ keyOf item) : ((a ++ [item]).map keyOf).Nodup := by
  rw [List.map_append, List.nodup_append]
  refine ⟨ha, by simp, ?_⟩
  intro k hk k' hk'
  obtain ⟨x, hx, rfl⟩ := List.mem_map.mp hk
  obtain rfl := by simpa using hk'
  exact h x hx

end Consistent

section Merge

variable [DecidableEq κ] (keyOf : α → κ) (differ : α → α → Bool) (conflict : ε)

/-- Add an item: an item with its key must not differ, a new key goes to the end. -/
def mergeOne (out : List α) (item : α) : Except ε (List α) :=
  match out.find? (fun x => keyOf x = keyOf item) with
  | some existing => if differ existing item then .error conflict else .ok out
  | none => .ok (out ++ [item])

/-- Add the items of `b` to `a`, one after another. -/
def mergeBy (a b : List α) : Except ε (List α) := b.foldlM (mergeOne keyOf differ conflict) a

/-- What a merge adds to its first list. -/
def newItems (a b : List α) : List α := b.filter fun y => ∀ x ∈ a, keyOf x ≠ keyOf y

variable {keyOf differ conflict}

theorem mergeBy_cons_present {a b : List α} {existing item : α} (ha : (a.map keyOf).Nodup)
    (hmem : existing ∈ a) (hkey : keyOf existing = keyOf item) :
    mergeBy keyOf differ conflict a (item :: b) =
      if differ existing item then .error conflict else mergeBy keyOf differ conflict a b := by
  have hf : a.find? (fun x => keyOf x = keyOf item) = some existing := by
    cases hf : a.find? (fun x => keyOf x = keyOf item) with
    | none => exact absurd hkey (by simpa using List.find?_eq_none.mp hf existing hmem)
    | some x =>
      have hx : keyOf x = keyOf item := by simpa using List.find?_some hf
      rw [List.inj_on_of_nodup_map ha (List.mem_of_find?_eq_some hf) hmem (hx.trans hkey.symm)]
  simp only [mergeBy, List.foldlM_cons, mergeOne, hf]
  split <;> rfl

theorem mergeBy_cons_absent {a b : List α} {item : α} (h : ∀ x ∈ a, keyOf x ≠ keyOf item) :
    mergeBy keyOf differ conflict a (item :: b) =
      mergeBy keyOf differ conflict (a ++ [item]) b := by
  have hf : a.find? (fun x => keyOf x = keyOf item) = none := by simpa using h
  simp only [mergeBy, List.foldlM_cons, mergeOne, hf]
  rfl

/-- One item more, or none. -/
theorem mem_of_mergeOne {a out : List α} {item x : α}
    (h : mergeOne keyOf differ conflict a item = .ok out) (hx : x ∈ out) : x ∈ a ∨ x = item := by
  unfold mergeOne at h
  split at h
  · split at h
    · cases h
    · cases h
      exact .inl hx
  · cases h
    simpa using hx

/-- A merge invents no item. -/
theorem mem_of_mergeBy {a b r : List α} (h : mergeBy keyOf differ conflict a b = .ok r) {x : α}
    (hx : x ∈ r) : x ∈ a ∨ x ∈ b := by
  induction b generalizing a with
  | nil =>
    cases h
    exact .inl hx
  | cons item b ih =>
    rw [mergeBy, List.foldlM_cons] at h
    cases hone : mergeOne keyOf differ conflict a item with
    | error e =>
      rw [hone] at h
      cases h
    | ok out =>
      rw [hone] at h
      cases ih h with
      | inl hout =>
        cases mem_of_mergeOne hone hout with
        | inl ha => exact .inl ha
        | inr he => exact .inr (he ▸ List.mem_cons_self)
      | inr hb => exact .inr (List.mem_cons_of_mem _ hb)

/-- Consistent lists merge; the result keeps the first and appends what is new in the
second. -/
theorem mergeBy_ok {a b : List α} (ha : (a.map keyOf).Nodup) (hb : (b.map keyOf).Nodup)
    (hd : ∀ x, differ x x = false) (hc : Consistent keyOf a b) :
    mergeBy keyOf differ conflict a b = .ok (a ++ newItems keyOf a b) := by
  induction b generalizing a with
  | nil => simp [mergeBy, newItems, pure, Except.pure]
  | cons item b ih =>
    obtain ⟨hitem, hb'⟩ := List.nodup_cons.mp hb
    by_cases h : ∃ x ∈ a, keyOf x = keyOf item
    · obtain ⟨x, hx, hkey⟩ := h
      obtain ⟨rfl, hc'⟩ := (consistent_cons_present ha hx hkey).mp hc
      have hdrop : ¬ ∀ y ∈ a, keyOf y ≠ keyOf x := fun hall => hall x hx rfl
      rw [mergeBy_cons_present ha hx hkey, if_neg (by simp [hd]), ih ha hb' hc', newItems, newItems,
        List.filter_cons_of_neg (by simpa using hdrop)]
    · have habs : ∀ x ∈ a, keyOf x ≠ keyOf item := fun x hx he => h ⟨x, hx, he⟩
      have hnew : ∀ y ∈ b, keyOf item ≠ keyOf y := fun y hy he =>
        hitem (List.mem_map.mpr ⟨y, hy, he.symm⟩)
      have hc := (consistent_cons_absent habs hnew).mp hc
      rw [mergeBy_cons_absent habs, ih (nodup_append_singleton ha habs) hb' hc, newItems, newItems,
        List.filter_cons_of_pos (by simpa using habs), List.append_assoc, List.singleton_append]
      congr 3
      refine List.filter_congr fun y hy => decide_eq_decide.mpr ?_
      exact ⟨fun hall x hx => hall x (List.mem_append_left _ hx), fun hall x hx => by
        rcases List.mem_append.mp hx with hx | hx
        · exact hall x hx
        · exact List.mem_singleton.mp hx ▸ hnew y hy⟩

/-- Lists that are not consistent are refused. -/
theorem mergeBy_conflict {a b : List α} (ha : (a.map keyOf).Nodup) (hb : (b.map keyOf).Nodup)
    (hd : ∀ x ∈ a, ∀ y ∈ b, keyOf x = keyOf y → differ x y = false → x = y)
    (hc : ¬ Consistent keyOf a b) : mergeBy keyOf differ conflict a b = .error conflict := by
  induction b generalizing a with
  | nil => exact absurd (fun x _ y hy => absurd hy List.not_mem_nil) hc
  | cons item b ih =>
    obtain ⟨hitem, hb'⟩ := List.nodup_cons.mp hb
    by_cases h : ∃ x ∈ a, keyOf x = keyOf item
    · obtain ⟨x, hx, hkey⟩ := h
      rw [mergeBy_cons_present ha hx hkey]
      by_cases hdf : differ x item = true
      · rw [if_pos hdf]
      · rw [if_neg hdf]
        have heq := hd x hx item List.mem_cons_self hkey (by simpa using hdf)
        refine ih ha hb' (fun x hx y hy => hd x hx y (List.mem_cons_of_mem _ hy)) fun hc' => hc ?_
        exact (consistent_cons_present ha hx hkey).mpr ⟨heq, hc'⟩
    · have habs : ∀ x ∈ a, keyOf x ≠ keyOf item := fun x hx he => h ⟨x, hx, he⟩
      have hnew : ∀ y ∈ b, keyOf item ≠ keyOf y := fun y hy he =>
        hitem (List.mem_map.mpr ⟨y, hy, he.symm⟩)
      rw [mergeBy_cons_absent habs]
      refine ih (nodup_append_singleton ha habs) hb' (fun x hx y hy hxy => ?_) fun hc' =>
        hc ((consistent_cons_absent habs hnew).mpr hc')
      rcases List.mem_append.mp hx with hx | hx
      · exact hd x hx y (List.mem_cons_of_mem _ hy) hxy
      · exact absurd (List.mem_singleton.mp hx ▸ hxy) (hnew y hy)

theorem mem_merged {a b : List α} (hc : Consistent keyOf a b) {x : α} :
    x ∈ a ++ newItems keyOf a b ↔ x ∈ a ∨ x ∈ b := by
  simp only [newItems, List.mem_append, List.mem_filter, decide_eq_true_eq]
  refine ⟨Or.imp_right And.left, fun h => ?_⟩
  rcases h with h | h
  · exact .inl h
  · by_cases hx : ∀ y ∈ a, keyOf y ≠ keyOf x
    · exact .inr ⟨h, hx⟩
    · push Not at hx
      obtain ⟨y, hy, hxy⟩ := hx
      exact .inl (hc y hy x h hxy ▸ hy)

theorem nodup_merged {a b : List α} (ha : (a.map keyOf).Nodup) (hb : (b.map keyOf).Nodup) :
    ((a ++ newItems keyOf a b).map keyOf).Nodup := by
  rw [List.map_append, List.nodup_append]
  refine ⟨ha, hb.sublist (List.filter_sublist.map keyOf), ?_⟩
  intro k hk k' hk'
  obtain ⟨x, hx, rfl⟩ := List.mem_map.mp hk
  obtain ⟨y, hy, rfl⟩ := List.mem_map.mp hk'
  have hnew := (List.mem_filter.mp hy).2
  exact (by simpa using hnew : ∀ x ∈ a, keyOf x ≠ keyOf y) x hx

end Merge

section Collects

variable {ι : Type} {keyOf : α → κ} {entry : ι → Option α} {S T : Set ι}

/-- A list that holds the entries of the given contributors, each once. -/
structure Collects (keyOf : α → κ) (entry : ι → Option α) (S : Set ι) (l : List α) : Prop where
  nodup : (l.map keyOf).Nodup
  mem : ∀ x, x ∈ l ↔ ∃ i ∈ S, entry i = some x

theorem Collects.empty : Collects keyOf entry ∅ [] :=
  ⟨List.nodup_nil, fun x => by simp⟩

/-- A contributor without an entry changes nothing. -/
theorem Collects.insert_none {l : List α} {i : ι} (h : Collects keyOf entry S l)
    (hi : entry i = none) : Collects keyOf entry (insert i S) l := by
  refine ⟨h.nodup, ?_⟩
  intro x
  rw [h.mem]
  constructor
  · rintro ⟨j, hj, hx⟩
    exact ⟨j, Set.mem_insert_of_mem i hj, hx⟩
  · rintro ⟨j, hj, hx⟩
    cases hj with
    | inl he =>
      rw [he, hi] at hx
      cases hx
    | inr hj => exact ⟨j, hj, hx⟩

/-- A new key, put anywhere. -/
theorem Collects.insert_new {l l' : List α} {i : ι} {x : α} (h : Collects keyOf entry S l)
    (hi : entry i = some x) (hnew : keyOf x ∉ l.map keyOf) (hp : l'.Perm (x :: l)) :
    Collects keyOf entry (insert i S) l' := by
  refine ⟨(hp.map keyOf).nodup_iff.mpr (List.nodup_cons.mpr ⟨hnew, h.nodup⟩), ?_⟩
  intro y
  rw [hp.mem_iff, List.mem_cons, h.mem]
  constructor
  · intro hy
    cases hy with
    | inl he => exact ⟨i, Set.mem_insert i S, he ▸ hi⟩
    | inr hy =>
      obtain ⟨j, hj, hy⟩ := hy
      exact ⟨j, Set.mem_insert_of_mem i hj, hy⟩
  · rintro ⟨j, hj, hy⟩
    cases hj with
    | inl he =>
      rw [he, hi] at hy
      exact .inl (Option.some.inj hy).symm
    | inr hj => exact .inr ⟨j, hj, hy⟩

/-- The contributors determine the list up to its order. -/
theorem Collects.perm {l l' : List α} (h : Collects keyOf entry S l)
    (h' : Collects keyOf entry S l') : l.Perm l' :=
  (List.perm_ext_iff_of_nodup h.nodup.of_map h'.nodup.of_map).mpr fun x => by
    rw [h.mem, h'.mem]

/-- Two collections merge into the collection of both, where one key has one entry. -/
theorem Collects.merge [DecidableEq κ] {differ : α → α → Bool} {conflict : ε} {a b : List α}
    (ha : Collects keyOf entry S a) (hb : Collects keyOf entry T b)
    (hd : ∀ x, differ x x = false)
    (hone : ∀ i ∈ S, ∀ j ∈ T, ∀ x y, entry i = some x → entry j = some y →
      keyOf x = keyOf y → x = y) :
    ∃ r, mergeBy keyOf differ conflict a b = .ok r ∧ Collects keyOf entry (S ∪ T) r := by
  have hc : Consistent keyOf a b := by
    intro x hx y hy hxy
    obtain ⟨i, hi, hix⟩ := (ha.mem x).mp hx
    obtain ⟨j, hj, hjy⟩ := (hb.mem y).mp hy
    exact hone i hi j hj x y hix hjy hxy
  refine ⟨_, mergeBy_ok ha.nodup hb.nodup hd hc, nodup_merged ha.nodup hb.nodup, ?_⟩
  intro x
  simp only [mem_merged hc, ha.mem, hb.mem, Set.mem_union, or_and_right, exists_or]

theorem Collects.of_perm {l l' : List α} (h : Collects keyOf entry S l) (hp : l'.Perm l) :
    Collects keyOf entry S l' :=
  ⟨(hp.map keyOf).nodup_iff.mpr h.nodup, fun x => hp.mem_iff.trans (h.mem x)⟩

end Collects

end KeyedList
