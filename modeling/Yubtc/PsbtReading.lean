import Yubtc.PsbtCodec
import Yubtc.Sizes
import Yubtc.Lib.Readers

/-!
# Reading

Every read of the container takes back what the writer of its value writes, and costs at least
as many bytes as the writer would spend.
-/
namespace Yubtc.PsbtReading

open LittleEndian Wire Errors ExceptRules Transaction PsbtData PsbtCodec
open Readers (Reads Weighs)

theorem take_reads {n : Nat} {field : Bytes} (h : field.length = n) :
    Reads (take n) field field := by
  subst h
  intro rest
  have hle : ¬ field.length > (field ++ rest).length := by simp
  rw [take, if_neg hle, List.take_left, List.drop_left]

theorem take_eq_ok {n : Nat} {r field r' : Bytes} :
    take n r = .ok (field, r') ↔ field.length = n ∧ r = field ++ r' := by
  constructor
  · intro h
    unfold take at h
    split at h
    · cases h
    · next hle =>
      cases h
      exact ⟨by rw [List.length_take]; omega, (List.take_append_drop n r).symm⟩
  · rintro ⟨hlen, rfl⟩
    exact take_reads hlen r'

theorem take_weighs (n : Nat) : Weighs (take n) fun _ => n := by
  intro r field r' h
  obtain ⟨hlen, rfl⟩ := take_eq_ok.mp h
  simp only [List.length_append]
  omega

theorem unpackL_packL (n : UInt32) : unpackL (packL n) = n := by
  rw [unpackL, packL, unpackLE_packLE 4 n.toNat n.toNat_lt, UInt32.ofNat_toNat]

theorem unpackQ_packQ (n : UInt64) : unpackQ (packQ n) = n := by
  rw [unpackQ, packQ, unpackLE_packLE 8 n.toNat n.toNat_lt, UInt64.ofNat_toNat]

theorem unpackl_packl (n : Int32) : unpackl (packl n) = n := by
  rw [unpackl, packl, unpackLE_packLE 4 n.toUInt32.toNat n.toUInt32.toNat_lt, UInt32.ofNat_toNat]
  exact Int32.toInt32_toUInt32 n

theorem packL_unpackL {field : Bytes} (h : field.length = 4) : packL (unpackL field) = field := by
  have hlt : unpackLE field < 2 ^ 32 := by
    have hlt := unpackLE_lt field
    rwa [h] at hlt
  rw [packL, unpackL, UInt32.toNat_ofNat', Nat.mod_eq_of_lt hlt, ← h, packLE_unpackLE]

theorem readL_reads (n : UInt32) : Reads readL (packL n) n := by
  have h := (take_reads (packL_length n)).map unpackL
  rw [unpackL_packL] at h
  exact h

theorem readL_weighs : Weighs readL fun _ => 4 := by
  intro r n r' h
  obtain ⟨⟨field, r₁⟩, hfield, h⟩ := bind_eq_ok.mp h
  cases h
  exact take_weighs 4 r field _ hfield

/-- Every value the writer can write is read back. -/
theorem readCompactSize_reads {n : Nat} (h : n < 2 ^ 64) :
    Reads readCompactSize (writeCompactSize n) n := by
  have hwide : ∀ (marker : UInt8) (width : Nat), ¬ marker ≤ 0xfc →
      (if marker = 0xfd then 2 else if marker = 0xfe then 4 else 8) = width → n < 256 ^ width →
      Reads readCompactSize (marker :: packLE width n) n := by
    intro marker width hmarker hwidth hn rest
    have hfirst : take 1 (marker :: packLE width n ++ rest) =
        .ok ([marker], packLE width n ++ rest) := rfl
    have hfield : take (if marker = 0xfd then 2 else if marker = 0xfe then 4 else 8)
        (packLE width n ++ rest) = .ok (packLE width n, rest) := by
      rw [hwidth]
      exact take_reads (packLE_length width n) rest
    rw [readCompactSize, hfirst, ok_bind]
    refine (if_neg hmarker).trans (bind_eq_ok.mpr ⟨_, hfield, ?_⟩)
    simp only [unpackLE_packLE width n hn, pure_eq_ok]
  unfold writeCompactSize
  split
  · next hs =>
    intro rest
    have hfirst : take 1 (packLE 1 n ++ rest) = .ok (packLE 1 n, rest) :=
      take_reads (packLE_length 1 n) rest
    have hbyte : (packLE 1 n).headD 0 = UInt8.ofNat n := rfl
    have hnat : (UInt8.ofNat n).toNat = n := by
      rw [UInt8.toNat_ofNat']
      omega
    have hsmall : UInt8.ofNat n ≤ 0xfc := by
      rw [UInt8.le_iff_toNat_le, hnat]
      exact Nat.le_of_lt_succ hs
    simp only [readCompactSize, hfirst, ok_bind, hbyte, if_pos hsmall, hnat, pure_eq_ok]
  · split
    · next hs => exact hwide 0xfd 2 (by decide) rfl (by omega)
    · split
      · next hs => exact hwide 0xfe 4 (by decide) rfl (by omega)
      · exact hwide 0xff 8 (by decide) rfl (by omega)

/-- No encoding of a count is shorter than the writer's. -/
theorem readCompactSize_weighs : Weighs readCompactSize compactSizeLen := by
  intro r n r' h
  obtain ⟨⟨first, r₁⟩, hfirst, h⟩ := bind_eq_ok.mp h
  have hone : 1 + r₁.length ≤ r.length := take_weighs 1 r first r₁ hfirst
  rcases ite_eq_ok.mp h with ⟨hle, h⟩ | ⟨-, h⟩
  · cases h
    have hbyte : (first.headD 0).toNat < 253 := Nat.lt_succ_of_le (UInt8.le_iff_toNat_le.mp hle)
    simp only [compactSizeLen, if_pos hbyte]
    exact hone
  · obtain ⟨⟨field, r₂⟩, hfield, h⟩ := bind_eq_ok.mp h
    cases h
    have hwidth := take_weighs _ r₁ field r' hfield
    dsimp only at hwidth
    have hlen := (take_eq_ok.mp hfield).1
    have hlt := unpackLE_lt field
    rw [hlen] at hlt
    -- A field of two, four or eight bytes holds no count that takes a longer one.
    have hfits : ∀ width : Nat, width + r'.length ≤ r₁.length →
        compactSizeLen (unpackLE field) ≤ width + 1 →
        compactSizeLen (unpackLE field) + r'.length ≤ r.length := by
      intro width hw hle
      omega
    apply hfits _ hwidth
    clear hwidth hlen hfield
    unfold compactSizeLen
    split at hlt
    · next hm =>
      rw [if_pos hm]
      split <;> (try split) <;> omega
    · next hm =>
      rw [if_neg hm]
      split at hlt
      · next hm =>
        rw [if_pos hm]
        split <;> (try split) <;> (try split) <;> omega
      · next hm =>
        rw [if_neg hm]
        split <;> (try split) <;> (try split) <;> omega

theorem readVarBytes_reads {item : Bytes} (h : item.length < 2 ^ 64) :
    Reads readVarBytes (writeCompactSize item.length ++ item) item :=
  (readCompactSize_reads h).bind (g := take) (take_reads rfl)

theorem readVarBytes_weighs :
    Weighs readVarBytes fun item => compactSizeLen item.length + item.length := by
  intro r item r' h
  obtain ⟨⟨n, r₁⟩, hn, h⟩ := bind_eq_ok.mp h
  have hcount := readCompactSize_weighs r n r₁ hn
  have hitem : n + r'.length ≤ r₁.length := take_weighs n r₁ item r' h
  have hlen : item.length = n := (take_eq_ok.mp h).1
  simp only [hlen]
  omega

theorem readMany_reads {α γ : Type} {read : Reader α} {l : List γ} {encode : γ → Bytes}
    {value : γ → α} (h : ∀ x ∈ l, Reads read (encode x) (value x)) :
    Reads (readMany read l.length) (l.flatMap encode) (l.map value) := by
  induction l with
  | nil => exact Reads.pure []
  | cons x l ih =>
    intro rest
    have hx := h x List.mem_cons_self (l.flatMap encode ++ rest)
    have hl := ih (fun y hy => h y (List.mem_cons_of_mem _ hy)) rest
    rw [List.flatMap_cons, List.append_assoc, List.length_cons, readMany, hx, ok_bind]
    simp only [hl, ok_bind, pure_eq_ok, List.map_cons]

theorem readMany_weighs {α : Type} {read : Reader α} {weight : α → Nat} (h : Weighs read weight)
    (n : Nat) : Weighs (readMany read n) fun as => (as.map weight).sum := by
  induction n with
  | zero =>
    intro r as r' hr
    cases hr
    simp
  | succ n ih =>
    intro r as r' hr
    obtain ⟨⟨a, r₁⟩, ha, hr⟩ := bind_eq_ok.mp hr
    obtain ⟨⟨rest, r₂⟩, hrest, hr⟩ := bind_eq_ok.mp hr
    cases hr
    have hfirst := h r a r₁ ha
    have hothers := ih r₁ rest _ hrest
    simp only [List.map_cons, List.sum_cons]
    dsimp only at hothers
    omega

/-- The loop returns one value for each pass, and each was read. -/
theorem readMany_spec {α : Type} {read : Reader α} {n : Nat} {r r' : Bytes} {as : List α}
    (h : readMany read n r = .ok (as, r')) :
    as.length = n ∧ ∀ a ∈ as, ∃ s s', read s = .ok (a, s') := by
  induction n generalizing r as with
  | zero =>
    cases h
    exact ⟨rfl, fun a ha => absurd ha List.not_mem_nil⟩
  | succ n ih =>
    obtain ⟨⟨a, r₁⟩, ha, h⟩ := bind_eq_ok.mp h
    obtain ⟨⟨rest, r₂⟩, hrest, h⟩ := bind_eq_ok.mp h
    cases h
    obtain ⟨hlen, hread⟩ := ih hrest
    constructor
    · rw [List.length_cons, hlen]
    · intro b hb
      cases List.mem_cons.mp hb with
      | inl he => exact he ▸ ⟨r, r₁, ha⟩
      | inr hb => exact hread b hb

theorem length_le_flatMap {γ : Type} {l : List γ} {encode : γ → Bytes}
    (h : ∀ x ∈ l, encode x ≠ []) : l.length ≤ (l.flatMap encode).length := by
  induction l with
  | nil => exact Nat.zero_le _
  | cons x l ih =>
    have hx := List.length_pos_of_ne_nil (h x List.mem_cons_self)
    have hl := ih fun y hy => h y (List.mem_cons_of_mem _ hy)
    rw [List.flatMap_cons, List.length_append, List.length_cons]
    omega

/-- The bound on the count does not refuse what is there. -/
theorem readCounted_reads {α γ : Type} {read : Reader α} {l : List γ} {encode : γ → Bytes}
    {value : γ → α} (hcount : l.length < 2 ^ 64) (hne : ∀ x ∈ l, encode x ≠ [])
    (h : ∀ x ∈ l, Reads read (encode x) (value x)) :
    Reads (readCounted read) (writeCompactSize l.length ++ l.flatMap encode) (l.map value) := by
  intro rest
  have hfits : ¬ l.length > (l.flatMap encode ++ rest).length := by
    have hle := length_le_flatMap hne
    rw [List.length_append]
    omega
  have hmany := readMany_reads h rest
  rw [readCounted, List.append_assoc, readCompactSize_reads hcount, ok_bind]
  dsimp only
  rw [reject_false _ hfits, ok_bind, hmany]

theorem readCounted_eq_ok {α : Type} {read : Reader α} {r r' : Bytes} {as : List α}
    (h : readCounted read r = .ok (as, r')) :
    ∃ r₁, readCompactSize r = .ok (as.length, r₁) ∧ readMany read as.length r₁ = .ok (as, r') := by
  obtain ⟨⟨n, r₁⟩, hn, h⟩ := bind_eq_ok.mp h
  obtain ⟨-, h⟩ := reject_bind_eq_ok.mp h
  have hlen := (readMany_spec h).1
  subst hlen
  exact ⟨r₁, hn, h⟩

theorem readCounted_weighs {α : Type} {read : Reader α} {weight : α → Nat}
    (h : Weighs read weight) :
    Weighs (readCounted read) fun as => compactSizeLen as.length + (as.map weight).sum := by
  intro r as r' hr
  obtain ⟨r₁, hn, hmany⟩ := readCounted_eq_ok hr
  have hcount := readCompactSize_weighs r _ r₁ hn
  have hitems := readMany_weighs h _ r₁ as r' hmany
  dsimp only at hitems ⊢
  omega

theorem readTxIn_reads {i : PsbtTxIn} (hhash : i.txhash.length = 32)
    (hscript : i.script.length < 2 ^ 64) :
    Reads readTxIn i.serialize { i with witness := [] } := by
  intro rest
  have htxhash : ∀ rest, take 32 (i.txhash ++ rest) = .ok (i.txhash, rest) := take_reads hhash
  have hn : ∀ rest, readL (packL i.n ++ rest) = .ok (i.n, rest) := readL_reads i.n
  have hsequence : ∀ rest, readL (packL i.sequence ++ rest) = .ok (i.sequence, rest) :=
    readL_reads i.sequence
  have hvar : ∀ rest, readVarBytes (compactSize i.script.length ++ (i.script ++ rest)) =
      .ok (i.script, rest) := by
    intro rest
    have h := readVarBytes_reads hscript rest
    rwa [List.append_assoc] at h
  simp only [PsbtTxIn.serialize, List.append_assoc, readTxIn, htxhash, ok_bind, hn, hvar,
    hsequence, pure_eq_ok]

theorem readTxIn_eq_ok {r r' : Bytes} {i : PsbtTxIn} (h : readTxIn r = .ok (i, r')) :
    i.txhash.length = 32 ∧ i.witness = [] ∧ i.serialize.length + r'.length ≤ r.length := by
  obtain ⟨⟨txhash, r₁⟩, htxhash, h⟩ := bind_eq_ok.mp h
  obtain ⟨⟨n, r₂⟩, hn, h⟩ := bind_eq_ok.mp h
  obtain ⟨⟨script, r₃⟩, hscript, h⟩ := bind_eq_ok.mp h
  obtain ⟨⟨sequence, r₄⟩, hsequence, h⟩ := bind_eq_ok.mp h
  cases h
  have hhash := (take_eq_ok.mp htxhash).1
  have h₁ : 32 + r₁.length ≤ r.length := take_weighs 32 r _ r₁ htxhash
  have h₂ : 4 + r₂.length ≤ r₁.length := readL_weighs r₁ _ r₂ hn
  have h₃ : compactSizeLen script.length + script.length + r₃.length ≤ r₂.length :=
    readVarBytes_weighs r₂ _ r₃ hscript
  have h₄ : 4 + r'.length ≤ r₃.length := readL_weighs r₃ _ r' hsequence
  refine ⟨hhash, rfl, ?_⟩
  rw [Sizes.psbtTxIn_serialize_length hhash, Sizes.inputSize]
  dsimp only
  omega

theorem readTxIn_weighs : Weighs readTxIn fun i => i.serialize.length :=
  fun _ _ _ h => (readTxIn_eq_ok h).2.2

theorem readTxOut_reads {o : PsbtTxOut} (hscript : o.script.length < 2 ^ 64) :
    Reads readTxOut o.serialize o := by
  intro rest
  have hamount : ∀ rest, take 8 (packQ o.amount ++ rest) = .ok (packQ o.amount, rest) :=
    take_reads (packQ_length _)
  have hvar : ∀ rest, readVarBytes (compactSize o.script.length ++ (o.script ++ rest)) =
      .ok (o.script, rest) := by
    intro rest
    have h := readVarBytes_reads hscript rest
    rwa [List.append_assoc] at h
  simp only [PsbtTxOut.serialize, List.append_assoc, readTxOut, hamount, ok_bind, hvar,
    unpackQ_packQ, pure_eq_ok]

theorem readTxOut_weighs : Weighs readTxOut fun o => o.serialize.length := by
  intro r o r' h
  obtain ⟨⟨amount, r₁⟩, hamount, h⟩ := bind_eq_ok.mp h
  obtain ⟨⟨script, r₂⟩, hscript, h⟩ := bind_eq_ok.mp h
  cases h
  have h₁ : 8 + r₁.length ≤ r.length := take_weighs 8 r _ r₁ hamount
  have h₂ : compactSizeLen script.length + script.length + r'.length ≤ r₁.length :=
    readVarBytes_weighs r₁ _ r' hscript
  simp only [Sizes.psbtTxOut_serialize_length, Sizes.outputSize]
  omega

theorem parseWitnessSection_reads {witness : List Bytes} (hcount : witness.length < 2 ^ 64)
    (h : ∀ item ∈ witness, item.length < 2 ^ 64) :
    Reads parseWitnessSection (serializeWitness witness) witness := by
  have hne : ∀ item ∈ witness, varBytes item ≠ [] := by
    intro item _ hnil
    exact compactSize_ne_nil _ (List.append_eq_nil_iff.mp hnil).1
  have hitem : ∀ item ∈ witness, Reads readVarBytes (varBytes item) (id item) :=
    fun item hitem => readVarBytes_reads (h item hitem)
  have hread := readCounted_reads hcount hne hitem
  rwa [List.map_id] at hread

theorem parseWitnessSection_weighs :
    Weighs parseWitnessSection fun witness => (serializeWitness witness).length := by
  intro r witness r' h
  have hw : compactSizeLen witness.length +
      (witness.map fun item => compactSizeLen item.length + item.length).sum + r'.length ≤
        r.length := readCounted_weighs readVarBytes_weighs r witness r' h
  simpa only [Sizes.serializeWitness_length, Sizes.witnessSize, Sizes.itemSize] using hw

/-- A witness stack in a field of its own. -/
theorem decodeWitnessStack_encodeWitnessStack {items : List Bytes} (hcount : items.length < 2 ^ 64)
    (h : ∀ item ∈ items, item.length < 2 ^ 64) :
    decodeWitnessStack (encodeWitnessStack items) = .ok items := by
  have hread : readCounted readVarBytes (encodeWitnessStack items) = .ok (items, []) :=
    (parseWitnessSection_reads hcount h).all
  rw [decodeWitnessStack, hread, ok_bind]
  rfl

/-- An output in a field of its own. -/
theorem parseWitnessUtxo_encode {o : PsbtTxOut} (h : o.script.length < 2 ^ 64) :
    parseWitnessUtxo (encodeWitnessUtxo o) = .ok o := by
  have hamount : ∀ rest, take 8 (packQ o.amount ++ rest) = .ok (packQ o.amount, rest) :=
    take_reads (packQ_length _)
  have hvar := (readVarBytes_reads h).all
  simp only [parseWitnessUtxo, encodeWitnessUtxo, List.append_assoc, hamount, ok_bind, hvar,
    unpackQ_packQ]
  rfl

theorem parseWitnessUtxo_length {value : Bytes} {o : PsbtTxOut}
    (h : parseWitnessUtxo value = .ok o) : (encodeWitnessUtxo o).length ≤ value.length := by
  obtain ⟨⟨amount, r₁⟩, hamount, h⟩ := bind_eq_ok.mp h
  obtain ⟨⟨script, r₂⟩, hscript, h⟩ := bind_eq_ok.mp h
  obtain ⟨-, h⟩ := reject_bind_eq_ok.mp h
  cases h
  have h₁ : 8 + r₁.length ≤ value.length := take_weighs 8 value _ r₁ hamount
  have h₂ : compactSizeLen script.length + script.length + r₂.length ≤ r₁.length :=
    readVarBytes_weighs r₁ _ r₂ hscript
  simp only [encodeWitnessUtxo, writeCompactSize_eq, List.length_append, packQ_length,
    compactSize_length]
  omega

/-- Whether the bytes after the version are a marker and a flag. -/
def announcesWitness (segwitAllowed : Bool) (r : Bytes) : Bool :=
  segwitAllowed && r.length ≥ 2 && r.take 2 == [0x00, 0x01]

/-- Inputs with their stacks, outputs and lock time. -/
abbrev TxBody := List PsbtTxIn × List PsbtTxOut × UInt32

/-- The stacks of the inputs, where the layout has them. -/
def readWitnesses (segwit : Bool) (vin : List PsbtTxIn) : Reader (List (List Bytes)) := fun r =>
  if segwit then readMany parseWitnessSection vin.length r
  else .ok (vin.map fun i => i.witness, r)

/-- What comes after the version and the marker. -/
def readTxBody (segwit : Bool) : Reader TxBody := fun r => do
  let (vin, r) ← readCounted readTxIn r
  let (vout, r) ← readCounted readTxOut r
  let (witnesses, r) ← readWitnesses segwit vin r
  let (locktime, r) ← readL r
  return ((vin.zipWith (fun i witness => { i with witness := witness }) witnesses, vout,
    locktime), r)

def encodeTxBody (segwit : Bool) (body : TxBody) : Bytes :=
  compactSize body.1.length ++ body.1.flatMap PsbtTxIn.serialize ++
    compactSize body.2.1.length ++ body.2.1.flatMap PsbtTxOut.serialize ++
    (if segwit then body.1.flatMap fun i => serializeWitness i.witness else []) ++
    packL body.2.2

def PsbtTransaction.body (tx : PsbtTransaction) : TxBody := (tx.vin, tx.vout, tx.locktime)

theorem serializeStripped_eq (tx : PsbtTransaction) :
    tx.serializeStripped = packl tx.version ++ encodeTxBody false (PsbtTransaction.body tx) := by
  simp [PsbtTransaction.serializeStripped, encodeTxBody, PsbtTransaction.body]

theorem serializeWire_eq {tx : PsbtTransaction} (h : tx.hasWitness = true) :
    tx.serializeWire =
      packl tx.version ++ ([0x00, 0x01] ++ encodeTxBody true (PsbtTransaction.body tx)) := by
  simp [PsbtTransaction.serializeWire, h, encodeTxBody, PsbtTransaction.body]

theorem parseTx_eq_ok {data : Bytes} {segwitAllowed : Bool} {tx : PsbtTransaction} :
    parseTx data segwitAllowed = .ok tx ↔ ∃ version r, take 4 data = .ok (version, r) ∧
      readTxBody (announcesWitness segwitAllowed r)
        (if announcesWitness segwitAllowed r then r.drop 2 else r) =
          .ok (PsbtTransaction.body tx, []) ∧
      tx.version = unpackl version := by
  constructor
  · intro h
    obtain ⟨⟨version, r⟩, hversion, h⟩ := bind_eq_ok.mp h
    obtain ⟨⟨vin, r₁⟩, hvin, h⟩ := bind_eq_ok.mp h
    obtain ⟨⟨vout, r₂⟩, hvout, h⟩ := bind_eq_ok.mp h
    have hstacks : ∃ witnesses r₃, readWitnesses (announcesWitness segwitAllowed r) vin r₂ =
        .ok (witnesses, r₃) ∧ (readL r₃ >>= fun p => reject (p.2 ≠ []) .truncated >>= fun _ =>
          .ok (⟨unpackl version, vin.zipWith (fun i witness => { i with witness := witness })
            witnesses, vout, p.1⟩ : PsbtTransaction)) = .ok tx := by
      dsimp only at h
      unfold readWitnesses announcesWitness
      split at h
      · next hs =>
        obtain ⟨⟨witnesses, r₃⟩, hwitnesses, h⟩ := bind_eq_ok.mp h
        exact ⟨witnesses, r₃, by rw [if_pos hs, hwitnesses], h⟩
      · next hs => exact ⟨_, r₂, by rw [if_neg hs], h⟩
    obtain ⟨witnesses, r₃, hwitnesses, h⟩ := hstacks
    obtain ⟨⟨locktime, r₄⟩, hlocktime, h⟩ := bind_eq_ok.mp h
    obtain ⟨hend, h⟩ := reject_bind_eq_ok.mp h
    cases h
    refine ⟨version, r, hversion, ?_, rfl⟩
    rw [← not_not.mp hend]
    exact bind_eq_ok.mpr ⟨_, hvin, bind_eq_ok.mpr ⟨_, hvout, bind_eq_ok.mpr
      ⟨_, hwitnesses, bind_eq_ok.mpr ⟨_, hlocktime, rfl⟩⟩⟩⟩
  · rintro ⟨version, r, hversion, hbody, hv⟩
    obtain ⟨⟨vin, r₁⟩, hvin, hbody⟩ := bind_eq_ok.mp hbody
    obtain ⟨⟨vout, r₂⟩, hvout, hbody⟩ := bind_eq_ok.mp hbody
    obtain ⟨⟨witnesses, r₃⟩, hwitnesses, hbody⟩ := bind_eq_ok.mp hbody
    obtain ⟨⟨locktime, r₄⟩, hlocktime, hbody⟩ := bind_eq_ok.mp hbody
    obtain ⟨v, i, o, l⟩ := tx
    cases hbody
    dsimp only at hv
    subst hv
    refine bind_eq_ok.mpr ⟨_, hversion, bind_eq_ok.mpr ⟨_, hvin, bind_eq_ok.mpr ⟨_, hvout, ?_⟩⟩⟩
    unfold readWitnesses announcesWitness at hwitnesses
    dsimp only
    split at hwitnesses
    · next hs =>
      rw [if_pos hs]
      exact bind_eq_ok.mpr ⟨_, hwitnesses, bind_eq_ok.mpr ⟨_, hlocktime, rfl⟩⟩
    · next hs =>
      rw [if_neg hs]
      cases hwitnesses
      exact bind_eq_ok.mpr ⟨_, rfl, bind_eq_ok.mpr ⟨_, hlocktime, rfl⟩⟩

/-- An input without its stack, as the stripped layout shows it. -/
def bareInput (i : PsbtTxIn) : PsbtTxIn := { i with witness := [] }

theorem map_bareInput {vin : List PsbtTxIn} (h : ∀ i ∈ vin, i.witness = []) :
    vin.map bareInput = vin := by
  have hid : ∀ i ∈ vin, bareInput i = id i := fun i hi => by
    rw [bareInput, ← h i hi]
    rfl
  rw [List.map_congr_left hid, List.map_id]

/-- What the layout shows of a transaction. -/
def shown (segwit : Bool) (body : TxBody) : TxBody :=
  (if segwit then body.1 else body.1.map bareInput, body.2)

theorem length_le_of_mem {γ : Type} {l : List γ} (encode : γ → Bytes) {x : γ} (h : x ∈ l) :
    (encode x).length ≤ (l.flatMap encode).length := by
  rw [List.length_flatMap]
  exact List.single_le_sum (fun _ _ => Nat.zero_le _) _ (List.mem_map_of_mem h)

theorem zipWith_witness (segwit : Bool) (vin : List PsbtTxIn) :
    (vin.map bareInput).zipWith (fun i witness => { i with witness := witness })
      (vin.map fun i => if segwit then i.witness else []) =
        if segwit then vin else vin.map bareInput := by
  rw [List.zipWith_map, List.zipWith_self]
  cases segwit with
  | false => rfl
  | true => exact List.map_id vin

/-- The hashes of a body have the width of their field, and every count and length that its layout
writes goes into a compact size. -/
structure BodyInRange (segwit : Bool) (body : TxBody) : Prop where
  txhash : ∀ i ∈ body.1, i.txhash.length = 32
  vin : body.1.length < 2 ^ 64
  vinScript : ∀ i ∈ body.1, i.script.length < 2 ^ 64
  vout : body.2.1.length < 2 ^ 64
  voutScript : ∀ o ∈ body.2.1, o.script.length < 2 ^ 64
  stack : segwit = true → ∀ i ∈ body.1, i.witness.length < 2 ^ 64
  item : segwit = true → ∀ i ∈ body.1, ∀ item ∈ i.witness, item.length < 2 ^ 64

theorem varBytes_ne_nil (item : Bytes) : varBytes item ≠ [] :=
  fun hnil => compactSize_ne_nil _ (List.append_eq_nil_iff.mp hnil).1

theorem readWitnesses_reads {segwit : Bool} {vin : List PsbtTxIn}
    (hstack : segwit = true → ∀ i ∈ vin, i.witness.length < 2 ^ 64)
    (hitem : segwit = true → ∀ i ∈ vin, ∀ item ∈ i.witness, item.length < 2 ^ 64) :
    Reads (readWitnesses segwit (vin.map bareInput))
      (if segwit then vin.flatMap fun i => serializeWitness i.witness else [])
      (vin.map fun i => if segwit then i.witness else []) := by
  intro rest
  cases segwit with
  | false =>
    simp only [readWitnesses, Bool.false_eq_true, if_false, List.map_map]
    rfl
  | true =>
    have hread : ∀ i ∈ vin, Reads parseWitnessSection (serializeWitness i.witness) i.witness :=
      fun i hi => parseWitnessSection_reads (hstack rfl i hi) (hitem rfl i hi)
    have hmany := readMany_reads hread rest
    simp only [readWitnesses, if_true, List.length_map, hmany]

theorem txIn_serialize_ne_nil {i : PsbtTxIn} (h : i.txhash.length = 32) : i.serialize ≠ [] := by
  intro hnil
  have hlen := Sizes.psbtTxIn_serialize_length h
  rw [hnil, List.length_nil, Sizes.inputSize] at hlen
  omega

theorem txOut_serialize_ne_nil (o : PsbtTxOut) : o.serialize ≠ [] := by
  intro hnil
  have hlen := Sizes.psbtTxOut_serialize_length o
  rw [hnil, List.length_nil, Sizes.outputSize] at hlen
  omega

/-- A body that is written in few bytes has small counts and lengths. -/
theorem bodyInRange_of_small {segwit : Bool} {body : TxBody}
    (hfits : ∀ i ∈ body.1, i.txhash.length = 32)
    (hsmall : (encodeTxBody segwit body).length < 2 ^ 64) : BodyInRange segwit body := by
  simp only [encodeTxBody, List.length_append] at hsmall
  have hvin : body.1.length ≤ (body.1.flatMap PsbtTxIn.serialize).length :=
    length_le_flatMap fun i hi => txIn_serialize_ne_nil (hfits i hi)
  have hvout : body.2.1.length ≤ (body.2.1.flatMap PsbtTxOut.serialize).length :=
    length_le_flatMap fun o _ => txOut_serialize_ne_nil o
  have hstacks : segwit = true → ∀ i ∈ body.1, (serializeWitness i.witness).length < 2 ^ 64 := by
    intro hsegwit i hi
    rw [if_pos hsegwit] at hsmall
    have hle := length_le_of_mem (fun i : PsbtTxIn => serializeWitness i.witness) hi
    omega
  constructor
  · exact hfits
  · omega
  · intro i hi
    have hle := length_le_of_mem PsbtTxIn.serialize hi
    rw [Sizes.psbtTxIn_serialize_length (hfits i hi), Sizes.inputSize] at hle
    omega
  · omega
  · intro o ho
    have hle := length_le_of_mem PsbtTxOut.serialize ho
    rw [Sizes.psbtTxOut_serialize_length, Sizes.outputSize] at hle
    omega
  · intro hsegwit i hi
    have hlt := hstacks hsegwit i hi
    have hle : i.witness.length ≤ (i.witness.flatMap varBytes).length :=
      length_le_flatMap fun item _ => varBytes_ne_nil item
    rw [serializeWitness, List.length_append] at hlt
    omega
  · intro hsegwit i hi item hitem
    have hlt := hstacks hsegwit i hi
    have hle := length_le_of_mem varBytes hitem
    rw [serializeWitness, List.length_append] at hlt
    rw [varBytes, List.length_append] at hle
    omega

theorem readVin_reads {vin : List PsbtTxIn} (hcount : vin.length < 2 ^ 64)
    (hfits : ∀ i ∈ vin, i.txhash.length = 32) (hscript : ∀ i ∈ vin, i.script.length < 2 ^ 64) :
    Reads (readCounted readTxIn)
      (compactSize vin.length ++ vin.flatMap PsbtTxIn.serialize) (vin.map bareInput) :=
  readCounted_reads hcount (fun i hi => txIn_serialize_ne_nil (hfits i hi)) fun i hi =>
    readTxIn_reads (hfits i hi) (hscript i hi)

theorem readVout_reads {vout : List PsbtTxOut} (hcount : vout.length < 2 ^ 64)
    (hscript : ∀ o ∈ vout, o.script.length < 2 ^ 64) :
    Reads (readCounted readTxOut)
      (compactSize vout.length ++ vout.flatMap PsbtTxOut.serialize) vout := by
  have hone : ∀ o ∈ vout, Reads readTxOut o.serialize (id o) := fun o ho =>
    readTxOut_reads (hscript o ho)
  have hread := readCounted_reads hcount (fun o _ => txOut_serialize_ne_nil o) hone
  rwa [List.map_id] at hread

/-- A body is read back up to what its layout leaves out. -/
theorem readTxBody_reads {segwit : Bool} {body : TxBody} (h : BodyInRange segwit body) :
    Reads (readTxBody segwit) (encodeTxBody segwit body) (shown segwit body) := by
  obtain ⟨vin, vout, locktime⟩ := body
  have hvin := readVin_reads h.vin h.txhash h.vinScript
  have hvout := readVout_reads h.vout h.voutScript
  have hwitness := readWitnesses_reads h.stack h.item
  intro rest
  have hlocktime := readL_reads locktime rest
  simp only [encodeTxBody, List.append_assoc, readTxBody]
  rw [← List.append_assoc (compactSize vin.length), hvin, ok_bind,
    ← List.append_assoc (compactSize vout.length), hvout, ok_bind, hwitness, ok_bind]
  simp only [hlocktime, ok_bind, zipWith_witness]
  rfl

/-- The hashes of the outpoints have the width of the field. -/
def Fits (tx : PsbtTransaction) : Prop := ∀ i ∈ tx.vin, i.txhash.length = 32

theorem serialize_zipWith {vin : List PsbtTxIn} {witnesses : List (List Bytes)}
    (h : vin.length ≤ witnesses.length) :
    (vin.zipWith (fun i witness => { i with witness := witness }) witnesses).flatMap
      PsbtTxIn.serialize = vin.flatMap PsbtTxIn.serialize := by
  induction vin generalizing witnesses with
  | nil => rfl
  | cons i vin ih =>
    cases witnesses with
    | nil => exact absurd h (Nat.not_succ_le_zero _)
    | cons witness witnesses =>
      rw [List.zipWith_cons_cons, List.flatMap_cons, List.flatMap_cons,
        ih (Nat.le_of_succ_le_succ h)]
      rfl

theorem witnesses_zipWith {vin : List PsbtTxIn} {witnesses : List (List Bytes)}
    (h : vin.length = witnesses.length) :
    (vin.zipWith (fun i witness => { i with witness := witness }) witnesses).map
      (fun i => i.witness) = witnesses := by
  induction vin generalizing witnesses with
  | nil => rw [List.eq_nil_of_length_eq_zero h.symm, List.zipWith_nil_left, List.map_nil]
  | cons i vin ih =>
    cases witnesses with
    | nil => exact absurd h (Nat.succ_ne_zero _)
    | cons witness witnesses =>
      rw [List.zipWith_cons_cons, List.map_cons, ih (Nat.succ.inj h)]

theorem hashes_zipWith {vin : List PsbtTxIn} {witnesses : List (List Bytes)}
    (h : ∀ i ∈ vin, i.txhash.length = 32) :
    ∀ i ∈ vin.zipWith (fun i witness => { i with witness := witness }) witnesses,
      i.txhash.length = 32 := by
  intro i hi
  obtain ⟨j, hj⟩ := List.mem_iff_getElem?.mp hi
  obtain ⟨x, y, hx, -, rfl⟩ := List.getElem?_zipWith_eq_some.mp hj
  exact h x (List.mem_of_getElem? hx)

theorem readWitnesses_eq_ok {segwit : Bool} {vin : List PsbtTxIn} {r r' : Bytes}
    {witnesses : List (List Bytes)} (hbare : ∀ i ∈ vin, i.witness = [])
    (h : readWitnesses segwit vin r = .ok (witnesses, r')) :
    vin.length = witnesses.length ∧ (segwit = false → ∀ witness ∈ witnesses, witness = []) ∧
      (if segwit then witnesses.flatMap serializeWitness else []).length + r'.length ≤ r.length := by
  cases segwit with
  | false =>
    cases h
    refine ⟨(List.length_map _).symm, fun _ => List.forall_mem_map.mpr hbare, ?_⟩
    simp
  | true =>
    have hmany : readMany parseWitnessSection vin.length r = .ok (witnesses, r') := h
    have hw := readMany_weighs parseWitnessSection_weighs _ r witnesses r' hmany
    refine ⟨(readMany_spec hmany).1.symm, nofun, ?_⟩
    rw [if_pos rfl, List.length_flatMap]
    exact hw

/-- What was read as a body has its hashes, shows no stack that its layout leaves out, and
took at least the bytes it is written with. -/
theorem readTxBody_eq_ok {segwit : Bool} {r r' : Bytes} {body : TxBody}
    (h : readTxBody segwit r = .ok (body, r')) :
    (∀ i ∈ body.1, i.txhash.length = 32) ∧ shown segwit body = body ∧
      (encodeTxBody segwit body).length + r'.length ≤ r.length := by
  obtain ⟨⟨vin, r₁⟩, hvin, h⟩ := bind_eq_ok.mp h
  obtain ⟨⟨vout, r₂⟩, hvout, h⟩ := bind_eq_ok.mp h
  obtain ⟨⟨witnesses, r₃⟩, hwitnesses, h⟩ := bind_eq_ok.mp h
  obtain ⟨⟨locktime, r₄⟩, hlocktime, h⟩ := bind_eq_ok.mp h
  cases h
  have hread : ∀ i ∈ vin, i.txhash.length = 32 ∧ i.witness = [] := by
    intro i hi
    obtain ⟨_, _, hmany⟩ := readCounted_eq_ok hvin
    obtain ⟨s, s', hs⟩ := (readMany_spec hmany).2 i hi
    obtain ⟨hhash, hwitness, -⟩ := readTxIn_eq_ok hs
    exact ⟨hhash, hwitness⟩
  obtain ⟨hlen, hnone, hstacks⟩ := readWitnesses_eq_ok (fun i hi => (hread i hi).2) hwitnesses
  refine ⟨hashes_zipWith fun i hi => (hread i hi).1, ?_, ?_⟩
  · cases segwit with
    | true => rfl
    | false =>
      refine Prod.ext (map_bareInput fun i hi => ?_) rfl
      refine hnone rfl i.witness ?_
      rw [← witnesses_zipWith hlen]
      exact List.mem_map_of_mem hi
  · have h₁ : compactSizeLen vin.length + (vin.map fun i => i.serialize.length).sum + r₁.length ≤
        r.length := readCounted_weighs readTxIn_weighs r _ r₁ hvin
    have h₂ : compactSizeLen vout.length + (vout.map fun o => o.serialize.length).sum + r₂.length ≤
        r₁.length := readCounted_weighs readTxOut_weighs r₁ _ r₂ hvout
    have h₄ : 4 + r'.length ≤ r₃.length := readL_weighs r₃ _ r' hlocktime
    have hflat : (vin.zipWith (fun i witness => { i with witness := witness }) witnesses).flatMap
        (fun i => serializeWitness i.witness) = witnesses.flatMap serializeWitness := by
      rw [← List.flatMap_map, witnesses_zipWith hlen]
    have hcount : (vin.zipWith (fun i witness => ({ i with witness := witness } : PsbtTxIn))
        witnesses).length = vin.length := by
      rw [List.length_zipWith, ← hlen, Nat.min_self]
    simp only [encodeTxBody, List.length_append, compactSize_length, packL_length, hcount, hflat,
      serialize_zipWith hlen.le, List.length_flatMap] at hstacks ⊢
    omega

/-- No inputs and one output: in the stripped layout the counts of such a transaction are the
marker and the flag. -/
def Bare (tx : PsbtTransaction) : Prop := tx.vin = [] ∧ tx.vout.length = 1

theorem announcesWitness_eq_true {r : Bytes} :
    announcesWitness true r = true ↔ ∃ r', r = 0x00 :: 0x01 :: r' := by
  constructor
  · intro h
    simp only [announcesWitness, Bool.true_and, Bool.and_eq_true, beq_iff_eq] at h
    exact ⟨r.drop 2, by rw [← List.take_append_drop 2 r, h.2]; rfl⟩
  · rintro ⟨r', rfl⟩
    simp [announcesWitness]

/-- The first byte of a count tells zero and one from the rest. -/
theorem compactSize_cons {n : Nat} :
    ∃ b t, compactSize n = b :: t ∧ (b = 0x00 ↔ n = 0) ∧ (b = 0x01 ↔ n = 1) := by
  unfold compactSize
  split
  · next hs =>
    have hnat : (UInt8.ofNat n).toNat = n := by
      rw [UInt8.toNat_ofNat']
      omega
    refine ⟨UInt8.ofNat n, [], rfl, ?_, ?_⟩
    · rw [← UInt8.toNat_inj, hnat]
      rfl
    · rw [← UInt8.toNat_inj, hnat]
      rfl
  · next hs =>
    have hno : n ≠ 0 ∧ n ≠ 1 := by omega
    split
    · exact ⟨_, _, rfl, iff_of_false (by decide) hno.1, iff_of_false (by decide) hno.2⟩
    · split
      · exact ⟨_, _, rfl, iff_of_false (by decide) hno.1, iff_of_false (by decide) hno.2⟩
      · exact ⟨_, _, rfl, iff_of_false (by decide) hno.1, iff_of_false (by decide) hno.2⟩

/-- The stripped layout of a transaction is taken for the other one exactly when it is bare. -/
theorem announces_encodeTxBody (tx : PsbtTransaction) :
    announcesWitness true (encodeTxBody false (PsbtTransaction.body tx)) = true ↔ Bare tx := by
  obtain ⟨b, t, hvin, hzero, -⟩ := @compactSize_cons tx.vin.length
  obtain ⟨b', t', hvout, -, hone⟩ := @compactSize_cons tx.vout.length
  simp only [announcesWitness_eq_true, encodeTxBody, PsbtTransaction.body, List.append_assoc, hvin,
    List.cons_append, List.cons.injEq, exists_and_left]
  constructor
  · rintro ⟨hb, r', hr⟩
    have hnil : tx.vin = [] := List.eq_nil_of_length_eq_zero (hzero.mp hb)
    have ht : t = [] := by
      have hlen := congrArg List.length hvin
      rw [hnil, compactSize_length, List.length_cons] at hlen
      exact List.eq_nil_of_length_eq_zero (Nat.succ.inj hlen).symm
    simp only [ht, hnil, hvout, List.flatMap_nil, List.nil_append, List.cons_append,
      List.cons.injEq] at hr
    exact ⟨hnil, hone.mp hr.1⟩
  · rintro ⟨hnil, hcount⟩
    have ht : t = [] := by
      have hlen := congrArg List.length hvin
      rw [hnil, compactSize_length, List.length_cons] at hlen
      exact List.eq_nil_of_length_eq_zero (Nat.succ.inj hlen).symm
    refine ⟨hzero.mpr (by rw [hnil, List.length_nil]), ?_⟩
    simp only [ht, hnil, hvout, hone.mpr hcount, List.flatMap_nil, List.nil_append,
      List.cons_append, List.cons.injEq, true_and, exists_eq']

theorem hasWitness_eq_false {tx : PsbtTransaction} (h : ¬ tx.hasWitness = true) :
    tx.vin.map bareInput = tx.vin := by
  refine map_bareInput fun i hi => ?_
  by_contra hne
  exact h (List.any_eq_true.mpr ⟨i, hi, by simpa using hne⟩)

/-- What the stripped layout is read back as, unless it is taken for the other one. -/
theorem parseTx_serializeStripped {tx : PsbtTransaction} {segwitAllowed : Bool}
    (hrange : BodyInRange false (PsbtTransaction.body tx)) (hbare : segwitAllowed = true → ¬ Bare tx) :
    parseTx tx.serializeStripped segwitAllowed = .ok { tx with vin := tx.vin.map bareInput } := by
  have hmark : announcesWitness segwitAllowed (encodeTxBody false (PsbtTransaction.body tx)) =
      false := by
    cases segwitAllowed with
    | false => rfl
    | true => exact Bool.not_eq_true _ ▸ fun h => hbare rfl ((announces_encodeTxBody tx).mp h)
  rw [serializeStripped_eq]
  refine parseTx_eq_ok.mpr ⟨packl tx.version, _, take_reads (packl_length _) _, ?_,
    (unpackl_packl tx.version).symm⟩
  rw [hmark]
  exact (readTxBody_reads hrange).all

/-- A transaction comes back from the wire layout as it was, unless it is bare. -/
theorem parseTx_serializeWire {tx : PsbtTransaction}
    (hrange : BodyInRange tx.hasWitness (PsbtTransaction.body tx)) (hbare : ¬ Bare tx) :
    parseTx tx.serializeWire true = .ok tx := by
  by_cases hw : tx.hasWitness = true
  · rw [hw] at hrange
    have hmark : announcesWitness true
        ([0x00, 0x01] ++ encodeTxBody true (PsbtTransaction.body tx)) = true :=
      announcesWitness_eq_true.mpr ⟨_, rfl⟩
    rw [serializeWire_eq hw]
    refine parseTx_eq_ok.mpr ⟨packl tx.version, _, take_reads (packl_length _) _, ?_,
      (unpackl_packl tx.version).symm⟩
    rw [hmark]
    exact (readTxBody_reads hrange).all
  · rw [Bool.not_eq_true] at hw
    rw [hw] at hrange
    have hwire : tx.serializeWire = tx.serializeStripped :=
      if_pos (by rw [hw]; exact Bool.false_ne_true)
    rw [hwire, parseTx_serializeStripped hrange fun _ => hbare,
      hasWitness_eq_false (by rw [hw]; exact Bool.false_ne_true)]

/-- What a layout of few bytes was written from is in its range. -/
theorem stripped_inRange {tx : PsbtTransaction} (hfits : Fits tx)
    (hsmall : tx.serializeStripped.length < 2 ^ 64) :
    BodyInRange false (PsbtTransaction.body tx) := by
  rw [serializeStripped_eq, List.length_append] at hsmall
  exact bodyInRange_of_small hfits (by omega)

theorem wire_inRange {tx : PsbtTransaction} (hfits : Fits tx)
    (hsmall : tx.serializeWire.length < 2 ^ 64) :
    BodyInRange tx.hasWitness (PsbtTransaction.body tx) := by
  by_cases hw : tx.hasWitness = true
  · rw [serializeWire_eq hw, List.length_append, List.length_append] at hsmall
    rw [hw]
    exact bodyInRange_of_small hfits (by omega)
  · have hwire : tx.serializeWire = tx.serializeStripped := if_pos hw
    rw [hwire] at hsmall
    rw [Bool.not_eq_true] at hw
    rw [hw]
    exact stripped_inRange hfits hsmall

theorem serializeWire_stripped {tx : PsbtTransaction} (h : ∀ i ∈ tx.vin, i.witness = []) :
    tx.serializeWire = tx.serializeStripped := by
  refine if_pos fun hw => ?_
  obtain ⟨i, hi, hne⟩ := List.any_eq_true.mp hw
  rw [h i hi] at hne
  cases hne

/-- What was read as a transaction has its hashes, and was not written in fewer bytes. -/
theorem parseTx_spec {data : Bytes} {segwitAllowed : Bool} {tx : PsbtTransaction}
    (h : parseTx data segwitAllowed = .ok tx) :
    Fits tx ∧ (segwitAllowed = false → ∀ i ∈ tx.vin, i.witness = []) ∧
      tx.serializeWire.length ≤ data.length := by
  obtain ⟨version, r, hversion, hbody, -⟩ := parseTx_eq_ok.mp h
  have h₁ : 4 + r.length ≤ data.length := take_weighs 4 data version r hversion
  obtain ⟨hfits, hshown, hlen⟩ := readTxBody_eq_ok hbody
  have hunseen : announcesWitness segwitAllowed r = false → ∀ i ∈ tx.vin, i.witness = [] := by
    intro hmark i hi
    rw [hmark] at hshown
    have hvin : tx.vin.map bareInput = tx.vin := congrArg Prod.fst hshown
    rw [← hvin] at hi
    obtain ⟨j, -, rfl⟩ := List.mem_map.mp hi
    rfl
  refine ⟨hfits, ?_, ?_⟩
  · rintro rfl
    exact hunseen rfl
  · cases hmark : announcesWitness segwitAllowed r with
    | false =>
      simp only [hmark, Bool.false_eq_true, if_false] at hlen
      rw [serializeWire_stripped (hunseen hmark), serializeStripped_eq, List.length_append,
        packl_length]
      simp only [List.length_nil] at hlen
      omega
    | true =>
      have hmarked : ∃ r', r = 0x00 :: 0x01 :: r' := by
        refine announcesWitness_eq_true.mp ?_
        cases segwitAllowed with
        | false => cases hmark
        | true => exact hmark
      obtain ⟨r', rfl⟩ := hmarked
      simp only [hmark, if_true, List.drop_succ_cons, List.drop_zero, List.length_nil] at hlen
      simp only [List.length_cons] at h₁
      by_cases hw : tx.hasWitness = true
      · rw [serializeWire_eq hw]
        simp only [List.length_append, List.length_cons, List.length_nil, packl_length]
        omega
      · have hwire : tx.serializeWire = tx.serializeStripped := if_pos hw
        rw [hwire, serializeStripped_eq]
        simp only [encodeTxBody, if_true, List.length_append, packl_length, Bool.false_eq_true,
          if_false, List.length_nil] at hlen ⊢
        omega

/-- A bare previous transaction does not come back: what it is written as announces stacks. -/
theorem parseTx_bare {tx : PsbtTransaction} (hbare : Bare tx) :
    parseTx tx.serializeWire true ≠ .ok tx := by
  intro h
  have hnone : ∀ i ∈ tx.vin, i.witness = [] := by
    rw [hbare.1]
    exact fun i hi => absurd hi List.not_mem_nil
  rw [serializeWire_stripped hnone, serializeStripped_eq] at h
  obtain ⟨version, r, hversion, hbody, -⟩ := parseTx_eq_ok.mp h
  have hr : r = encodeTxBody false (PsbtTransaction.body tx) := by
    have htake := (take_reads (packl_length tx.version) _).symm.trans hversion
    simp only [Except.ok.injEq, Prod.mk.injEq] at htake
    exact htake.2.symm
  have hmark := (announces_encodeTxBody tx).mpr hbare
  rw [hr, if_pos hmark, hmark] at hbody
  have hlen := (readTxBody_eq_ok hbody).2.2
  simp only [encodeTxBody, if_true, List.length_append, List.length_drop, Bool.false_eq_true,
    if_false, List.length_nil, packL_length] at hlen
  omega

/-- The value counts no input and one output, in either layout. -/
def CountsBare (value : Bytes) : Prop :=
  ∃ r₁ r₂, readCompactSize (if announcesWitness true (value.drop 4) then (value.drop 4).drop 2
    else value.drop 4) = .ok (0, r₁) ∧ readCompactSize r₁ = .ok (1, r₂)

theorem bare_iff_countsBare {value : Bytes} {tx : PsbtTransaction}
    (h : parseTx value true = .ok tx) : Bare tx ↔ CountsBare value := by
  obtain ⟨version, r, hversion, hbody, -⟩ := parseTx_eq_ok.mp h
  obtain ⟨hlen, rfl⟩ := take_eq_ok.mp hversion
  obtain ⟨⟨vin, r₁⟩, hvin, hbody⟩ := bind_eq_ok.mp hbody
  obtain ⟨⟨vout, r₂⟩, hvout, hbody⟩ := bind_eq_ok.mp hbody
  obtain ⟨⟨witnesses, r₃⟩, hwitnesses, hbody⟩ := bind_eq_ok.mp hbody
  obtain ⟨⟨locktime, r₄⟩, hlocktime, hbody⟩ := bind_eq_ok.mp hbody
  simp only [pure_eq_ok, Except.ok.injEq, Prod.mk.injEq, PsbtTransaction.body] at hbody
  obtain ⟨⟨htxin, htxout, -⟩, -⟩ := hbody
  obtain ⟨r₀, hcount, hmany⟩ := readCounted_eq_ok hvin
  obtain ⟨r₁', hcount', -⟩ := readCounted_eq_ok hvout
  have hstacks : vin.length = witnesses.length := by
    refine (readWitnesses_eq_ok (fun i hi => ?_) hwitnesses).1
    obtain ⟨s, s', hs⟩ := (readMany_spec hmany).2 i hi
    exact (readTxIn_eq_ok hs).2.1
  have hnil : tx.vin = [] ↔ vin.length = 0 := by
    rw [← htxin, ← List.length_eq_zero_iff, List.length_zipWith, ← hstacks, Nat.min_self]
  rw [Bare, CountsBare, hnil, ← htxout, ← hlen, List.drop_left]
  constructor
  · rintro ⟨hzero, hone⟩
    rw [hzero] at hcount hmany
    cases hmany
    rw [hone] at hcount'
    exact ⟨r₁, r₁', hcount, hcount'⟩
  · rintro ⟨s₁, s₂, hzero, hone⟩
    have heq := hcount.symm.trans hzero
    simp only [Except.ok.injEq, Prod.mk.injEq] at heq
    obtain ⟨hvinlen, rfl⟩ := heq
    rw [hvinlen] at hmany
    cases hmany
    have heq' := hcount'.symm.trans hone
    simp only [Except.ok.injEq, Prod.mk.injEq] at heq'
    exact ⟨hvinlen, heq'.1⟩

end Yubtc.PsbtReading
