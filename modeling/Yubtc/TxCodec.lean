import Yubtc.PsbtReading

/-!
# Counts and transactions, written and read

Three writers of compact sizes and one reader; two transaction classes with two layouts each and
one parser.
-/
namespace Yubtc.TxCodec

open LittleEndian Wire Errors ExceptRules Transaction PsbtData PsbtCodec PsbtReading

/-- The oldest writer of the three. Its bounds are strict throughout. -/
def varint (n : Nat) : Bytes :=
  if n < 0xfd then packLE 1 n
  else if n < 0xffff then 0xfd :: packLE 2 n
  else if n < 0xffffffff then 0xfe :: packLE 4 n
  else 0xff :: packLE 8 n

/-- What the reader takes for `n`, with nothing left over. -/
def Encodes (data : Bytes) (n : Nat) : Prop := readCompactSize data = .ok (n, [])

/-- No encoding of `n` is shorter. -/
def Shortest (data : Bytes) (n : Nat) : Prop :=
  Encodes data n ∧ ∀ other, Encodes other n → data.length ≤ other.length

/-- The three writers write the same bytes, which are the shortest encoding. -/
def Agree (n : Nat) : Prop :=
  varint n = compactSize n ∧ writeCompactSize n = compactSize n ∧ Shortest (compactSize n) n

theorem compactSize_shortest {n : Nat} (h : n < 2 ^ 64) : Shortest (compactSize n) n := by
  constructor
  · exact (readCompactSize_reads h).all
  · intro other hother
    have hweight := readCompactSize_weighs other n [] hother
    rwa [List.length_nil, Nat.add_zero, ← compactSize_length] at hweight

/-- Where the strict bounds make no difference. -/
theorem varint_eq {n : Nat} (h16 : n ≠ 0xffff) (h32 : n ≠ 0xffffffff) :
    varint n = compactSize n := by
  have hshort : n < 0xffff ↔ n ≤ 0xffff := by omega
  have hlong : n < 0xffffffff ↔ n ≤ 0xffffffff := by omega
  simp only [varint, compactSize, hshort, hlong]

/-- The writers agree exactly off the two largest values of the middle widths. -/
theorem compactSizes_agree (n : Nat) (h : n < 2 ^ 64) :
    Agree n ↔ n ≠ 0xffff ∧ n ≠ 0xffffffff := by
  constructor
  · intro hagree
    constructor
    · rintro rfl
      exact absurd hagree.1 (by decide)
    · rintro rfl
      exact absurd hagree.1 (by decide)
  · intro hn
    exact ⟨varint_eq hn.1 hn.2, writeCompactSize_eq n, compactSize_shortest h⟩

theorem compactSizes_agree_sample : Agree 0xfffe ↔ 0xfffe ≠ 0xffff ∧ 0xfffe ≠ 0xffffffff :=
  compactSizes_agree 0xfffe (by decide)

/-- At the largest two-byte value. -/
theorem varint_widens : ¬ ∀ n < 2 ^ 64, Agree n := fun h =>
  absurd (h 0xffff (by decide)).1 (by decide)

/-- Every field of a transaction, witnesses included, can be written. -/
def InRange (tx : PsbtTransaction) : Prop := BodyInRange true (PsbtTransaction.body tx)

theorem InRange.layout {tx : PsbtTransaction} (h : InRange tx) (segwit : Bool) :
    BodyInRange segwit (PsbtTransaction.body tx) :=
  { h with
    stack := fun _ => h.stack rfl
    item := fun _ => h.item rfl }

def containerIn (i : CIn) : PsbtTxIn := ⟨i.txhash, i.n, i.script, i.sequence, i.witness⟩

def containerOut (o : COut) : PsbtTxOut := ⟨o.amount, o.script⟩

/-- A wallet's transaction in the container's class: the same fields. -/
def container (tx : CTransaction) : PsbtTransaction :=
  ⟨tx.version, tx.vin.map containerIn, tx.vout.map containerOut, tx.locktime⟩

theorem container_stripped (tx : CTransaction) :
    (container tx).serializeStripped = tx.serializeStripped := by
  simp only [PsbtTransaction.serializeStripped, container, List.length_map, List.flatMap_map,
    CTransaction.serializeStripped]
  rfl

theorem container_hasWitness (tx : CTransaction) : (container tx).hasWitness = tx.hasWitness := by
  rw [PsbtTransaction.hasWitness, container, List.any_map, CTransaction.hasWitness]
  rfl

theorem container_wire (tx : CTransaction) : (container tx).serializeWire = tx.serializeWire := by
  rw [PsbtTransaction.serializeWire, container_hasWitness, container_stripped,
    CTransaction.serializeWire]
  simp only [container, List.length_map, List.flatMap_map]
  rfl

/-- A transaction with an input comes back from both layouts, and the two classes write the same
bytes. -/
theorem transaction_codec :
    (∀ tx : PsbtTransaction, tx.vin ≠ [] → InRange tx →
      parseTx tx.serializeWire true = .ok tx ∧
        ∀ segwitAllowed, parseTx tx.serializeStripped segwitAllowed =
          .ok { tx with vin := tx.vin.map bareInput }) ∧
    ∀ tx : CTransaction, (container tx).serializeStripped = tx.serializeStripped ∧
      (container tx).serializeWire = tx.serializeWire := by
  constructor
  · intro tx hvin hrange
    have hbare : ¬ Bare tx := fun hb => hvin hb.1
    constructor
    · exact parseTx_serializeWire (hrange.layout _) hbare
    · intro segwitAllowed
      exact parseTx_serializeStripped (hrange.layout false) fun _ => hbare
  · intro tx
    exact ⟨container_stripped tx, container_wire tx⟩

/-- One input with a stack of two items. -/
def sampleTx : PsbtTransaction :=
  ⟨1, [⟨List.replicate 32 0x11, 3, [0x51], 0xffffffff, [[0xaa], []]⟩], [⟨7, [0x6a]⟩], 0⟩

theorem sampleTx_inRange : InRange sampleTx :=
  bodyInRange_of_small (by decide) (by decide +kernel)

theorem transaction_codec_sample : parseTx sampleTx.serializeWire true = .ok sampleTx :=
  (transaction_codec.1 sampleTx (List.cons_ne_nil _ _) sampleTx_inRange).1

end Yubtc.TxCodec
