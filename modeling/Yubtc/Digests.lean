import Yubtc.PsbtRoles
import Yubtc.PsbtReading
import Yubtc.Lib.Frames

/-!
# What a signature digest commits to

A digest is a hash of fixed-width fields, of hashes of lists and of one byte string whose length
nothing announces. As long as the hash tells the data of two runs apart, the digest tells their
transactions and contexts apart.
-/
namespace Yubtc.Digests

open LittleEndian Wire Errors ExceptRules Crypto Script Transaction PsbtData PsbtCodec PsbtRoles
  PsbtReading
open Readers (Reads)

/-- What either transaction class says of a transfer, witnesses and scripts of inputs apart. -/
structure Transfer where
  version : Int32
  vin : List SigIn
  vout : List PsbtTxOut
  locktime : UInt32
  deriving DecidableEq

namespace Transfer

def sigTx (t : Transfer) : SigTx :=
  ⟨t.version, t.vin, t.vout.map PsbtTxOut.serialize, t.locktime⟩

/-- Previous hashes have their width, and lengths and counts can be written. -/
structure InRange (t : Transfer) : Prop where
  txhash : ∀ i ∈ t.vin, i.txhash.length = 32
  vin : t.vin.length < 2 ^ 64
  script : ∀ o ∈ t.vout, o.script.length < 2 ^ 64
  vout : t.vout.length < 2 ^ 64

def prevouts (t : Transfer) : Bytes := t.vin.flatMap SigIn.outpoint

def sequences (t : Transfer) : Bytes := t.vin.flatMap fun i => packL i.sequence

def outputs (t : Transfer) : Bytes := t.vout.flatMap PsbtTxOut.serialize

end Transfer

def ownTransfer (tx : CTransaction) : Transfer :=
  ⟨tx.version, tx.vin.map CIn.sigIn, tx.vout.map fun o => ⟨o.amount, o.script⟩, tx.locktime⟩

def containerTransfer (tx : PsbtTransaction) : Transfer :=
  ⟨tx.version, tx.vin.map fun i => ⟨i.txhash, i.n, i.sequence⟩, tx.vout, tx.locktime⟩

theorem ownTransfer_sigTx (tx : CTransaction) : (ownTransfer tx).sigTx = tx.sigTx := by
  rw [Transfer.sigTx, ownTransfer, List.map_map]
  rfl

theorem containerTransfer_sigTx (tx : PsbtTransaction) : (containerTransfer tx).sigTx = tx.sigTx :=
  rfl

section Lists

variable {a b : Transfer}

theorem packLE_inj {w m n : Nat} (hm : m < 256 ^ w) (hn : n < 256 ^ w)
    (h : packLE w m = packLE w n) : m = n := by
  rw [← unpackLE_packLE w m hm, h, unpackLE_packLE w n hn]

theorem outpoint_inj {i j : SigIn} (hi : i.txhash.length = 32) (hj : j.txhash.length = 32)
    (h : i.outpoint = j.outpoint) : i.txhash = j.txhash ∧ i.n = j.n := by
  obtain ⟨hhash, hn⟩ := List.append_inj h (hi.trans hj.symm)
  exact ⟨hhash, packL_injective hn⟩

/-- Fields of one width, one for each element, are told apart. -/
theorem map_of_flatMap {α : Type} {w : Nat} (hw : 0 < w) {encode : α → Bytes} {l l' : List α}
    (hl : ∀ x ∈ l, (encode x).length = w) (hl' : ∀ x ∈ l', (encode x).length = w)
    (h : l.flatMap encode = l'.flatMap encode) : l.map encode = l'.map encode := by
  apply Frames.flatten_injective hw
  · intro f hf
    obtain ⟨x, hx, rfl⟩ := List.mem_map.mp hf
    exact hl x hx
  · intro f hf
    obtain ⟨x, hx, rfl⟩ := List.mem_map.mp hf
    exact hl' x hx
  · rw [← List.flatMap_def, ← List.flatMap_def, h]

/-- An input is its outpoint and its sequence. -/
theorem sigIn_list_inj {l l' : List SigIn} (hl : ∀ i ∈ l, i.txhash.length = 32)
    (hl' : ∀ i ∈ l', i.txhash.length = 32) (hout : l.map SigIn.outpoint = l'.map SigIn.outpoint)
    (hseq : (l.map fun i => packL i.sequence) = l'.map fun i => packL i.sequence) : l = l' := by
  induction l generalizing l' with
  | nil => exact (List.map_eq_nil_iff.mp hout.symm).symm
  | cons i l ih =>
    cases l' with
    | nil => cases hout
    | cons j l' =>
      obtain ⟨hij, hout⟩ := List.cons.inj hout
      obtain ⟨hsij, hseq⟩ := List.cons.inj hseq
      obtain ⟨hhash, hn⟩ := outpoint_inj (hl i List.mem_cons_self) (hl' j List.mem_cons_self) hij
      have hrest := ih (fun x hx => hl x (List.mem_cons_of_mem _ hx))
        (fun x hx => hl' x (List.mem_cons_of_mem _ hx)) hout hseq
      cases i
      cases j
      simp only [List.cons.injEq, SigIn.mk.injEq]
      exact ⟨⟨hhash, hn, packL_injective hsij⟩, hrest⟩

theorem vin_inj (ha : a.InRange) (hb : b.InRange) (hprev : a.prevouts = b.prevouts)
    (hseq : a.sequences = b.sequences) : a.vin = b.vin := by
  have hwidth : ∀ t : Transfer, t.InRange → ∀ i ∈ t.vin, i.outpoint.length = 36 := by
    intro t ht i hi
    rw [SigIn.outpoint, List.length_append, ht.txhash i hi, packL_length]
  have hout := map_of_flatMap (by decide) (hwidth a ha) (hwidth b hb) hprev
  have hsequence := map_of_flatMap (by decide) (fun i _ => packL_length i.sequence)
    (fun i _ => packL_length i.sequence) hseq
  exact sigIn_list_inj ha.txhash hb.txhash hout hsequence

theorem vout_inj (ha : a.InRange) (hb : b.InRange) (h : a.outputs = b.outputs) :
    a.vout = b.vout := by
  apply Readers.flatMap_unique (fun o ho => readTxOut_reads (ha.script o ho))
    (fun o ho => readTxOut_reads (hb.script o ho)) txOut_serialize_ne_nil h

theorem packl_injective : Function.Injective packl := by
  intro m n h
  rw [← unpackl_packl m, h, unpackl_packl n]

/-- The parts that every digest writes as they are or behind one hash each. -/
theorem transfer_inj (ha : a.InRange) (hb : b.InRange) (hversion : packl a.version = packl b.version)
    (hprev : a.prevouts = b.prevouts) (hseq : a.sequences = b.sequences)
    (hout : a.outputs = b.outputs) (hlock : packL a.locktime = packL b.locktime) : a = b := by
  cases a
  cases b
  simp only [Transfer.mk.injEq]
  exact ⟨packl_injective hversion, vin_inj ha hb hprev hseq, vout_inj ha hb hout,
    packL_injective hlock⟩

end Lists

/-- The hash tells the data apart. -/
def Distinguishes (P : Primitives) (data : List Bytes) : Prop :=
  ∀ x ∈ data, ∀ y ∈ data, P.sha256 x = P.sha256 y → x = y

instance (P : Primitives) (data : List Bytes) : Decidable (Distinguishes P data) :=
  inferInstanceAs (Decidable (∀ x ∈ data, ∀ y ∈ data, P.sha256 x = P.sha256 y → x = y))

/-- What a double hash of the data hashes. -/
def doublyHashed (P : Primitives) (data : List Bytes) : List Bytes :=
  data ++ data.map P.sha256

section Hashes

variable {P : Primitives} {data more : List Bytes}

theorem Distinguishes.dsha256 (h : Distinguishes P (doublyHashed P data ++ doublyHashed P more))
    {x y : Bytes} (hx : x ∈ data) (hy : y ∈ more) (heq : dsha256 P x = dsha256 P y) : x = y := by
  have hfirst : P.sha256 x = P.sha256 y :=
    h _ (List.mem_append_left _ (List.mem_append_right _ (List.mem_map_of_mem hx)))
      _ (List.mem_append_right _ (List.mem_append_right _ (List.mem_map_of_mem hy))) heq
  exact h x (List.mem_append_left _ (List.mem_append_left _ hx))
    y (List.mem_append_right _ (List.mem_append_left _ hy)) hfirst

theorem Distinguishes.sha256 (h : Distinguishes P (data ++ more)) {x y : Bytes} (hx : x ∈ data)
    (hy : y ∈ more) (heq : P.sha256 x = P.sha256 y) : x = y :=
  h x (List.mem_append_left _ hx) y (List.mem_append_right _ hy) heq

end Hashes

/-- A transaction and what signing one of its inputs adds. -/
structure Bip143Context where
  tx : Transfer
  index : Nat
  scriptCode : Bytes
  amount : Int

namespace Bip143Context

variable (P : Primitives)

def digest (c : Bip143Context) : Except Exn Bytes :=
  bip143SighashInRange P c.tx.sigTx c.index c.scriptCode c.amount

/-- The bytes before the script code. -/
def front (c : Bip143Context) (vin : SigIn) : Bytes :=
  packl c.tx.version ++ (dsha256 P c.tx.prevouts ++ (dsha256 P c.tx.sequences ++ vin.outpoint))

/-- The bytes after the script code. -/
def back (c : Bip143Context) (vin : SigIn) : Bytes :=
  packLE 8 c.amount.toNat ++ (packL vin.sequence ++ (dsha256 P c.tx.outputs ++
    (packL c.tx.locktime ++ sighashAllLE)))

/-- The data hashed on the way to the digest. -/
def hashed (c : Bip143Context) : List Bytes :=
  doublyHashed P ([c.tx.prevouts, c.tx.sequences, c.tx.outputs] ++
    c.tx.vin[c.index]?.toList.map fun vin => c.front P vin ++ c.scriptCode ++ c.back P vin)

variable {P}

theorem digest_eq_ok {c : Bip143Context} {d : Bytes} (h : c.digest P = .ok d) :
    ∃ vin, c.tx.vin[c.index]? = some vin ∧ (0 ≤ c.amount ∧ c.amount ≤ 0xffffffffffffffff) ∧
      d = dsha256 P (c.front P vin ++ c.scriptCode ++ c.back P vin) := by
  obtain ⟨vin, hvin, h⟩ := bind_eq_ok.mp h
  obtain ⟨amount, hamount, h⟩ := bind_eq_ok.mp h
  obtain ⟨hrange, hamount⟩ := reject_bind_eq_ok.mp hamount
  cases h
  cases hamount
  refine ⟨vin, orElseThrow_eq_ok.mp hvin, not_not.mp hrange, ?_⟩
  simp only [front, back, SigIn.outpoint, List.append_assoc]
  rfl

theorem front_length (hP : P.Lawful) {c : Bip143Context} {vin : SigIn}
    (h : vin.txhash.length = 32) : (c.front P vin).length = 104 := by
  simp [front, SigIn.outpoint, dsha256, hP.sha256_length, h]

theorem back_length (hP : P.Lawful) (c : Bip143Context) (vin : SigIn) :
    (c.back P vin).length = 52 := by
  simp [back, dsha256, hP.sha256_length, sighashAllLE]

/-- One digest, one transaction, signed input, script code and amount. -/
theorem digest_inj (hP : P.Lawful) {a b : Bip143Context} (ha : a.tx.InRange) (hb : b.tx.InRange)
    (hhash : Distinguishes P (a.hashed P ++ b.hashed P)) {d : Bytes}
    (hda : a.digest P = .ok d) (hdb : b.digest P = .ok d) :
    a.tx = b.tx ∧ a.tx.vin[a.index]? = b.tx.vin[b.index]? ∧ a.scriptCode = b.scriptCode ∧
      a.amount = b.amount := by
  obtain ⟨i, hi, harange, hadigest⟩ := digest_eq_ok hda
  obtain ⟨j, hj, hbrange, hbdigest⟩ := digest_eq_ok hdb
  have hi32 := ha.txhash i (List.mem_of_getElem? hi)
  have hj32 := hb.txhash j (List.mem_of_getElem? hj)
  have hpre : a.front P i ++ a.scriptCode ++ a.back P i = b.front P j ++ b.scriptCode ++ b.back P j :=
    hhash.dsha256 (by simp [hi]) (by simp [hj]) (hadigest.symm.trans hbdigest)
  -- The script code stands between two blocks of known widths.
  obtain ⟨hleft, hback⟩ := List.append_inj' hpre
    ((back_length hP a i).trans (back_length hP b j).symm)
  obtain ⟨hfront, hcode⟩ := List.append_inj hleft
    ((front_length hP hi32).trans (front_length hP hj32).symm)
  obtain ⟨hversion, hfront⟩ := List.append_inj hfront (by simp)
  obtain ⟨hprev, hfront⟩ := List.append_inj hfront (by simp [dsha256, hP.sha256_length])
  obtain ⟨hseq, houtpoint⟩ := List.append_inj hfront (by simp [dsha256, hP.sha256_length])
  obtain ⟨hamount, hback⟩ := List.append_inj hback (by simp)
  obtain ⟨hsequence, hback⟩ := List.append_inj hback (by simp)
  obtain ⟨hout, hback⟩ := List.append_inj hback (by simp [dsha256, hP.sha256_length])
  obtain ⟨hlock, -⟩ := List.append_inj hback (by simp)
  have htx : a.tx = b.tx := transfer_inj ha hb hversion (hhash.dsha256 (by simp) (by simp) hprev)
    (hhash.dsha256 (by simp) (by simp) hseq) (hhash.dsha256 (by simp) (by simp) hout) hlock
  have hij : i = j := by
    obtain ⟨hid, hn⟩ := outpoint_inj hi32 hj32 houtpoint
    cases i
    cases j
    simp only [SigIn.mk.injEq]
    exact ⟨hid, hn, packL_injective hsequence⟩
  have hnat := packLE_inj (w := 8) (by omega) (by omega) hamount
  exact ⟨htx, by rw [hi, hj, hij], hcode, by omega⟩

end Bip143Context

/-- A transaction, the spent outputs, and the leaf of a script-path spend. -/
structure TaprootContext where
  tx : Transfer
  index : Nat
  spend : List SpendInput
  leafHash : Option Bytes

namespace TaprootContext

variable (P : Primitives)

/-- The key-path digest, or the script-path one where there is a leaf. -/
def digest (c : TaprootContext) : Except Exn Bytes :=
  match c.leafHash with
  | none => taprootKeypathSighashInRange P c.tx.sigTx c.index c.spend
  | some leafHash => taprootScriptpathSighash P c.tx.sigTx c.index c.spend leafHash

/-- Lengths can be written, and the index fits its field. -/
structure InRange (c : TaprootContext) : Prop where
  tx : c.tx.InRange
  index : c.index < 2 ^ 32
  script : ∀ s ∈ c.spend, s.scriptPubkey.length < 2 ^ 64

def amounts (c : TaprootContext) : Bytes := c.spend.flatMap fun s => packLE 8 s.amount.toNat

def scripts (c : TaprootContext) : Bytes := c.spend.flatMap fun s => varBytes s.scriptPubkey

/-- What the leaf adds to the message, and the byte that announces it. -/
def spendType (c : TaprootContext) : UInt8 := if c.leafHash.isSome then 0x02 else 0x00

def extension (c : TaprootContext) : Bytes :=
  match c.leafHash with
  | none => []
  | some leafHash => leafHash ++ ([0x00] ++ packLE 4 0xffffffff)

def message (c : TaprootContext) : Bytes :=
  [0x00, sighashDefault] ++ (packl c.tx.version ++ (packL c.tx.locktime ++
    (P.sha256 c.tx.prevouts ++ (P.sha256 c.amounts ++ (P.sha256 c.scripts ++
      (P.sha256 c.tx.sequences ++ (P.sha256 c.tx.outputs ++
        ([c.spendType] ++ (packLE 4 c.index ++ c.extension)))))))))

/-- The message under the tag of the digest. -/
def tagged (c : TaprootContext) : Bytes :=
  P.sha256 (ascii "TapSighash") ++ P.sha256 (ascii "TapSighash") ++ c.message P

/-- The data hashed on the way to the digest. -/
def hashed (c : TaprootContext) : List Bytes :=
  [c.tx.prevouts, c.amounts, c.scripts, c.tx.sequences, c.tx.outputs, c.tagged P]

variable {P}

theorem amounts_eq_ok {spend : List SpendInput} {packed : List Bytes}
    (h : (spend.mapM fun s => packQInt s.amount) = .ok packed) :
    packed.flatten = spend.flatMap (fun s => packLE 8 s.amount.toNat) ∧
      ∀ s ∈ spend, 0 ≤ s.amount ∧ s.amount ≤ 0xffffffffffffffff := by
  induction spend generalizing packed with
  | nil =>
    cases h
    exact ⟨rfl, fun s hs => absurd hs List.not_mem_nil⟩
  | cons s spend ih =>
    rw [List.mapM_cons] at h
    obtain ⟨amount, hamount, h⟩ := bind_eq_ok.mp h
    obtain ⟨rest, hrest, h⟩ := bind_eq_ok.mp h
    cases h
    obtain ⟨hrange, hamount⟩ := reject_bind_eq_ok.mp hamount
    cases hamount
    obtain ⟨hflat, hall⟩ := ih hrest
    constructor
    · rw [List.flatten_cons, hflat, List.flatMap_cons]
    · intro x hx
      rcases List.mem_cons.mp hx with rfl | hx
      · exact not_not.mp hrange
      · exact hall x hx

theorem message_eq_ok {c : TaprootContext} {sigMsg : Bytes}
    (h : taprootSigMsg P c.tx.sigTx c.index c.spend c.spendType = .ok sigMsg) :
    (∀ s ∈ c.spend, 0 ≤ s.amount ∧ s.amount ≤ 0xffffffffffffffff) ∧
      0x00 :: (sigMsg ++ c.extension) = c.message P := by
  obtain ⟨fields, hfields, h⟩ := bind_eq_ok.mp h
  obtain ⟨packed, hpacked, hfields⟩ := bind_eq_ok.mp hfields
  obtain ⟨hflat, hall⟩ := amounts_eq_ok hpacked
  cases h
  cases hfields
  refine ⟨hall, ?_⟩
  simp only [message, hflat, List.append_assoc, List.cons_append, List.nil_append]
  rfl

theorem digest_eq_ok {c : TaprootContext} {d : Bytes} (h : c.digest P = .ok d) :
    (∀ s ∈ c.spend, 0 ≤ s.amount ∧ s.amount ≤ 0xffffffffffffffff) ∧ d = P.sha256 (c.tagged P) := by
  obtain ⟨tx, index, spend, leafHash⟩ := c
  cases leafHash with
  | none =>
    obtain ⟨sigMsg, hmsg, h⟩ := bind_eq_ok.mp h
    cases h
    obtain ⟨hall, heq⟩ := @message_eq_ok P ⟨tx, index, spend, none⟩ sigMsg hmsg
    refine ⟨hall, ?_⟩
    rw [tagged, ← heq, extension, List.append_nil]
    rfl
  | some leaf =>
    obtain ⟨-, h⟩ := reject_bind_eq_ok.mp h
    obtain ⟨-, h⟩ := reject_bind_eq_ok.mp h
    obtain ⟨sigMsg, hmsg, h⟩ := bind_eq_ok.mp h
    cases h
    obtain ⟨hall, heq⟩ := @message_eq_ok P ⟨tx, index, spend, some leaf⟩ sigMsg hmsg
    refine ⟨hall, ?_⟩
    rw [tagged, ← heq, extension, ← List.append_assoc sigMsg, ← List.append_assoc (sigMsg ++ leaf)]
    rfl

theorem spend_inj {l l' : List SpendInput}
    (hl : ∀ s ∈ l, 0 ≤ s.amount ∧ s.amount ≤ 0xffffffffffffffff)
    (hl' : ∀ s ∈ l', 0 ≤ s.amount ∧ s.amount ≤ 0xffffffffffffffff)
    (hamount : (l.map fun s => packLE 8 s.amount.toNat) = l'.map fun s => packLE 8 s.amount.toNat)
    (hscript : l.map SpendInput.scriptPubkey = l'.map SpendInput.scriptPubkey) : l = l' := by
  induction l generalizing l' with
  | nil => exact (List.map_eq_nil_iff.mp hamount.symm).symm
  | cons s l ih =>
    cases l' with
    | nil => cases hamount
    | cons s' l' =>
      obtain ⟨hs, hamount⟩ := List.cons.inj hamount
      obtain ⟨hss, hscript⟩ := List.cons.inj hscript
      have hrange := hl s List.mem_cons_self
      have hrange' := hl' s' List.mem_cons_self
      have hnat := packLE_inj (w := 8) (by omega) (by omega) hs
      have hrest := ih (fun x hx => hl x (List.mem_cons_of_mem _ hx))
        (fun x hx => hl' x (List.mem_cons_of_mem _ hx)) hamount hscript
      cases s
      cases s'
      simp only [List.cons.injEq, SpendInput.mk.injEq]
      exact ⟨⟨by dsimp only at hrange hrange' hnat; omega, hss⟩, hrest⟩

theorem scripts_inj {l l' : List SpendInput} (hl : ∀ s ∈ l, s.scriptPubkey.length < 2 ^ 64)
    (hl' : ∀ s ∈ l', s.scriptPubkey.length < 2 ^ 64)
    (h : (l.flatMap fun s => varBytes s.scriptPubkey) = l'.flatMap fun s => varBytes s.scriptPubkey) :
    l.map SpendInput.scriptPubkey = l'.map SpendInput.scriptPubkey := by
  have hreads : ∀ l : List SpendInput, (∀ s ∈ l, s.scriptPubkey.length < 2 ^ 64) →
      ∀ script ∈ l.map SpendInput.scriptPubkey, Reads readVarBytes (varBytes script) script := by
    intro l hl script hscript
    obtain ⟨s, hs, rfl⟩ := List.mem_map.mp hscript
    exact readVarBytes_reads (hl s hs)
  have hne : ∀ script, varBytes script ≠ [] := fun script hnil =>
    compactSize_ne_nil _ (List.append_eq_nil_iff.mp hnil).1
  apply Readers.flatMap_unique (hreads l hl) (hreads l' hl') hne
  rw [List.flatMap_map, List.flatMap_map]
  exact h

/-- One digest, one transaction, one list of spent outputs, one index, and one kind of spend with
its leaf. -/
theorem digest_inj (hP : P.Lawful) {a b : TaprootContext} (ha : a.InRange) (hb : b.InRange)
    (hhash : Distinguishes P (a.hashed P ++ b.hashed P)) {d : Bytes}
    (hda : a.digest P = .ok d) (hdb : b.digest P = .ok d) :
    a.tx = b.tx ∧ a.spend = b.spend ∧ a.index = b.index ∧ a.leafHash = b.leafHash := by
  obtain ⟨harange, hadigest⟩ := digest_eq_ok hda
  obtain ⟨hbrange, hbdigest⟩ := digest_eq_ok hdb
  have h32 := hP.sha256_length
  have htagged : a.tagged P = b.tagged P :=
    hhash.sha256 (by simp [hashed]) (by simp [hashed]) (hadigest.symm.trans hbdigest)
  obtain ⟨-, hmsg⟩ := List.append_inj htagged rfl
  obtain ⟨-, hmsg⟩ := List.append_inj hmsg rfl
  obtain ⟨hversion, hmsg⟩ := List.append_inj hmsg (by simp)
  obtain ⟨hlock, hmsg⟩ := List.append_inj hmsg (by simp)
  obtain ⟨hprev, hmsg⟩ := List.append_inj hmsg (by simp [h32])
  obtain ⟨hamounts, hmsg⟩ := List.append_inj hmsg (by simp [h32])
  obtain ⟨hscripts, hmsg⟩ := List.append_inj hmsg (by simp [h32])
  obtain ⟨hseq, hmsg⟩ := List.append_inj hmsg (by simp [h32])
  obtain ⟨hout, hmsg⟩ := List.append_inj hmsg (by simp [h32])
  obtain ⟨htype, hmsg⟩ := List.append_inj hmsg rfl
  obtain ⟨hindex, hext⟩ := List.append_inj hmsg (by simp)
  have htx : a.tx = b.tx := transfer_inj ha.tx hb.tx hversion
    (hhash.sha256 (by simp [hashed]) (by simp [hashed]) hprev)
    (hhash.sha256 (by simp [hashed]) (by simp [hashed]) hseq)
    (hhash.sha256 (by simp [hashed]) (by simp [hashed]) hout) hlock
  have hamounts : a.amounts = b.amounts :=
    hhash.sha256 (by simp [hashed]) (by simp [hashed]) hamounts
  have hscripts : a.scripts = b.scripts :=
    hhash.sha256 (by simp [hashed]) (by simp [hashed]) hscripts
  have hspend : a.spend = b.spend := by
    refine spend_inj harange hbrange ?_ (scripts_inj ha.script hb.script hscripts)
    exact map_of_flatMap (by decide) (fun s _ => packLE_length 8 _) (fun s _ => packLE_length 8 _)
      hamounts
  have hleaf : a.leafHash = b.leafHash := by
    obtain ⟨_, _, _, leaf⟩ := a
    obtain ⟨_, _, _, leaf'⟩ := b
    -- The byte of the spend type tells the two kinds apart, whatever the leaf hash.
    cases leaf with
    | none =>
      cases leaf' with
      | none => rfl
      | some leaf' => cases htype
    | some leaf =>
      cases leaf' with
      | none => cases htype
      | some leaf' => exact congrArg some (List.append_inj' hext rfl).1
  exact ⟨htx, hspend, packLE_inj ha.index hb.index hindex, hleaf⟩

end TaprootContext

section Legacy

/-- The inputs of the preimage: the script code in the signed one, nothing in the others. -/
def blankedVin (tx : PsbtTransaction) (index : Nat) (scriptCode : Bytes) : List PsbtTxIn :=
  tx.vin.mapIdx fun k vin =>
    { vin with script := if k = index then scriptCode else [], witness := [] }

theorem blankedSerialization_eq_ok {tx : PsbtTransaction} {index : Nat} {code bytes : Bytes}
    (h : blankedSerialization tx index code = .ok bytes) :
    index < tx.vin.length ∧
      bytes = PsbtTransaction.serializeStripped { tx with vin := blankedVin tx index code } := by
  obtain ⟨own, hown, h⟩ := bind_eq_ok.mp h
  cases h
  obtain ⟨hindex, hown⟩ := List.getElem?_eq_some_iff.mp (orElseThrow_eq_ok.mp hown)
  rw [List.length_map] at hindex
  rw [List.getElem_map] at hown
  refine ⟨hindex, congrArg (fun vin => PsbtTransaction.serializeStripped { tx with vin := vin }) ?_⟩
  apply List.ext_getElem (by simp [blankedVin])
  intro k hk hk'
  simp only [blankedVin, List.getElem_set, List.getElem_mapIdx, List.getElem_map, ← hown]
  by_cases hki : index = k
  · subst hki
    rw [if_pos rfl, if_pos rfl]
  · rw [if_neg hki, if_neg (Ne.symm hki)]

theorem readBareVin_reads {vin : List PsbtTxIn} (hcount : vin.length < 2 ^ 64)
    (h32 : ∀ i ∈ vin, i.txhash.length = 32) (hscript : ∀ i ∈ vin, i.script.length < 2 ^ 64)
    (hbare : ∀ i ∈ vin, i.witness = []) :
    Reads (readCounted readTxIn) (compactSize vin.length ++ vin.flatMap PsbtTxIn.serialize) vin := by
  have hread := readVin_reads hcount h32 hscript
  rwa [map_bareInput hbare] at hread

/-- The counts and lengths of a transaction can be written and its inputs carry no witness. -/
structure Writable (tx : PsbtTransaction) : Prop where
  txhash : ∀ i ∈ tx.vin, i.txhash.length = 32
  vin : tx.vin.length < 2 ^ 64
  vinScript : ∀ i ∈ tx.vin, i.script.length < 2 ^ 64
  bare : ∀ i ∈ tx.vin, i.witness = []
  vout : tx.vout.length < 2 ^ 64
  voutScript : ∀ o ∈ tx.vout, o.script.length < 2 ^ 64

/-- The stripped layout tells transactions without witnesses apart. -/
theorem serializeStripped_inj {tx tx' : PsbtTransaction} (h : Writable tx) (h' : Writable tx')
    (heq : tx.serializeStripped = tx'.serializeStripped) : tx = tx' := by
  simp only [PsbtTransaction.serializeStripped, List.append_assoc] at heq
  obtain ⟨hversion, heq⟩ := List.append_inj heq (by simp)
  rw [← List.append_assoc, ← List.append_assoc (compactSize tx'.vin.length)] at heq
  obtain ⟨hin, heq⟩ :=
    (readBareVin_reads h.vin h.txhash h.vinScript h.bare).unique
      (readBareVin_reads h'.vin h'.txhash h'.vinScript h'.bare) heq
  rw [← List.append_assoc, ← List.append_assoc (compactSize tx'.vout.length)] at heq
  obtain ⟨hout, hlock⟩ :=
    (readVout_reads h.vout h.voutScript).unique (readVout_reads h'.vout h'.voutScript) heq
  cases tx
  cases tx'
  simp only [PsbtTransaction.mk.injEq]
  exact ⟨packl_injective hversion, hin, hout, packL_injective hlock⟩

theorem blanked_writable {tx : PsbtTransaction} (h : (containerTransfer tx).InRange)
    {code : Bytes} (hcode : code.length < 2 ^ 64) (index : Nat) :
    Writable { tx with vin := blankedVin tx index code } := by
  have hmem : ∀ i ∈ blankedVin tx index code, i.txhash.length = 32 ∧ i.script.length < 2 ^ 64 ∧
      i.witness = [] := by
    intro i hi
    obtain ⟨k, hk, rfl⟩ := List.mem_mapIdx.mp hi
    refine ⟨h.txhash ⟨_, _, _⟩ (List.mem_map_of_mem (List.getElem_mem hk)), ?_, rfl⟩
    dsimp only
    split
    · exact hcode
    · exact Nat.two_pow_pos 64
  constructor
  · exact fun i hi => (hmem i hi).1
  · have hcount := h.vin
    rw [containerTransfer, List.length_map] at hcount
    rwa [blankedVin, List.length_mapIdx]
  · exact fun i hi => (hmem i hi).2.1
  · exact fun i hi => (hmem i hi).2.2
  · exact h.vout
  · exact h.script

/-- Blanking leaves outpoints and sequences. -/
theorem blankedVin_sigIns (tx : PsbtTransaction) (index : Nat) (code : Bytes) :
    ((blankedVin tx index code).map fun i => (⟨i.txhash, i.n, i.sequence⟩ : SigIn)) =
      tx.vin.map fun i => ⟨i.txhash, i.n, i.sequence⟩ := by
  apply List.ext_getElem (by simp [blankedVin])
  intro k hk hk'
  simp only [blankedVin, List.getElem_map, List.getElem_mapIdx]

/-- The script of an input of the preimage. -/
theorem blankedVin_script {tx : PsbtTransaction} {index k : Nat} {code : Bytes} {vin : PsbtTxIn}
    (h : (blankedVin tx index code)[k]? = some vin) :
    vin.script = if k = index then code else [] := by
  rw [blankedVin, List.getElem?_mapIdx] at h
  obtain ⟨own, -, rfl⟩ := Option.map_eq_some_iff.mp h
  rfl

/-- One preimage, one transaction, signed index and script code. -/
theorem blankedSerialization_inj {tx tx' : PsbtTransaction} (h : (containerTransfer tx).InRange)
    (h' : (containerTransfer tx').InRange) {index index' : Nat} {code code' bytes : Bytes}
    (hcode : code.length < 2 ^ 64) (hcode' : code'.length < 2 ^ 64) (hne : code ≠ [])
    (hb : blankedSerialization tx index code = .ok bytes)
    (hb' : blankedSerialization tx' index' code' = .ok bytes) :
    containerTransfer tx = containerTransfer tx' ∧ index = index' ∧ code = code' := by
  obtain ⟨hindex, hbytes⟩ := blankedSerialization_eq_ok hb
  obtain ⟨hindex', hbytes'⟩ := blankedSerialization_eq_ok hb'
  have heq := serializeStripped_inj (blanked_writable h hcode index)
    (blanked_writable h' hcode' index') (hbytes.symm.trans hbytes')
  simp only [PsbtTransaction.mk.injEq] at heq
  obtain ⟨hversion, hvin, hvout, hlock⟩ := heq
  have hsig := blankedVin_sigIns tx index code
  rw [hvin, blankedVin_sigIns] at hsig
  obtain ⟨vin, hsome⟩ : ∃ vin, (blankedVin tx index code)[index]? = some vin :=
    ⟨_, List.getElem?_eq_getElem (by rwa [blankedVin, List.length_mapIdx])⟩
  -- The signed input is the only one with a script.
  have hown := blankedVin_script hsome
  rw [hvin] at hsome
  have hother := blankedVin_script hsome
  rw [if_pos rfl] at hown
  rw [hown] at hother
  split at hother
  · next hi =>
    refine ⟨?_, hi, hother⟩
    rw [containerTransfer, containerTransfer, hversion, hvout, hlock, hsig]
  · exact absurd hother hne

end Legacy

/-- Transactions of either class are transfers (`ownTransfer_sigTx`, `containerTransfer_sigTx`).
With a hash that tells the data of two runs apart, equal BIP-143 digests come from one
transaction, signed input, script code and amount; equal Taproot digests come from one transaction,
list of spent outputs, index and kind of spend with its leaf; equal legacy preimages with a script
code come from one transaction, index and script code. -/
theorem digests_commit {P : Primitives} (hP : P.Lawful) :
    (∀ a b : Bip143Context, a.tx.InRange → b.tx.InRange →
      Distinguishes P (a.hashed P ++ b.hashed P) →
      ∀ d, a.digest P = .ok d → b.digest P = .ok d →
        a.tx = b.tx ∧ a.tx.vin[a.index]? = b.tx.vin[b.index]? ∧ a.scriptCode = b.scriptCode ∧
          a.amount = b.amount) ∧
    (∀ a b : TaprootContext, a.InRange → b.InRange → Distinguishes P (a.hashed P ++ b.hashed P) →
      ∀ d, a.digest P = .ok d → b.digest P = .ok d →
        a.tx = b.tx ∧ a.spend = b.spend ∧ a.index = b.index ∧ a.leafHash = b.leafHash) ∧
    ∀ tx tx' : PsbtTransaction, (containerTransfer tx).InRange → (containerTransfer tx').InRange →
      ∀ index index' code code', code.length < 2 ^ 64 → code'.length < 2 ^ 64 → code ≠ [] →
      ∀ bytes, blankedSerialization tx index code = .ok bytes →
        blankedSerialization tx' index' code' = .ok bytes →
        containerTransfer tx = containerTransfer tx' ∧ index = index' ∧ code = code' := by
  refine ⟨fun a b ha hb hhash d => Bip143Context.digest_inj hP ha hb hhash,
    fun a b ha hb hhash d => TaprootContext.digest_inj hP ha hb hhash, ?_⟩
  intro tx tx' h h' index index' code code' hcode hcode' hne bytes
  exact blankedSerialization_inj h h' hcode hcode' hne

/-- A transfer whose two inputs are the same. -/
def sampleTransfer : Transfer where
  version := 2
  vin := List.replicate 2 ⟨List.replicate 32 0x11, 0, 0xffffffff⟩
  vout := [⟨1000, [0x51]⟩]
  locktime := 0

def sampleContext (index : Nat) : Bip143Context := ⟨sampleTransfer, index, [0x51], 2000⟩

def sampleLeaf : TaprootContext :=
  ⟨sampleTransfer, 1, List.replicate 2 ⟨2000, [0x51]⟩, some [0x07]⟩

def sampleContainer : PsbtTransaction where
  version := 2
  vin := [⟨List.replicate 32 0x11, 0, [], 0xffffffff, []⟩]
  vout := [⟨1000, [0x51]⟩]
  locktime := 0

/-- The digests of the two equal inputs are the same, and so is what they sign. -/
theorem digests_commit_sample :
    (∃ d, (sampleContext 0).digest standIn = .ok d ∧ (sampleContext 1).digest standIn = .ok d ∧
      sampleTransfer.vin[(0 : Nat)]? = sampleTransfer.vin[(1 : Nat)]?) ∧
    (∃ d, sampleLeaf.digest standIn = .ok d ∧ sampleLeaf.index = 1) ∧
    ∃ bytes, blankedSerialization sampleContainer 0 [0x51] = .ok bytes ∧
      containerTransfer sampleContainer = containerTransfer sampleContainer := by
  have hrange : sampleTransfer.InRange := by
    constructor <;> decide
  have hcontainer : (containerTransfer sampleContainer).InRange := by
    constructor <;> decide
  have hleaf : sampleLeaf.InRange := ⟨hrange, by decide, by decide⟩
  obtain ⟨h143, h341, hlegacy⟩ := digests_commit standIn_lawful
  refine ⟨⟨_, rfl, rfl, ?_⟩, ⟨_, rfl, ?_⟩, ⟨_, rfl, ?_⟩⟩
  · exact (h143 (sampleContext 0) (sampleContext 1) hrange hrange (by decide +kernel) _ rfl rfl).2.1
  · exact (h341 sampleLeaf sampleLeaf hleaf hleaf (by decide +kernel) _ rfl rfl).2.2.1
  · exact (hlegacy sampleContainer sampleContainer hcontainer hcontainer 0 0 [0x51] [0x51] (by decide)
      (by decide) (by decide) _ rfl rfl).1

end Yubtc.Digests
