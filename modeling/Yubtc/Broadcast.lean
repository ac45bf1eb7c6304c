import Yubtc.Digests
import Yubtc.Payment
import Yubtc.Seeds

/-!
# Announcing and pushing a transaction

`send` prints the identifier of the transaction it has signed; `pushtx` is given the bytes of one
and prints a hash of them. The two agree on the transactions whose bytes carry no witness.
-/
namespace Yubtc.Broadcast

open Wire Text Errors Crypto Transaction Digests Payment

/-- What a command printed, what it handed to the network, and its exit status. The answer to its
prompt is given. -/
structure CommandRun where
  stdout : List Str
  stderr : List Str
  sent : Option Bytes
  status : Nat
  deriving DecidableEq

/-- `data.hex()`. -/
def hexText (data : Bytes) : Str := (Hex.encode data).map ofChar

/-- `bytes.fromhex`. What is no character is no digit. -/
def fromHexText (s : Str) : Except Nat Bytes := Hex.decode (s.map fun c => (char? c).getD '?')

/-- `{:0.08f}` of an amount in whole coins. -/
def btcText (satoshi : Int) : Str :=
  let fraction := toString (satoshi.natAbs % 100000000)
  let zeros := List.replicate (8 - fraction.length) '0'
  str (if satoshi < 0 then "-" else "") ++ str (toString (satoshi.natAbs / 100000000)) ++ str "." ++
    zeros.map ofChar ++ str fraction

def idLine (id : Bytes) : Str := str "id: " ++ hexText id

def notBroadcast : Str :=
  str ("Not broadcast: pass --broadcast (or run broadcastTx manually) " ++
    "to push this transaction to the network.")

variable (P : Primitives)

/-- `_announce_tx`. -/
def announceTx (result : TxResult) (dst : Str) (broadcast yes answer : Bool) : CommandRun :=
  let rawtx := result.tx.serializeWire
  let summary := str "send " ++ btcText result.amount ++ str " BTC to " ++ dst ++
    str " (cashback=" ++ btcText result.cashback ++ str ", fee=" ++ btcText result.fee ++
    str ", txsize=" ++ str (toString rawtx.length) ++ str ", vsize=" ++
    str (toString result.tx.vsize) ++ str ")"
  let lines := [idLine (result.tx.id P), summary, str "rawtx: " ++ hexText rawtx]
  if broadcast then ⟨lines, [], if yes || answer then some rawtx else none, 0⟩
  else ⟨lines ++ [notBroadcast], [], none, 0⟩

def refused (message : Str) : CommandRun := ⟨[], [message], none, 1⟩

/-- `pushtx` of the first line of its input, which can be missing. -/
def pushtx (line : Option Str) (yes answer : Bool) : CommandRun :=
  match line with
  | none => refused (str "No transaction on stdin")
  | some line =>
    let rawtxHex := Seeds.strip line
    if rawtxHex = [] then refused (str "No transaction on stdin")
    else
      match fromHexText rawtxHex with
      | .error pos => refused (str ("Invalid hex on stdin: non-hexadecimal number found in " ++
          "fromhex() arg at position " ++ toString pos))
      | .ok rawtx =>
        let txid := (dsha256 P rawtx).reverse
        let lines := [idLine txid, str "txsize=" ++ str (toString rawtx.length),
          str "rawtx: " ++ rawtxHex]
        if !yes && !answer then ⟨lines ++ [str "Cancelled"], [], none, 0⟩
        else ⟨lines, [], some rawtx, 0⟩

theorem fromHexText_hexText (data : Bytes) : fromHexText (hexText data) = .ok data := by
  have hchars : (hexText data).map (fun c => (char? c).getD '?') = Hex.encode data := by
    rw [hexText, List.map_map]
    have hid : ∀ c ∈ Hex.encode data, ((fun c => (char? c).getD '?') ∘ ofChar) c = id c :=
      fun c _ => by simp
    rw [List.map_congr_left hid, List.map_id]
  rw [fromHexText, hchars, Hex.decode_encode]

/-- A hexadecimal line has no blanks. -/
theorem strip_hexText (data : Bytes) : Seeds.strip (hexText data) = hexText data := by
  apply stripped_of_none
  intro c hc
  obtain ⟨digit, hdigit, rfl⟩ := List.mem_map.mp hc
  obtain ⟨d, hd, rfl⟩ := Hex.digit_of_mem_encode hdigit
  exact isSpace_digitChar hd

theorem hexText_injective : Function.Injective hexText := by
  intro a b h
  have hback := congrArg fromHexText h
  rw [fromHexText_hexText, fromHexText_hexText] at hback
  exact Except.ok.inj hback

theorem idLine_injective : Function.Injective idLine := fun _ _ h =>
  hexText_injective (List.append_cancel_left h)

variable {P}

/-- The line `pushtx` prints for bytes in hexadecimal. -/
theorem pushtx_head {rawtx : Bytes} (hne : rawtx ≠ []) (yes answer : Bool) :
    (pushtx P (some (hexText rawtx)) yes answer).stdout.head? =
      some (idLine (dsha256 P rawtx).reverse) := by
  have hline : hexText rawtx ≠ [] := by
    intro hnil
    exact hne (hexText_injective hnil)
  rw [pushtx]
  dsimp only
  rw [strip_hexText, if_neg hline, fromHexText_hexText]
  dsimp only
  split <;> rfl

theorem announceTx_head (result : TxResult) (dst : Str) (broadcast yes answer : Bool) :
    (announceTx P result dst broadcast yes answer).stdout.head? =
      some (idLine (result.tx.id P)) := by
  unfold announceTx
  dsimp only
  split <;> rfl

/-- A witness makes the wire layout longer. -/
theorem serializeWire_eq_iff (tx : CTransaction) :
    tx.serializeWire = tx.serializeStripped ↔ tx.hasWitness = false := by
  constructor
  · intro heq
    by_contra hw
    rw [Bool.not_eq_false] at hw
    have hlen := congrArg List.length heq
    rw [Sizes.serializeWire_length hw] at hlen
    omega
  · intro hw
    exact if_pos (by rw [hw]; exact Bool.false_ne_true)

variable (P) in
/-- Whatever is answered, `pushtx` prints for the bytes of the transaction the line that names its
identifier, which is the line that `send` prints. -/
def ReportsId (tx : CTransaction) : Prop :=
  ∀ yes answer, (pushtx P (some (hexText tx.serializeWire)) yes answer).stdout.head? =
      some (idLine (tx.id P)) ∧
    ∀ amount cashback fee dst broadcast,
      (announceTx P ⟨tx, cashback, amount, fee⟩ dst broadcast yes answer).stdout.head? =
        (pushtx P (some (hexText tx.serializeWire)) yes answer).stdout.head?

theorem serializeWire_ne_nil (tx : CTransaction) : tx.serializeWire ≠ [] := by
  intro hnil
  have hlen := congrArg List.length hnil
  by_cases hw : tx.hasWitness = true
  · rw [Sizes.serializeWire_length hw, Sizes.serializeStripped_length, List.length_nil] at hlen
    omega
  · rw [Bool.not_eq_true] at hw
    rw [(serializeWire_eq_iff tx).mpr hw, Sizes.serializeStripped_length, List.length_nil] at hlen
    omega

/-- What `pushtx` prints is the identifier that covers the witnesses. -/
theorem pushtx_prints_wtxid (tx : CTransaction) (yes answer : Bool) :
    (pushtx P (some (hexText tx.serializeWire)) yes answer).stdout.head? =
      some (idLine (tx.wtxid P)) :=
  pushtx_head (serializeWire_ne_nil tx) yes answer

theorem reportsId_iff_wtxid (tx : CTransaction) : ReportsId P tx ↔ tx.wtxid P = tx.id P := by
  constructor
  · intro h
    have hline := (h false false).1
    rw [pushtx_prints_wtxid] at hline
    exact idLine_injective (Option.some.inj hline)
  · intro hid yes answer
    rw [pushtx_prints_wtxid, hid]
    exact ⟨rfl, fun amount cashback fee dst broadcast => announceTx_head _ dst broadcast yes answer⟩

variable (P) in
/-- With a hash that tells the layouts apart, the identifier is reported exactly for transactions
without a witness. -/
theorem pushtx_reports_iff (tx : CTransaction)
    (hhash : Distinguishes P (doublyHashed P [tx.serializeWire, tx.serializeStripped])) :
    ReportsId P tx ↔ tx.hasWitness = false := by
  rw [reportsId_iff_wtxid, ← serializeWire_eq_iff]
  constructor
  · intro hid
    have hsecond : dsha256 P tx.serializeWire = dsha256 P tx.serializeStripped :=
      List.reverse_injective hid
    have hfirst : P.sha256 tx.serializeWire = P.sha256 tx.serializeStripped :=
      hhash _ (by simp [doublyHashed]) _ (by simp [doublyHashed]) hsecond
    exact hhash _ (by simp [doublyHashed]) _ (by simp [doublyHashed]) hfirst
  · exact congrArg fun data => (dsha256 P data).reverse

/-- One input with a stack, no output. -/
def witnessTx : CTransaction where
  vin := [⟨List.replicate 32 0x11, rfl, 0, [], 0xffffffff, [[0x01]]⟩]
  vout := []
  locktime := 0

theorem witnessTx_distinguished : Distinguishes standIn
    (doublyHashed standIn [witnessTx.serializeWire, witnessTx.serializeStripped]) := by
  decide +kernel

theorem pushtx_reports_sample : ReportsId standIn witnessTx ↔ witnessTx.hasWitness = false :=
  pushtx_reports_iff standIn witnessTx witnessTx_distinguished

/-- A transaction with a witness is announced under one identifier and pushed under another. -/
theorem witness_renames : ¬ ∀ tx : CTransaction, ReportsId standIn tx := by
  intro h
  have hid := (reportsId_iff_wtxid witnessTx).mp (h witnessTx)
  exact absurd hid (by decide +kernel)

end Yubtc.Broadcast
