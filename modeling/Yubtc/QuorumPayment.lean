import Yubtc.Confluence
import Yubtc.Confirmations
import Yubtc.Net
import Yubtc.Payment

/-!
# Paying from a quorum

`ms_create_psbt` from the UTXOs of the quorum address on: selection, pricing, the Creator and
the own signatures. The quorum's script and address, the own key and the transactions that the
backend returns are given.
-/
namespace Yubtc.QuorumPayment

open Wire Errors ExceptRules Crypto Script Transaction PsbtData PsbtCodec PsbtRoles QuorumPsbt
  Wallet FeeLoop Payment
open QuorumSigning (stripPsbt)

theorem fromHex_hex (data : Bytes) : fromHex (Net.hex data) = .ok data := by
  rw [fromHex, Net.toList_hex, Hex.decode_encode]

variable (P : Primitives)

/-- What the sizing reads of the quorum; the control block is derived offline. -/
def quorumSizing (form : MsForm) (m : Nat) (redeem : Bytes) : Except Exn QuorumSizing :=
  match form with
  | .p2tr => do
    let quorum ← extractMultisigTapscript redeem
    let controlBlock ← tapscriptControlBlock P msTapscriptInternalKey (tapscriptLeafHash P redeem)
    .ok ⟨form, m, redeem, quorum.2.length, controlBlock⟩
  | _ => .ok ⟨form, m, redeem, 0, []⟩

def msQuorumLockScript (form : MsForm) (redeem : Bytes) : Except Exn Bytes :=
  match form with
  | .p2sh => makeP2shLockScript (hash160 P redeem)
  | .p2wsh => makeP2wshLockScript (P.sha256 redeem)
  | .p2tr => do
    let outputKey ← tapscriptOutputKey P msTapscriptInternalKey (tapscriptLeafHash P redeem)
    makeP2trLockScript outputKey

/-- A selected output as an outpoint. A number that does not pack is refused here. -/
def outpointOf (u : Utxo) : Except Exn (Bytes × UInt32) := do
  let txhash ← fromHex u.tx
  reject (u.outN > 0xffffffff) .structError
  .ok (txhash, UInt32.ofNat u.outN)

/-- Whatever goes wrong with a previous transaction is one error that names it. -/
def rawTxError (txid message : String) : Exn := .valueError ("raw tx " ++ txid ++ ": " ++ message)

def fetchPrevTx (rawTransaction : String → Except Exn String) (txid : String) :
    Except Exn PsbtTransaction := do
  let rawHex ← rawTransaction txid
  match Hex.decode (Net.strip rawHex) with
  | .error pos => .error (rawTxError txid
      ("non-hexadecimal number found in fromhex() arg at position " ++ toString pos))
  | .ok raw => (parseTx raw true).mapError fun e => rawTxError txid e.message

/-- The Creator's entry for a selected output. An amount that does not pack is refused here. -/
def createRequest (form : MsForm) (redeem quorumScript : Bytes)
    (rawTransaction : String → Except Exn String) (u : Utxo) : Except Exn CreateInput := do
  reject (u.amount > 0xffffffffffffffff) .structError
  let amount := UInt64.ofNat u.amount
  match form with
  | .p2sh =>
    let prevTx ← fetchPrevTx rawTransaction u.tx
    .ok { amount, scriptPubkey := quorumScript, prevTx := some prevTx, redeemScript := some redeem }
  | .p2wsh =>
    .ok { amount, scriptPubkey := quorumScript, prevTx := none, witnessScript := some redeem }
  | .p2tr =>
    .ok { amount, scriptPubkey := quorumScript, prevTx := none,
          tapLeafScript := some (redeem ++ [tapscriptLeafVersion]) }

/-- The own key signs every input. -/
def signInputs (own : P.PrivateKey) (psbt : Psbt) : Except Exn Psbt :=
  (List.range psbt.inputs.length).foldlM
    (fun psbt i => Confluence.signStep P (i, own) psbt) psbt

theorem signInputs_strip {own : P.PrivateKey} {psbt psbt' : Psbt}
    (h : signInputs P own psbt = .ok psbt') : stripPsbt psbt' = stripPsbt psbt := by
  refine foldlM_induct (motive := fun _ (r : Psbt) => stripPsbt r = stripPsbt psbt) rfl ?_ h
  intro done i rest b b' _ hb hstep
  exact (Confluence.signStep_strip hstep).trans hb

/-- The outcome, with the PSBT before it is encoded. -/
structure MsPsbtOutcome where
  psbt : Psbt
  fee : Int
  cashback : Int
  amount : Int

variable (makeLockScript : String → Except Exn Bytes)

/-- What is known before the first fee is tried. -/
structure Prepared where
  quorumScript : Bytes
  sizing : QuorumSizing
  txhashes : List (Bytes × UInt32)

def prepare (form : MsForm) (m : Nat) (redeem : Bytes) (selected : List Utxo) :
    Except Exn Prepared := do
  let quorumScript ← msQuorumLockScript P form redeem
  let sizing ← quorumSizing P form m redeem
  let txhashes ← selected.mapM outpointOf
  .ok ⟨quorumScript, sizing, txhashes⟩

/-- The PSBT for outputs that are decided, with the own signatures. -/
def createSigned (rawTransaction : String → Except Exn String) (own : P.PrivateKey) (form : MsForm)
    (redeem : Bytes) (selected : List Utxo) (prepared : Prepared) (paid : VoutResult × Int) :
    Except Exn MsPsbtOutcome := do
  let createInputs ← selected.mapM
    (createRequest form redeem prepared.quorumScript rawTransaction)
  let unsigned := prepared.sizing.transaction prepared.txhashes false paid.1.vout
  let psbt ← createPsbt P unsigned createInputs
  let psbt ← signInputs P own psbt
  .ok ⟨psbt, paid.2, paid.1.cashback, paid.1.amount⟩

/-- `ms_create_psbt` for the outputs that are selected. -/
def MsCreatePsbt (rawTransaction : String → Except Exn String) (own : P.PrivateKey) (form : MsForm)
    (m : Nat) (redeem : Bytes) (quorumAddr dst : String) (selected : List Utxo)
    (amount feekb fee : Int) (result : Except Exn MsPsbtOutcome) : Prop :=
  match prepare P form m redeem selected with
  | .error e => result = .error e
  | .ok prepared =>
    ∃ paid, QuorumVout makeLockScript prepared.sizing prepared.txhashes quorumAddr dst
        (amountOf selected) amount feekb fee paid ∧
      result = paid >>= createSigned P rawTransaction own form redeem selected prepared

end Yubtc.QuorumPayment
