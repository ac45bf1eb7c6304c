import Yubtc.Lib.Hex
import Yubtc.Lib.Json
import Yubtc.Text

/-!
# Network backends

A service is anything that answers HTTP calls and changes as it likes between them. A
backend turns one request of the wallet into calls and decodes what comes back; every
failure is carried as the text that the failover trail prints.
-/
namespace Yubtc.Net

open DynamicJson Wire Text

variable {σ : Type}

/-- `bytes.hex()`. -/
def hex (data : Bytes) : String := String.ofList (Hex.encode data)

def isBlank (c : Char) : Bool := isSpace (ofChar c)

/-- `str.strip()`. -/
def strip (text : String) : List Char := (text.toList.dropWhile isBlank).rdropWhile isBlank

@[simp] theorem toList_hex (data : Bytes) : (hex data).toList = Hex.encode data :=
  String.toList_ofList

theorem strip_hex (data : Bytes) : strip (hex data) = Hex.encode data := by
  rw [strip, toList_hex]
  apply stripped_of_none
  intro c hc
  obtain ⟨d, hd, rfl⟩ := Hex.digit_of_mem_encode hc
  exact isSpace_digitChar hd

def digitOf (c : Char) : Option Nat := decimal? (ofChar c)

/-- Decimal digits, single underscores allowed between two of them. -/
def intDigits : Nat → List Char → Option Nat
  | acc, [] => some acc
  | acc, '_' :: c :: rest => do
    let digit ← digitOf c
    intDigits (10 * acc + digit) rest
  | acc, c :: rest => do
    let digit ← digitOf c
    intDigits (10 * acc + digit) rest

def natLiteral : List Char → Option Nat
  | [] => none
  | c :: rest => do
    let digit ← digitOf c
    intDigits digit rest

/-- The number that a text without blanks at its ends spells. -/
def intLiteral : List Char → Option Int
  | '-' :: rest => (natLiteral rest).map fun n => -(n : Int)
  | '+' :: rest => (natLiteral rest).map Int.ofNat
  | text => (natLiteral text).map Int.ofNat

/-- `int(text.strip())`, which takes 4300 digits at most, or the message of its `ValueError`. -/
def intOf (text : String) : Except String Int :=
  let digits := (strip text).countP fun c => (digitOf c).isSome
  match intLiteral (strip text) with
  | none =>
    .error ("invalid literal for int() with base 10: '" ++ String.ofList (strip text) ++ "'")
  | some n =>
    if digits ≤ 4300 then .ok n
    else .error ("Exceeds the limit (4300 digits) for integer string conversion: value has " ++
      toString digits ++ " digits; use sys.set_int_max_str_digits() to increase the limit")

/-- What one call brings back. `json` is what `response.json()` gives: the decoded body, or
the text of the decoding failure. -/
structure Response where
  statusCode : Nat
  text : String
  json : Except String Json
  /-- The header of that name. -/
  retryAfter : Option String := none

/-- `response.ok`: neither a client nor a server error. -/
def Response.ok (response : Response) : Bool :=
  !(400 ≤ response.statusCode && response.statusCode < 600)

inductive HttpCall where
  | get (url : String)
  | post (url body : String)

inductive HttpReply where
  | connectionError (message : String)
  | timeout (message : String)
  | otherError (message : String)
  | response (response : Response)

/-- The network as the program meets it. -/
structure Http (σ : Type) where
  send : HttpCall → σ → HttpReply × σ

/-- `_is_retryable_status`. -/
def isRetryableStatus (statusCode : Nat) : Bool :=
  decide (500 ≤ statusCode) || statusCode == 408 || statusCode == 429

/-- Whether one more attempt is made after this reply. -/
def HttpReply.retried : HttpReply → Bool
  | connectionError _ | timeout _ => true
  | otherError _ => false
  | response r => isRetryableStatus r.statusCode

/-- What the caller sees of the last reply. -/
def HttpReply.final : HttpReply → Except String Response
  | connectionError message | timeout message | otherError message => .error message
  | response r => .ok r

def httpRetryBaseDelay : Rat := 1 / 2

def httpRetryMaxDelay : Rat := 2

def httpRetryAfterMax : Int := 30

/-- `_backoff_delay`, in seconds. The power is made a float, which it is too large for from
`2 ** 1024` on; the product and the minimum are exact. -/
def backoffDelay (attempt : Nat) : Option Rat :=
  if attempt < 1024 then some (min (httpRetryBaseDelay * 2 ^ attempt) httpRetryMaxDelay) else none

/-- `_retry_after_sane`. -/
def retryAfterSane (response : Response) : Option Rat := do
  let raw ← response.retryAfter
  let secs ← (intOf raw).toOption
  if 0 ≤ secs ∧ secs ≤ httpRetryAfterMax then some secs else none

/-- The wait after a reply that is retried; only rate limiting lets the server choose it. -/
def delayAfter (attempt : Nat) (reply : HttpReply) : Option Rat := do
  let delay ← backoffDelay attempt
  match reply with
  | .response r => if r.statusCode = 429 then some ((retryAfterSane r).getD delay) else some delay
  | _ => some delay

/-- What the retry layer does, in order. -/
inductive Event where
  | attempt (reply : HttpReply)
  | sleep (seconds : Rat)

/-- The last reply, returned or raised, or the failure of the delay's own arithmetic. -/
inductive Ending where
  | reply (last : HttpReply)
  | overflowError

def Ending.final : Ending → Except String Response
  | reply last => last.final
  | overflowError => .error "int too large to convert to float"

structure Requested (σ : Type) where
  ending : Ending
  trace : List Event
  state : σ

def Requested.after (run : Requested σ) (events : List Event) : Requested σ :=
  { run with trace := events ++ run.trace }

/-- The loop of `_request_with_retries`, at an attempt with this many retries left. -/
def requestLoop (send : σ → HttpReply × σ) : Nat → Nat → σ → Requested σ
  | _, 0, s => ⟨.reply (send s).1, [.attempt (send s).1], (send s).2⟩
  | attempt, left + 1, s =>
    if (send s).1.retried then
      match delayAfter attempt (send s).1 with
      | some delay =>
        (requestLoop send (attempt + 1) left (send s).2).after
          [.attempt (send s).1, .sleep delay]
      | none => ⟨.overflowError, [.attempt (send s).1], (send s).2⟩
    else ⟨.reply (send s).1, [.attempt (send s).1], (send s).2⟩

/-- `_request_with_retries`. -/
def requestWithRetries (send : σ → HttpReply × σ) (retries : Nat) (s : σ) :
    Except String Response × σ :=
  let run := requestLoop send 0 retries s
  (run.ending.final, run.state)

/-- The four operations of a backend. -/
inductive Request where
  | getUnspent (address : String)
  | getInfo (address : String)
  | sendTx (rawtx : Bytes)
  | rawTransaction (txid : String)
  deriving DecidableEq

/-- What the wallet talks to: a name and the answer to each request. -/
structure NetworkBackend (σ : Type) where
  name : String
  request : Request → σ → Except String Json × σ

/-- The failure text of a refused broadcast. -/
def broadcastFailed (response : Response) : String :=
  "broadcast failed: status=" ++ toString response.statusCode ++ " body=" ++ response.text

def decodeSent (response : Response) : Except String Json :=
  if response.ok then .ok .null else .error (broadcastFailed response)

/-- The body is the hex string, whatever the status. -/
def decodeRawTransaction (response : Response) : Except String Json :=
  .ok (.str (String.ofList (strip response.text)))

structure BlockchainInfoBackend where
  baseUrl : String := "https://blockchain.info"
  retries : Nat := 3

namespace BlockchainInfoBackend

/-- `response.json()['unspent_outputs']`; a body that is not JSON gives `[]`. -/
def decodeUnspent (response : Response) : Except String Json :=
  match response.json with
  | .error _ => .ok (.arr [])
  | .ok body => body.subscript "unspent_outputs"

/-- `response.json()[address]`; a body that is not JSON gives `{'total_received': 0}`. -/
def decodeInfo (address : String) (response : Response) : Except String Json :=
  match response.json with
  | .error _ => .ok (.obj [("total_received", .num 0)])
  | .ok body => body.subscript address

/-- The call a request makes. -/
def call (self : BlockchainInfoBackend) : Request → HttpCall
  | .getUnspent address => .get (self.baseUrl ++ "/unspent?active=" ++ address)
  | .getInfo address => .get (self.baseUrl ++ "/balance?active=" ++ address)
  | .sendTx rawtx => .post (self.baseUrl ++ "/pushtx") ("tx=" ++ hex rawtx)
  | .rawTransaction txid => .get (self.baseUrl ++ "/rawtx/" ++ txid ++ "?format=hex")

def decode : Request → Response → Except String Json
  | .getUnspent _ => decodeUnspent
  | .getInfo address => decodeInfo address
  | .sendTx _ => decodeSent
  | .rawTransaction _ => decodeRawTransaction

def request (self : BlockchainInfoBackend) (http : Http σ) (r : Request) (s : σ) :
    Except String Json × σ :=
  let reply := requestWithRetries (http.send (self.call r)) self.retries s
  (reply.1 >>= decode r, reply.2)

def backend (self : BlockchainInfoBackend) (http : Http σ) : NetworkBackend σ where
  name := "blockchain.info"
  request := self.request http

end BlockchainInfoBackend

/-- The class name decides `name()`; the lock script of an address is looked up elsewhere. -/
structure EsploraBackend where
  name : String := "esplora"
  baseUrl : String
  retries : Nat := 3
  makeLockScript : String → Except String Bytes

namespace EsploraBackend

/-- `max(0, tip - block_height + 1) if tip else 0`. -/
def confirmationsOf (tip : Int) (blockHeight : Json) : Except String Json :=
  if tip = 0 then .ok (.num 0)
  else
    match blockHeight.number? with
    | some height => .ok (.num (max 0 (tip - height + 1)))
    | none => .error (Json.operandError "-" (.num tip) blockHeight)

/-- Unconfirmed entries have no confirmations. -/
def confirmationsIn (tip : Int) (status : Json) : Except String Json := do
  let confirmed ← status.get "confirmed"
  if confirmed.truthy then do
    let blockHeight ← status.get "block_height"
    confirmationsOf tip (blockHeight.or (.num 0))
  else .ok (.num 0)

/-- One entry of the UTXO endpoint in the wallet's shape. -/
def decodeEntry (tip : Int) (script : Bytes) (u : Json) : Except String Json := do
  let status ← u.get "status"
  let confirmations ← confirmationsIn tip (status.or (.obj []))
  let txid ← u.subscript "txid"
  let vout ← u.subscript "vout"
  let value ← u.subscript "value"
  .ok (.obj [("tx_hash", txid), ("tx_output_n", vout), ("value", value),
    ("script", .str (hex script)), ("confirmations", confirmations)])

/-- The entries, once the tip and the script of the address are known. -/
def decodeEntries (tip : Int) (script : Bytes) (utxos : Json) : Except String Json := do
  let entries ← utxos.iter
  let out ← entries.mapM (decodeEntry tip script)
  .ok (.arr out)

/-- `_tip_height`: the body is the height as text. -/
def decodeTip (response : Response) : Except String Int := intOf response.text

/-- One side of the address statistics: `stats.get(side) or {}`. -/
def side (stats : Json) (name : String) : Except String Json := do
  let part ← stats.get name
  .ok (part.or (.obj []))

/-- `part.get(field) or 0`. -/
def count (part : Json) (field : String) : Except String Json := do
  let value ← part.get field
  .ok (value.or (.num 0))

def decodeInfo (response : Response) : Except String Json := do
  let stats ← response.json
  let chain ← side stats "chain_stats"
  let mempool ← side stats "mempool_stats"
  let chainReceived ← count chain "funded_txo_sum"
  let mempoolReceived ← count mempool "funded_txo_sum"
  let totalReceived ← chainReceived.add mempoolReceived
  let chainSpent ← count chain "spent_txo_sum"
  let mempoolSpent ← count mempool "spent_txo_sum"
  let chainTxs ← count chain "tx_count"
  let mempoolTxs ← count mempool "tx_count"
  let nTx ← chainTxs.add mempoolTxs
  let left ← totalReceived.sub chainSpent
  let finalBalance ← left.sub mempoolSpent
  .ok (.obj [("total_received", totalReceived), ("final_balance", finalBalance), ("n_tx", nTx)])

/-- The tip is looked up only when there is an entry to count from it. -/
def getUnspent (self : EsploraBackend) (http : Http σ) (address : String) (s : σ) :
    Except String Json × σ :=
  let main := requestWithRetries
    (http.send (.get (self.baseUrl ++ "/address/" ++ address ++ "/utxo"))) self.retries s
  match main.1 >>= Response.json with
  | .error e => (.error e, main.2)
  | .ok utxos =>
    if utxos.truthy then
      let tip := requestWithRetries
        (http.send (.get (self.baseUrl ++ "/blocks/tip/height"))) self.retries main.2
      (do
        let height ← tip.1 >>= decodeTip
        let script ← self.makeLockScript address
        decodeEntries height script utxos, tip.2)
    else (.ok (.arr []), main.2)

def request (self : EsploraBackend) (http : Http σ) (r : Request) (s : σ) :
    Except String Json × σ :=
  match r with
  | .getUnspent address => self.getUnspent http address s
  | .getInfo address =>
    let reply := requestWithRetries
      (http.send (.get (self.baseUrl ++ "/address/" ++ address))) self.retries s
    (reply.1 >>= decodeInfo, reply.2)
  | .sendTx rawtx =>
    let reply := requestWithRetries
      (http.send (.post (self.baseUrl ++ "/tx") (hex rawtx))) self.retries s
    (reply.1 >>= decodeSent, reply.2)
  | .rawTransaction txid =>
    let reply := requestWithRetries
      (http.send (.get (self.baseUrl ++ "/tx/" ++ txid ++ "/hex"))) self.retries s
    (reply.1 >>= decodeRawTransaction, reply.2)

def backend (self : EsploraBackend) (http : Http σ) : NetworkBackend σ where
  name := self.name
  request := self.request http

end EsploraBackend

end Yubtc.Net
