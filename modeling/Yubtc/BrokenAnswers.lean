import Yubtc.Lib.ExceptRules
import Yubtc.Failover

/-!
# Broken answers

What a well-formed answer of each service is, which answers the backends read as data, and
that the two differ: exactly the answers that are readable and not well-formed slip through
the failover.
-/
namespace Yubtc.BrokenAnswers

open ExceptRules DynamicJson DynamicJson.Json Wire Net Failover

variable {σ : Type}

/-- The backends that talk to a service. -/
inductive Provider where
  | blockchainInfo (self : BlockchainInfoBackend)
  | esplora (self : EsploraBackend)

def Provider.backend (http : Http σ) : Provider → NetworkBackend σ
  | .blockchainInfo self => self.backend http
  | .esplora self => self.backend http

/-- The last reply to the call a request makes, and the one to the tip lookup that an Esplora
backend may make after it. -/
structure Received where
  main : Except String Response
  tip : Except String Response

def EsploraCall (self : EsploraBackend) : Request → HttpCall
  | .getUnspent address => .get (self.baseUrl ++ "/address/" ++ address ++ "/utxo")
  | .getInfo address => .get (self.baseUrl ++ "/address/" ++ address)
  | .sendTx rawtx => .post (self.baseUrl ++ "/tx") (hex rawtx)
  | .rawTransaction txid => .get (self.baseUrl ++ "/tx/" ++ txid ++ "/hex")

/-- What a provider receives when it is asked in state `s`. -/
def Provider.received (http : Http σ) (r : Request) (s : σ) : Provider → Received
  | .blockchainInfo self =>
    let main := requestWithRetries (http.send (self.call r)) self.retries s
    ⟨main.1, main.1⟩
  | .esplora self =>
    let main := requestWithRetries (http.send (EsploraCall self r)) self.retries s
    ⟨main.1, (requestWithRetries
      (http.send (.get (self.baseUrl ++ "/blocks/tip/height"))) self.retries main.2).1⟩

/-- An answer that is not an error, with a JSON body of which `fields` holds. -/
def Accepted (reply : Except String Response) (fields : Json → Prop) : Prop :=
  ∃ response body, reply = .ok response ∧ response.ok = true ∧ response.json = .ok body ∧ fields body

/-- The fields of an unspent output that the wallet reads. -/
def UnspentEntry (u : Json) : Prop :=
  ∀ key ∈ ["tx_hash", "tx_output_n", "value", "script", "confirmations"], u.Has key

/-- The fields of an entry of the Esplora UTXO endpoint. -/
def EsploraEntry (u : Json) : Prop :=
  (∀ key ∈ ["txid", "vout", "value"], u.Has key) ∧
    ∃ status confirmed, u.field? "status" = some status ∧
      status.field? "confirmed" = some confirmed ∧
      (confirmed.truthy = true → status.Has "block_height")

/-- The totals of one side of the Esplora address statistics. -/
def EsploraSide (stats : Json) (name : String) : Prop :=
  ∃ part, stats.field? name = some part ∧
    ∀ key ∈ ["funded_txo_sum", "spent_txo_sum", "tx_count"], part.Has key

/-- A well-formed answer to the request: no error status, a JSON body, the fields of the
answer. The height of the tip and a raw transaction are plain text. -/
def WellFormed (received : Received) : Provider → Request → Prop
  | .blockchainInfo _, .getUnspent _ => Accepted received.main fun body =>
    ∃ items, body.field? "unspent_outputs" = some (.arr items) ∧ ∀ u ∈ items, UnspentEntry u
  | .blockchainInfo _, .getInfo address => Accepted received.main fun body =>
    ∃ info, body.field? address = some info ∧ info.Has "total_received"
  | .esplora _, .getUnspent _ => Accepted received.main fun body =>
    ∃ items, body = .arr items ∧ (∀ u ∈ items, EsploraEntry u) ∧
      (items ≠ [] → ∃ tip height, received.tip = .ok tip ∧ tip.ok = true ∧
        intOf tip.text = .ok height)
  | .esplora _, .getInfo _ => Accepted received.main fun body =>
    EsploraSide body "chain_stats" ∧ EsploraSide body "mempool_stats"
  | _, .sendTx _ | _, .rawTransaction _ =>
    ∃ response, received.main = .ok response ∧ response.ok = true

/-- An entry that the Esplora backend turns into an unspent output at tip height `tip`. -/
def ReadableEntry (tip : Int) (u : Json) : Prop :=
  u.IsObject ∧ (u.getOr "status" (.obj [])).IsObject ∧
    ((((u.getOr "status" (.obj [])).field? "confirmed").getD .null).truthy = true → tip ≠ 0 →
      ((u.getOr "status" (.obj [])).getOr "block_height" (.num 0)).number?.isSome) ∧
    u.Has "txid" ∧ u.Has "vout" ∧ u.Has "value"

/-- The parts of the address statistics as they are read, and that their sums exist. -/
def ReadableStats (stats : Json) : Prop :=
  let chain := stats.getOr "chain_stats" (.obj [])
  let mempool := stats.getOr "mempool_stats" (.obj [])
  stats.IsObject ∧ chain.IsObject ∧ mempool.IsObject ∧
    (chain.getOr "funded_txo_sum" (.num 0)).number?.isSome ∧
    (mempool.getOr "funded_txo_sum" (.num 0)).number?.isSome ∧
    (chain.getOr "spent_txo_sum" (.num 0)).number?.isSome ∧
    (mempool.getOr "spent_txo_sum" (.num 0)).number?.isSome ∧
    Addable (chain.getOr "tx_count" (.num 0)) (mempool.getOr "tx_count" (.num 0))

/-- A reply that came back, whatever its status, with a body that satisfies `body`. -/
def Arrived (reply : Except String Response) (body : Except String Json → Prop) : Prop :=
  ∃ response, reply = .ok response ∧ body response.json

/-- The answers that the code reads as data. -/
def Readable (received : Received) : Provider → Request → Prop
  | .blockchainInfo _, .getUnspent _ => Arrived received.main fun json =>
    ∀ body, json = .ok body → body.Has "unspent_outputs"
  | .blockchainInfo _, .getInfo address => Arrived received.main fun json =>
    ∀ body, json = .ok body → body.Has address
  | .esplora self, .getUnspent address => Arrived received.main fun json =>
    ∃ body, json = .ok body ∧ (body.truthy = true → ∃ tip height items,
      received.tip = .ok tip ∧ intOf tip.text = .ok height ∧
      Succeeds (self.makeLockScript address) ∧ body.iter = .ok items ∧
      ∀ u ∈ items, ReadableEntry height u)
  | .esplora _, .getInfo _ => Arrived received.main fun json =>
    ∃ body, json = .ok body ∧ ReadableStats body
  | _, .sendTx _ => ∃ response, received.main = .ok response ∧ response.ok = true
  | _, .rawTransaction _ => ∃ response, received.main = .ok response

/-- A broken answer that the code takes for data: a body that is not JSON, or an error page
with a readable body, or a readable body without the fields of the answer. -/
def Swallowed (received : Received) (provider : Provider) (r : Request) : Prop :=
  Readable received provider r ∧ ¬WellFormed received provider r

section

open EsploraBackend

theorem succeeds_confirmationsOf (tip : Int) (blockHeight : Json) :
    Succeeds (confirmationsOf tip blockHeight) ↔ (tip ≠ 0 → blockHeight.number?.isSome) := by
  unfold confirmationsOf
  by_cases h : tip = 0
  · simp [h]
  · cases blockHeight.number? <;> simp [h]

theorem succeeds_confirmationsIn (tip : Int) (status : Json) :
    Succeeds (confirmationsIn tip status) ↔ status.IsObject ∧
      (((status.field? "confirmed").getD .null).truthy = true → tip ≠ 0 →
        (status.getOr "block_height" (.num 0)).number?.isSome) := by
  rw [confirmationsIn, succeeds_get_bind]
  refine and_congr_right fun hstatus => ?_
  split
  · rename_i hconfirmed
    rw [succeeds_get_bind, succeeds_confirmationsOf]
    simp [hstatus, hconfirmed, getOr]
  · rename_i hconfirmed
    simp [hconfirmed]

theorem succeeds_decodeEntry (tip : Int) (script : Bytes) (u : Json) :
    Succeeds (decodeEntry tip script u) ↔ ReadableEntry tip u := by
  have hfields : ∀ confirmations : Json,
      Succeeds (do
        let txid ← u.subscript "txid"
        let vout ← u.subscript "vout"
        let value ← u.subscript "value"
        (.ok (.obj [("tx_hash", txid), ("tx_output_n", vout), ("value", value),
          ("script", .str (hex script)), ("confirmations", confirmations)]) :
            Except String Json)) ↔ u.Has "txid" ∧ u.Has "vout" ∧ u.Has "value" := by
    intro confirmations
    rw [succeeds_bind_of_const fun txid => succeeds_bind_of_const fun vout =>
      succeeds_bind_of_const fun value => iff_true_intro (succeeds_ok _)]
    simp
  rw [decodeEntry, ReadableEntry, succeeds_get_bind, succeeds_bind_of_const hfields,
    succeeds_confirmationsIn, and_assoc]
  rfl

theorem succeeds_side_bind {α : Type} (stats : Json) (name : String)
    (f : Json → Except String α) :
    Succeeds (side stats name >>= f) ↔ stats.IsObject ∧ Succeeds (f (stats.getOr name (.obj []))) := by
  simp only [side, bind_assoc, ok_bind, succeeds_get_bind]
  rfl

theorem succeeds_count_bind {α : Type} (part : Json) (field : String)
    (f : Json → Except String α) :
    Succeeds (count part field >>= f) ↔ part.IsObject ∧ Succeeds (f (part.getOr field (.num 0))) := by
  simp only [count, bind_assoc, ok_bind, succeeds_get_bind]
  rfl

/-- Both subtractions of the final balance go through on numbers only. -/
theorem succeeds_balance (total chainSpent mempoolSpent nTx : Json) :
    Succeeds (do
      let left ← total.sub chainSpent
      let finalBalance ← left.sub mempoolSpent
      (.ok (.obj [("total_received", total), ("final_balance", finalBalance), ("n_tx", nTx)]) :
        Except String Json)) ↔
      total.number?.isSome ∧ chainSpent.number?.isSome ∧ mempoolSpent.number?.isSome := by
  rw [succeeds_bind]
  constructor
  · rintro ⟨left, hleft, hrest⟩
    rw [succeeds_bind_of_const fun finalBalance => iff_true_intro (succeeds_ok _)] at hrest
    have h := succeeds_sub.mp ⟨left, hleft⟩
    exact ⟨h.1, h.2, (succeeds_sub.mp hrest.1).2⟩
  · rintro ⟨htotal, hchain, hmempool⟩
    obtain ⟨left, hleft⟩ := succeeds_sub.mpr ⟨htotal, hchain⟩
    refine ⟨left, hleft, ?_⟩
    rw [succeeds_bind_of_const fun finalBalance => iff_true_intro (succeeds_ok _)]
    exact ⟨succeeds_sub.mpr ⟨sub_number hleft, hmempool⟩, trivial⟩

theorem succeeds_decodeInfo (response : Response) :
    Succeeds (decodeInfo response) ↔ ∃ body, response.json = .ok body ∧ ReadableStats body := by
  rw [decodeInfo, succeeds_bind]
  refine exists_congr fun stats => and_congr_right fun _ => ?_
  rw [succeeds_side_bind, succeeds_side_bind, succeeds_count_bind, succeeds_count_bind,
    succeeds_bind]
  simp only [succeeds_count_bind, succeeds_bind_of_const fun nTx => succeeds_balance _ _ _ nTx,
    succeeds_add, ReadableStats]
  constructor
  · rintro ⟨hstats, -, hchain, hmempool, total, htotal, -, -, -, -, htxs, hnumber, hspent, hspent'⟩
    have hparts := (add_number htotal).mp hnumber
    exact ⟨hstats, hchain, hmempool, hparts.1, hparts.2, hspent, hspent', htxs⟩
  · rintro ⟨hstats, hchain, hmempool, hreceived, hreceived', hspent, hspent', htxs⟩
    obtain ⟨total, htotal⟩ := succeeds_add.mpr (.inl ⟨hreceived, hreceived'⟩)
    exact ⟨hstats, hstats, hchain, hmempool, total, htotal, hchain, hmempool, hchain, hmempool,
      htxs, (add_number htotal).mpr ⟨hreceived, hreceived'⟩, hspent, hspent'⟩

theorem succeeds_decodeEntries (tip : Int) (script : Bytes) (utxos : Json) :
    Succeeds (decodeEntries tip script utxos) ↔
      ∃ items, utxos.iter = .ok items ∧ ∀ u ∈ items, ReadableEntry tip u := by
  rw [decodeEntries, succeeds_bind]
  refine exists_congr fun items => and_congr_right fun _ => ?_
  rw [succeeds_bind_of_const fun out => iff_true_intro (succeeds_ok _), succeeds_mapM]
  simp only [succeeds_decodeEntry, and_true]

theorem succeeds_decodeSent (response : Response) :
    Succeeds (decodeSent response) ↔ response.ok = true := by
  unfold decodeSent
  split <;> simp_all

theorem succeeds_getUnspent (self : EsploraBackend) (http : Http σ) (address : String) (s : σ) :
    Succeeds (self.getUnspent http address s).1 ↔
      Readable ((Provider.esplora self).received http (.getUnspent address) s) (.esplora self)
        (.getUnspent address) := by
  simp only [getUnspent, Readable, Provider.received, EsploraCall, Arrived]
  generalize requestWithRetries (http.send (.get (self.baseUrl ++ "/address/" ++ address ++
    "/utxo"))) self.retries s = main
  generalize requestWithRetries (http.send (.get (self.baseUrl ++ "/blocks/tip/height")))
    self.retries main.2 = tip
  obtain ⟨reply, s'⟩ := main
  cases reply with
  | error e => simp
  | ok response =>
    simp only [ok_bind, Except.ok.injEq, exists_eq_left']
    cases response.json with
    | error e => simp
    | ok body =>
      simp only [Except.ok.injEq, exists_eq_left']
      by_cases hbody : body.truthy = true
      · simp only [hbody, if_true, forall_const]
        rw [succeeds_bind]
        simp only [bind_eq_ok, decodeTip,
          succeeds_bind_of_const fun script => succeeds_decodeEntries _ script body]
        constructor
        · rintro ⟨height, ⟨found, hfound, hheight⟩, hscript, items, hitems, hall⟩
          exact ⟨found, height, items, hfound, hheight, hscript, hitems, hall⟩
        · rintro ⟨found, height, items, hfound, hheight, hscript, hitems, hall⟩
          exact ⟨height, ⟨found, hfound, hheight⟩, hscript, items, hitems, hall⟩
      · simp [hbody]

end

/-- A backend gives data exactly on the readable answers. -/
theorem succeeds_request (provider : Provider) (http : Http σ) (r : Request) (s : σ) :
    Succeeds ((provider.backend http).request r s).1 ↔
      Readable (provider.received http r s) provider r := by
  cases provider with
  | blockchainInfo self =>
    simp only [Provider.backend, BlockchainInfoBackend.backend, BlockchainInfoBackend.request,
      Provider.received]
    generalize requestWithRetries (http.send (self.call r)) self.retries s = main
    obtain ⟨reply, s'⟩ := main
    cases reply with
    | error e => cases r <;> simp [Readable, Arrived]
    | ok response =>
      cases r with
      | getUnspent address =>
        simp only [BlockchainInfoBackend.decode, BlockchainInfoBackend.decodeUnspent, Readable,
          Arrived, ok_bind]
        cases hjson : response.json <;> simp [hjson]
      | getInfo address =>
        simp only [BlockchainInfoBackend.decode, BlockchainInfoBackend.decodeInfo, Readable,
          Arrived, ok_bind]
        cases hjson : response.json <;> simp [hjson]
      | sendTx rawtx => simp [BlockchainInfoBackend.decode, Readable, succeeds_decodeSent]
      | rawTransaction txid => simp [BlockchainInfoBackend.decode, Readable, decodeRawTransaction]
  | esplora self =>
    cases r with
    | getUnspent address => exact succeeds_getUnspent self http address s
    | getInfo address =>
      simp only [Provider.backend, EsploraBackend.backend, EsploraBackend.request,
        Provider.received, EsploraCall, Readable, Arrived, succeeds_bind, succeeds_decodeInfo]
    | sendTx rawtx =>
      simp only [Provider.backend, EsploraBackend.backend, EsploraBackend.request,
        Provider.received, EsploraCall, Readable, succeeds_bind, succeeds_decodeSent]
    | rawTransaction txid =>
      simp only [Provider.backend, EsploraBackend.backend, EsploraBackend.request,
        Provider.received, EsploraCall, Readable, succeeds_bind, decodeRawTransaction, succeeds_ok,
        and_true]

/-- The backends of a failover over the network `http`. -/
def backendsOf (http : Http σ) (providers : List Provider) : List (NetworkBackend σ) :=
  providers.map (Provider.backend http)

/-- What holds of the answer that an attempt met. -/
def met (http : Http σ) (providers : List Provider)
    (holds : Received → Provider → Request → Prop) (a : Attempt σ) : Prop :=
  ∃ provider, providers[a.index]? = some provider ∧
    holds (provider.received http a.request a.before) provider a.request

/-- An attempt gives data exactly on a readable answer. -/
theorem met_readable {http : Http σ} {providers : List Provider} {r : Request} {a : Attempt σ}
    (h : a.madeFor (backendsOf http providers) r) :
    met http providers Readable a ↔ Succeeds a.outcome := by
  obtain ⟨rfl, backend, hbackend, hout⟩ := h
  simp only [backendsOf, List.getElem?_map, Option.map_eq_some_iff] at hbackend
  obtain ⟨provider, hprovider, rfl⟩ := hbackend
  rw [hout, succeeds_request]
  simp [met, hprovider]

theorem met_swallowed {http : Http σ} {providers : List Provider} {r : Request} {a : Attempt σ}
    (h : a.madeFor (backendsOf http providers) r) :
    met http providers Swallowed a ↔ Succeeds a.outcome ∧ ¬met http providers WellFormed a := by
  rw [← met_readable h]
  obtain ⟨rfl, backend, hbackend, -⟩ := h
  simp only [backendsOf, List.getElem?_map, Option.map_eq_some_iff] at hbackend
  obtain ⟨provider, hprovider, rfl⟩ := hbackend
  simp [met, hprovider, Swallowed]

/-- A call that takes no broken answer for data: the attempt that met one has failed and the
next backend is asked, unless everyone was; and the result rests on a well-formed answer. -/
structure Careful (http : Http σ) (providers : List Provider) (attempts : List (Attempt σ))
    (result : Except Failure Json) : Prop where
  next : ∀ pre a post, attempts = pre ++ a :: post → ¬met http providers WellFormed a →
    a.failed ∧ (post ≠ [] ∨ attempts.length = providers.length)
  data : ∀ answer, result = .ok answer →
    ∃ a ∈ attempts, a.outcome = .ok answer ∧ met http providers WellFormed a

theorem Walked.careful_iff {http : Http σ} {providers : List Provider} {r : Request}
    {start preferred : Option Nat} {attempts : List (Attempt σ)} {result : Except Failure Json}
    (hmade : ∀ a ∈ attempts, a.madeFor (backendsOf http providers) r)
    (h : Walked (backendsOf http providers) start attempts result preferred) :
    Careful http providers attempts result ↔
      ∀ a ∈ attempts, ¬met http providers Swallowed a := by
  constructor
  · intro hcareful a ha hswallowed
    rw [met_swallowed (hmade a ha)] at hswallowed
    obtain ⟨pre, post, hsplit⟩ := List.append_of_mem ha
    exact not_succeeds_iff.mpr (hcareful.next pre a post hsplit hswallowed.2).1 hswallowed.1
  · intro hnone
    have hfails : ∀ a ∈ attempts, ¬met http providers WellFormed a → a.failed := by
      intro a ha hbroken
      have := mt (met_swallowed (hmade a ha)).mpr (hnone a ha)
      exact not_succeeds_iff.mp fun hok => this ⟨hok, hbroken⟩
    refine ⟨?_, ?_⟩
    · intro pre a post hsplit hbroken
      have hfailed := hfails a (by simp [hsplit]) hbroken
      refine ⟨hfailed, ?_⟩
      by_cases hpost : post = []
      · -- The failed attempt is the last one, so the call has no result.
        right
        cases hresult : result with
        | ok answer =>
          obtain ⟨b, hb, hbok⟩ := (h.success answer).mp hresult
          simp only [hsplit, hpost, List.getLast?_append, List.getLast?_singleton, Option.some_or,
            Option.some.injEq] at hb
          exact absurd (hb ▸ hbok) (Attempt.failed_ok hfailed)
        | error e =>
          rw [(h.trail e hresult).2]
          exact List.length_map _
      · exact .inl hpost
    · intro answer hresult
      obtain ⟨a, hlast, hok⟩ := (h.success answer).mp hresult
      have ha := List.mem_of_getLast? hlast
      refine ⟨a, ha, hok, ?_⟩
      by_contra hbroken
      exact absurd hok (Attempt.failed_ok (hfails a ha hbroken))

/-- In every run of calls, a call is careful exactly when none of its attempts meets a broken
answer that the backend reads as data. -/
theorem careful_iff_none_swallowed (http : Http σ) (providers : List Provider)
    (rs : List Request) (r : Request) (s : σ) :
    let before := (AutoBackend.calls ⟨recorded (backendsOf http providers), none⟩ rs (s, [])).2
    let after := before.1.run r before.2
    let attempts := after.2.2.2.drop before.2.2.length
    Careful http providers attempts after.1 ↔
      ∀ a ∈ attempts, ¬met http providers Swallowed a := by
  intro before after attempts
  obtain ⟨made, hlog, hmade, hwalked⟩ :=
    ((Between.calls rs ⟨rfl, rfl⟩ : Between (backendsOf http providers) before.1 before.2).run r).1
  have hattempts : attempts = made := by
    rw [show attempts = after.2.2.2.drop before.2.2.length from rfl, hlog, List.drop_left]
  rw [hattempts]
  exact Walked.careful_iff hmade hwalked

/-- A network behind a portal that refuses every call with a page. -/
def portal : Http Unit where
  send := fun _ s =>
    (.response ⟨403, "<html>", .error "Expecting value: line 1 column 1 (char 0)", none⟩, s)

/-- Behind the portal the first backend reports an address without outputs. -/
theorem portal_not_careful : ¬∀ (http : Http Unit) (providers : List Provider)
    (rs : List Request) (r : Request) (s : Unit),
    let before := (AutoBackend.calls ⟨recorded (backendsOf http providers), none⟩ rs (s, [])).2
    let after := before.1.run r before.2
    Careful http providers (after.2.2.2.drop before.2.2.length) after.1 := by
  intro h
  obtain ⟨a, ha, -, provider, hprovider, hwell⟩ := (h portal
    [.blockchainInfo {}, .esplora ⟨"blockstream", "https://blockstream.info/api", 3, fun _ => .ok []⟩]
    [] (.getUnspent "bc1q") ()).data (.arr []) rfl
  replace ha : a ∈ [(⟨0, .getUnspent "bc1q", (), .ok (.arr [])⟩ : Attempt Unit)] := ha
  rw [List.mem_singleton] at ha
  subst ha
  cases hprovider
  obtain ⟨response, body, hmain, hok, -⟩ := hwell
  cases hmain
  exact absurd hok (by decide)

end Yubtc.BrokenAnswers
