import Yubtc.TidyInputs
import Yubtc.Permanence
import Yubtc.Base64

/-!
# Transport between the steps of a session

What the roles make of a created PSBT comes back from its base64 text field by field, so that it
does not matter between which steps a PSBT travels as text.
-/
namespace Yubtc.Transport

open Text (Str)
open Wire Errors ExceptRules Crypto Transaction PsbtData PsbtCodec PsbtRoles PsbtRecords PsbtReading
  GlobalRecords PsbtRoundTrip Combine Signer SignWalk SigningFrame Finalizer Finalization QuorumPsbt
  Permanence TidyInputs Base64

variable {P : Primitives}

def fromBase64 (s : Str) : Except Exn Psbt := do
  let data ← decodeBase64 s
  (parsePsbt data).mapError .psbt

def toBase64 (psbt : Psbt) : Str := encodeBase64 (serializePsbt psbt)

variable (P) in
/-- A PSBT on its way: created, worked on by a role, combined with another one, or carried over as
text. -/
inductive Session where
  | create (unsignedTx : PsbtTransaction) (inputs : List CreateInput)
  | act (s : Session) (action : Action P)
  | combine (s other : Session)
  | carry (s : Session)

namespace Session

/-- The PSBT a session has come to. A role that stops with an error leaves the PSBT behind. -/
def state : Session P → Except Exn Psbt
  | .create unsignedTx inputs => createPsbt P unsignedTx inputs
  | .act s action => do
    let psbt ← s.state
    return action.apply psbt
  | .combine s other => do
    let psbt ← s.state
    let foreign ← other.state
    (combinePsbt psbt foreign).mapError .psbt
  | .carry s => do
    let psbt ← s.state
    fromBase64 (toBase64 psbt)

/-- The same session without transport. -/
def direct : Session P → Session P
  | .create unsignedTx inputs => .create unsignedTx inputs
  | .act s action => .act s.direct action
  | .combine s other => .combine s.direct other.direct
  | .carry s => s.direct

/-- Hashes are 32 bytes wide, and every previous transaction that is supplied has an input. -/
def Supplied : Session P → Prop
  | .create unsignedTx inputs => Fits unsignedTx ∧
    ∀ create ∈ inputs, ∀ prev, create.prevTx = some prev → Fits prev ∧ prev.vin ≠ []
  | .act s _ => s.Supplied
  | .combine s other => s.Supplied ∧ other.Supplied
  | .carry s => s.Supplied

/-- What is carried is no larger than the reader allows. -/
def Carried : Session P → Prop
  | .create _ _ => True
  | .act s _ => s.Carried
  | .combine s other => s.Carried ∧ other.Carried
  | .carry s => s.Carried ∧
    ∀ psbt, s.state = .ok psbt → (serializePsbt psbt).length ≤ psbtMaxSize

end Session

/-- What every PSBT of a session is. -/
structure Portable (psbt : Psbt) : Prop where
  version : psbt.version = 0
  inputs_length : psbt.inputs.length = psbt.unsignedTx.vin.length
  hashes : Fits psbt.unsignedTx
  unsigned : ∀ vin ∈ psbt.unsignedTx.vin, vin.script = [] ∧ vin.witness = []
  vout : psbt.unsignedTx.vout ≠ []
  inputs : ∀ input ∈ psbt.inputs, Tidy input
  outputs : psbt.outputs = psbt.unsignedTx.vout.map fun _ => ⟨[]⟩
  globals : psbt.unknownGlobal = []

theorem Portable.writable {psbt : Psbt} (h : Portable psbt)
    (hsize : (serializePsbt psbt).length ≤ psbtMaxSize) : Writable psbt := by
  have hout : ∀ out ∈ psbt.outputs, out.unknown = [] := by
    intro out hmem
    rw [h.outputs] at hmem
    obtain ⟨_, -, rfl⟩ := List.mem_map.mp hmem
    rfl
  refine ⟨⟨h.inputs_length, ?_, ?_, ?_, ?_⟩, h.hashes, h.unsigned, h.vout, ?_, ?_, ?_, hsize⟩
  · rw [h.outputs, List.length_map]
  · exact fun input hin => (h.inputs input hin).wellFormed
  · intro out hmem
    rw [hout out hmem]
    exact List.nodup_nil
  · rw [mapRecords, h.globals]
    exact List.nodup_singleton _
  · rw [h.globals]
    exact fun kv hkv => absurd hkv List.not_mem_nil
  · intro input hin x hx
    obtain ⟨f, hf⟩ := mem_inputRecords.mp hx
    exact (((h.inputs input hin).fields f).readable x hf).2.1.key
  · intro out hmem
    rw [hout out hmem]
    exact fun kv hkv => absurd hkv List.not_mem_nil

theorem tidy_forall₂ {l l' : List PsbtIn} (h : ∀ input ∈ l, Tidy input)
    (hr : List.Forall₂ Reread l l') : l' = l := by
  induction hr with
  | nil => rfl
  | cons hone _ ih =>
    rw [(h _ List.mem_cons_self).reread hone, ih fun x hx => h x (List.mem_cons_of_mem _ hx)]

/-- A PSBT of a session comes back as it is. -/
theorem Portable.parse_serialize {psbt : Psbt} (h : Portable psbt)
    (hsize : (serializePsbt psbt).length ≤ psbtMaxSize) :
    parsePsbt (serializePsbt psbt) = .ok psbt := by
  have hread : RereadableInputs psbt := by
    intro input hin x hx
    obtain ⟨f, hf⟩ := mem_inputRecords.mp (mem_writtenRecords.mp hx).1
    exact (((h.inputs input hin).fields f).readable x hf).2.1
  obtain ⟨psbt', hparse, hback⟩ := parsePsbt_serializePsbt (h.writable hsize) hread
  have hinputs := tidy_forall₂ h.inputs hback.inputs
  have houtputs : psbt'.outputs = psbt.outputs := by
    rw [hback.outputs, h.outputs, List.map_map]
    rfl
  have hglobals : psbt'.unknownGlobal = psbt.unknownGlobal := by
    rw [hback.globals, h.globals]
    rfl
  have hsame : psbt' = psbt := by
    cases psbt
    cases psbt'
    rw [Psbt.mk.injEq]
    exact ⟨hback.version.trans h.version.symm, hback.unsignedTx, hinputs, houtputs, hglobals⟩
  rw [hparse, hsame]

theorem Portable.fromBase64_toBase64 {psbt : Psbt} (h : Portable psbt)
    (hsize : (serializePsbt psbt).length ≤ psbtMaxSize) :
    fromBase64 (toBase64 psbt) = .ok psbt := by
  rw [fromBase64, toBase64, decodeBase64_encodeBase64, ok_bind, h.parse_serialize hsize]
  rfl

theorem createPsbt_portable {unsignedTx : PsbtTransaction} {inputs : List CreateInput} {psbt : Psbt}
    (hfits : Fits unsignedTx)
    (hprev : ∀ create ∈ inputs, ∀ prev, create.prevTx = some prev → Fits prev ∧ prev.vin ≠ [])
    (h : createPsbt P unsignedTx inputs = .ok psbt) : Portable psbt := by
  obtain ⟨htx, hlen, houtputs, hglobals, hinputs⟩ := createPsbt_spec h
  obtain ⟨hvout, h⟩ := reject_bind_eq_ok.mp h
  obtain ⟨-, h⟩ := reject_bind_eq_ok.mp h
  obtain ⟨hunsigned, h⟩ := reject_bind_eq_ok.mp h
  obtain ⟨_, -, h⟩ := bind_eq_ok.mp h
  cases h
  refine ⟨rfl, hlen, hfits, ?_, hvout, ?_, houtputs, rfl⟩
  · intro vin hvin
    by_contra hno
    exact hunsigned ⟨vin, hvin, not_and_or.mp hno⟩
  · intro input hin
    obtain ⟨i, hi⟩ := List.mem_iff_getElem?.mp hin
    obtain ⟨vin, create, -, hcreate, hone⟩ := hinputs i input hi
    exact createInput_tidy (hprev create (List.mem_of_getElem? hcreate)) hone

theorem Portable.modifyInput {psbt : Psbt} {i : Nat} {f : PsbtIn → PsbtIn} (h : Portable psbt)
    (hf : ∀ input, psbt.inputs[i]? = some input → Tidy (f input)) :
    Portable (Psbt.modifyInput psbt i f) := by
  refine ⟨h.version, ?_, h.hashes, h.unsigned, h.vout, ?_, h.outputs, h.globals⟩
  · exact (List.length_modify _ _ _).trans h.inputs_length
  · intro input hin
    obtain ⟨j, hj⟩ := List.mem_iff_getElem?.mp hin
    rw [Psbt.modifyInput, List.getElem?_modify] at hj
    obtain ⟨old, hold, he⟩ := Option.map_eq_some_iff.mp hj
    by_cases hij : i = j
    · subst hij
      rw [if_pos rfl] at he
      exact he ▸ hf old hold
    · rw [if_neg hij] at he
      exact he ▸ h.inputs old (List.mem_of_getElem? hold)

theorem sign_portable (hP : P.Lawful) {psbt : Psbt} (h : Portable psbt) (i : Nat)
    (key : P.PrivateKey) : Portable (leftBehind (signPsbtInput P i key psbt)) := by
  cases ho : signOutcome P psbt i key with
  | error e =>
    rw [signPsbtInput_error ho]
    exact h
  | ok o =>
    rw [signPsbtInput_ok ho]
    show Portable (applyOutcome psbt i o)
    rw [applyOutcome_eq]
    apply h.modifyInput
    intro input hin
    by_cases hadds : Adds o
    · obtain ⟨input', hin', hown⟩ := signOutcome_own ho hadds
      cases hin.symm.trans hin'
      exact addOutcome_tidy hP hown (h.inputs input (List.mem_of_getElem? hin))
    · cases o with
      | skip => exact h.inputs input (List.mem_of_getElem? hin)
      | present => exact h.inputs input (List.mem_of_getElem? hin)
      | partialSig pubkey sig => exact absurd trivial hadds
      | tapScriptSig entry => exact absurd trivial hadds

theorem finalizeInput_portable {psbt : Psbt} (h : Portable psbt) (i : Nat) :
    Portable (leftBehind (finalizePsbtInput P i psbt)) := by
  cases ho : finalOutcome P psbt i with
  | error e =>
    rw [finalizePsbtInput_error ho]
    exact h
  | ok r =>
    rw [finalizePsbtInput_ok ho]
    apply h.modifyInput
    intro input hin
    have htidy := h.inputs input (List.mem_of_getElem? hin)
    obtain ⟨old, hold, hcase⟩ := finalOutcome_ok ho
    cases hin.symm.trans hold
    rcases hcase with ⟨-, rfl⟩ | ⟨hopen, scriptPubkey, amount, hutxo, -⟩
    · exact htidy
    · rw [finalOutcome_of_utxo hin hopen hutxo] at ho
      exact finalBranch_tidy hopen htidy ho

theorem apply_portable (hP : P.Lawful) {psbt : Psbt} (h : Portable psbt) (action : Action P) :
    Portable (action.apply psbt) := by
  cases action with
  | sign index key => exact sign_portable hP h index key
  | finalizeInput index => exact finalizeInput_portable h index
  | finalize =>
    refine leftBehind_finalizeInputs (motive := Portable) ?_ _ h
    intro index s hs
    exact finalizeInput_portable hs index

/-- No action touches the transaction. -/
theorem apply_unsignedTx (psbt : Psbt) (action : Action P) :
    (action.apply psbt).unsignedTx = psbt.unsignedTx := by
  cases action with
  | sign index key =>
    rw [Action.apply]
    cases ho : signOutcome P psbt index key with
    | error e => rw [signPsbtInput_error ho, leftBehind]
    | ok o =>
      rw [signPsbtInput_ok ho, leftBehind, applyOutcome_eq]
      rfl
  | finalizeInput index => exact (leftBehind_finalizePsbtInput index psbt).1
  | finalize =>
    refine leftBehind_finalizeInputs (motive := fun s => s.unsignedTx = psbt.unsignedTx) ?_ _ rfl
    intro index s hs
    exact (leftBehind_finalizePsbtInput index s).1.trans hs

/-- A transaction without scripts is what its bytes say. -/
theorem unsignedTx_of_bytes {a b : Psbt} (ha : Portable a) (hb : Portable b)
    (hbytes : a.unsignedTx.serializeStripped = b.unsignedTx.serializeStripped)
    (hsmall : a.unsignedTx.serializeStripped.length < 2 ^ 64) : a.unsignedTx = b.unsignedTx := by
  have hparse : ∀ psbt, Portable psbt → psbt.unsignedTx.serializeStripped.length < 2 ^ 64 →
      parseTx psbt.unsignedTx.serializeStripped false = .ok psbt.unsignedTx := by
    intro psbt h hlt
    rw [parseTx_serializeStripped (stripped_inRange h.hashes hlt)
        fun hc => absurd hc Bool.false_ne_true,
      map_bareInput fun vin hvin => (h.unsigned vin hvin).2]
  have hpa := hparse a ha hsmall
  rw [hbytes, hparse b hb (hbytes ▸ hsmall)] at hpa
  exact (Except.ok.inj hpa).symm

theorem combinePsbt_bytes {a b r : Psbt} (h : combinePsbt a b = .ok r) :
    a.unsignedTx.serializeStripped = b.unsignedTx.serializeStripped ∧
      r.unsignedTx = a.unsignedTx := by
  obtain ⟨hbytes, h⟩ := reject_bind_eq_ok.mp h
  obtain ⟨_, -, h⟩ := bind_eq_ok.mp h
  obtain ⟨_, -, h⟩ := bind_eq_ok.mp h
  obtain ⟨_, -, h⟩ := bind_eq_ok.mp h
  cases h
  exact ⟨not_not.mp hbytes, rfl⟩

theorem combine_portable {a b r : Psbt} (ha : Portable a) (hb : Portable b)
    (htx : a.unsignedTx = b.unsignedTx) (h : combinePsbt a b = .ok r) : Portable r := by
  obtain ⟨hglobals, hinputs, houtputs, hversion, hrtx⟩ := (combinePsbt_eq_ok htx).mp h
  have hlen : a.inputs.length = b.inputs.length := by
    rw [ha.inputs_length, hb.inputs_length, htx]
  have hcount : r.inputs.length = r.unsignedTx.vin.length := by
    rw [mapM_length hinputs, List.length_zip, ← hlen, min_self, ha.inputs_length, hrtx]
  refine ⟨hversion.trans ha.version, hcount, hrtx ▸ ha.hashes, hrtx ▸ ha.unsigned, hrtx ▸ ha.vout,
    ?_, ?_, ?_⟩
  · intro input hin
    obtain ⟨i, hi⟩ := List.mem_iff_getElem?.mp hin
    obtain ⟨pair, hpair, hmerge⟩ := mapM_getElem? hinputs i input hi
    obtain ⟨hx, hy⟩ := List.getElem?_zip_eq_some.mp hpair
    exact merged_tidy (ha.inputs _ (List.mem_of_getElem? hx))
      (hb.inputs _ (List.mem_of_getElem? hy)) (mergeInput_eq_ok.mp hmerge)
  · have hsame : b.outputs = a.outputs := by
      rw [ha.outputs, hb.outputs, htx]
    have hself : ∀ out ∈ a.outputs, mergeOutput out out = .ok out := by
      intro out hmem
      rw [ha.outputs] at hmem
      obtain ⟨_, -, rfl⟩ := List.mem_map.mp hmem
      rfl
    have hzip := mapM_zip_self hself
    rw [hsame, hzip] at houtputs
    rw [← Except.ok.inj houtputs, hrtx, ha.outputs]
  · rw [ha.globals, hb.globals] at hglobals
    exact (Except.ok.inj hglobals).symm

/-- A session only ever holds PSBTs that come back as they are. -/
theorem state_portable (hP : P.Lawful) {s : Session P} (hs : s.Supplied) (hc : s.Carried)
    {psbt : Psbt} (h : s.state = .ok psbt)
    (hsmall : psbt.unsignedTx.serializeStripped.length < 2 ^ 64) : Portable psbt := by
  induction s generalizing psbt with
  | create unsignedTx inputs => exact createPsbt_portable hs.1 hs.2 h
  | act s action ih =>
    obtain ⟨base, hbase, h⟩ := bind_eq_ok.mp h
    cases h
    rw [apply_unsignedTx] at hsmall
    exact apply_portable hP (ih hs hc hbase hsmall) action
  | combine s other ihs iho =>
    obtain ⟨base, hbase, h⟩ := bind_eq_ok.mp h
    obtain ⟨foreign, hforeign, h⟩ := bind_eq_ok.mp h
    have hmerge := mapError_eq_ok.mp h
    obtain ⟨hbytes, htx⟩ := combinePsbt_bytes hmerge
    rw [htx] at hsmall
    have hb := ihs hs.1 hc.1 hbase hsmall
    have hf := iho hs.2 hc.2 hforeign (hbytes ▸ hsmall)
    exact combine_portable hb hf (unsignedTx_of_bytes hb hf hbytes hsmall) hmerge
  | carry s ih =>
    obtain ⟨base, hbase, h⟩ := bind_eq_ok.mp h
    have hsize := hc.2 base hbase
    have hportable := ih hs hc.1 hbase (stripped_small hsize)
    rw [hportable.fromBase64_toBase64 hsize] at h
    cases h
    exact hportable

theorem state_direct (hP : P.Lawful) {s : Session P} (hs : s.Supplied) (hc : s.Carried) :
    s.state = s.direct.state := by
  induction s with
  | create unsignedTx inputs => rfl
  | act s action ih => rw [Session.state, Session.direct, Session.state, ih hs hc]
  | combine s other ihs iho =>
    rw [Session.state, Session.direct, Session.state, ihs hs.1 hc.1, iho hs.2 hc.2]
  | carry s ih =>
    have hback : s.carry.state = s.state := by
      rw [Session.state]
      cases hstate : s.state with
      | error e => rfl
      | ok psbt =>
        have hsize := hc.2 psbt hstate
        have hportable := state_portable (s := s) hP hs hc.1 hstate (stripped_small hsize)
        exact hportable.fromBase64_toBase64 hsize
    rw [hback, ih hs hc.1, Session.direct]

/-- Text is a faithful transport: every PSBT of a session that the reader has room for comes back
as it is, and a session ends as it does without transport. -/
theorem transport_transparent (hP : P.Lawful) (s : Session P) (hs : s.Supplied) (hc : s.Carried) :
    (∀ psbt, s.state = .ok psbt → (serializePsbt psbt).length ≤ psbtMaxSize →
      fromBase64 (toBase64 psbt) = .ok psbt) ∧ s.state = s.direct.state := by
  refine ⟨?_, state_direct hP hs hc⟩
  intro psbt h hsize
  exact (state_portable hP hs hc h (stripped_small hsize)).fromBase64_toBase64 hsize

/-- Created, carried, signed, combined with the unsigned copy, carried, finalized. -/
def sampleSession : Session standIn :=
  let created := .create ownTx [ownRequest]
  .act (.carry (.combine (.act (.carry created) signOwn) created)) finalizeAll

/-- There is a PSBT, and the reader has room for it. -/
def HasRoom (x : Except Exn Psbt) : Bool :=
  match x with
  | .ok psbt => decide ((serializePsbt psbt).length ≤ psbtMaxSize)
  | .error _ => false

theorem size_of_hasRoom {x : Except Exn Psbt} (h : HasRoom x = true) {psbt : Psbt}
    (hx : x = .ok psbt) : (serializePsbt psbt).length ≤ psbtMaxSize := by
  subst hx
  exact of_decide_eq_true h

theorem transport_transparent_sample :
    (∃ psbt, sampleSession.state = .ok psbt ∧ fromBase64 (toBase64 psbt) = .ok psbt) ∧
      sampleSession.state = sampleSession.direct.state := by
  have hcreated : (Session.create (P := standIn) ownTx [ownRequest]).Supplied := by
    constructor
    · intro vin hvin
      obtain rfl := List.mem_singleton.mp hvin
      rfl
    · intro create hcreate prev hprev
      obtain rfl := List.mem_singleton.mp hcreate
      cases hprev
  have hfirst : HasRoom (Session.create (P := standIn) ownTx [ownRequest]).state = true := by
    decide +kernel
  have hsecond : HasRoom (Session.combine (.act (.carry (.create ownTx [ownRequest])) signOwn)
      (.create ownTx [ownRequest])).state = true := by
    decide +kernel
  have hcarried : sampleSession.Carried :=
    ⟨⟨⟨trivial, fun _ => size_of_hasRoom hfirst⟩, trivial⟩, fun _ => size_of_hasRoom hsecond⟩
  obtain ⟨hback, hdirect⟩ :=
    transport_transparent standIn_lawful sampleSession ⟨hcreated, hcreated⟩ hcarried
  refine ⟨?_, hdirect⟩
  have hlast : HasRoom sampleSession.state = true := by
    decide +kernel
  cases hstate : sampleSession.state with
  | error e =>
    rw [hstate] at hlast
    cases hlast
  | ok psbt => exact ⟨psbt, rfl, hback psbt hstate (size_of_hasRoom hlast hstate)⟩

end Yubtc.Transport
