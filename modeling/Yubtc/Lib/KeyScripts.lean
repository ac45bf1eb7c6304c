import Yubtc.Lib.ScriptVm

/-!
The part of the script language that pays to the hash of a key. As in the machine for quorums, what
a byte means is a table, the stack has its top first, and an instruction the table does not name
aborts.
-/
namespace KeyScripts

open ScriptVm (Item Stack Instr decode isTrue ofBool)

inductive Opcode where
  | dup
  | hash
  | equalVerify
  | checkSig
  deriving DecidableEq, Repr

/-- The opcode table, the hash that the script compares, and which signatures are valid under which
keys. -/
structure Context where
  table : UInt8 → Option Opcode
  hash : Item → Item
  validSig : Item → Item → Bool

def stepOp (c : Context) : Opcode → Stack → Option Stack
  | .dup, x :: rest => some (x :: x :: rest)
  | .hash, x :: rest => some (c.hash x :: rest)
  | .equalVerify, x :: y :: rest => if x = y then some rest else none
  | .checkSig, key :: sig :: rest => some (ofBool (c.validSig sig key) :: rest)
  | _, _ => none

def step (c : Context) : Instr → Stack → Option Stack
  | .push data, s => some (data :: s)
  | .op code, s => (c.table code).bind fun o => stepOp c o s

def exec (c : Context) : List Instr → Stack → Option Stack
  | [], s => some s
  | i :: rest, s => (step c i s).bind (exec c rest)

def run (c : Context) (script : Item) (s : Stack) : Option Stack :=
  (decode script).bind fun is => exec c is s

/-- The script leaves exactly one element, a true one. -/
def Succeeds (c : Context) (script : Item) (s : Stack) : Prop :=
  ∃ top, run c script s = some [top] ∧ isTrue top = true

section KeyHash

variable {c : Context} {dup hash equalVerify checkSig : UInt8} {payload : Item}

/-- The script of a key hash: the hash of the key on top is compared, then the signature below it
is checked. -/
def keyHashScript (dup hash equalVerify checkSig : UInt8) (payload : Item) : Item :=
  dup :: hash :: UInt8.ofNat payload.length :: (payload ++ [equalVerify, checkSig])

/-- The bytes of the four opcodes in a table. -/
structure Names (c : Context) (dup hash equalVerify checkSig : UInt8) : Prop where
  above : ∀ b ∈ [dup, hash, equalVerify, checkSig], 0x4e < b.toNat
  dup : c.table dup = some .dup
  hash : c.table hash = some .hash
  equalVerify : c.table equalVerify = some .equalVerify
  checkSig : c.table checkSig = some .checkSig

theorem decode_keyHashScript (h : ∀ b ∈ [dup, hash, equalVerify, checkSig], 0x4e < b.toNat)
    (hlen : payload.length ≤ 0x4b) :
    decode (keyHashScript dup hash equalVerify checkSig payload) =
      some [.op dup, .op hash, .push payload, .op equalVerify, .op checkSig] := by
  simp only [List.forall_mem_cons] at h
  obtain ⟨hdup, hhash, hequal, hcheck, -⟩ := h
  rw [keyHashScript, ScriptVm.decode_op _ hdup, ScriptVm.decode_op _ hhash,
    ScriptVm.decode_direct payload _ hlen, ScriptVm.decode_op _ hequal,
    ScriptVm.decode_op _ hcheck, ScriptVm.decode_nil]
  rfl

/-- The script succeeds on a signature and a key exactly when the key has the hash and the signature
is valid under it. -/
theorem keyHash_succeeds_iff (h : Names c dup hash equalVerify checkSig)
    (hlen : payload.length ≤ 0x4b) (sig key : Item) :
    Succeeds c (keyHashScript dup hash equalVerify checkSig payload) [key, sig] ↔
      c.hash key = payload ∧ c.validSig sig key = true := by
  have hrun : run c (keyHashScript dup hash equalVerify checkSig payload) [key, sig] =
      if payload = c.hash key then some [ofBool (c.validSig sig key)] else none := by
    rw [run, decode_keyHashScript h.above hlen]
    simp only [Option.bind_some, exec, step, h.dup, h.hash, h.equalVerify, h.checkSig, stepOp]
    split <;> rfl
  rw [Succeeds, hrun]
  by_cases heq : payload = c.hash key
  · rw [if_pos heq]
    cases c.validSig sig key with
    | true => simp [heq, ScriptVm.isTrue_ofBool]
    | false => simp [heq, ScriptVm.isTrue_ofBool]
  · simp [heq, Ne.symm heq]

end KeyHash

end KeyScripts
