import Yubtc.Lib.LittleEndian

/-!
A stack machine for scripts made of pushes, small numbers and signature checks.
What a byte means is a parameter, the opcode table, so the same machine runs a
script under any table. The stack is a list with its top first. `CHECKMULTISIG`
matches its signatures as consensus does: both lists are walked once, so the
signatures have to follow the order of the keys.
-/
namespace ScriptVm

open LittleEndian

abbrev Item := List UInt8
abbrev Stack := List Item

inductive Opcode where
  | num (n : Nat)
  | numEqual
  | numEqualVerify
  | checkSig
  | checkSigAdd
  | checkMultiSig
  deriving DecidableEq, Repr

inductive Instr where
  | push (data : Item)
  | op (code : UInt8)
  deriving DecidableEq, Repr

/-- The opcode table, and which signatures are valid under which keys. -/
structure Context where
  table : UInt8 → Option Opcode
  validSig : Item → Item → Bool

/-- Split off `n` bytes of pushed data. -/
def takePush (n : Nat) (rest : Item) : Option (Instr × Item) :=
  if n ≤ rest.length then some (.push (rest.take n), rest.drop n) else none

/-- The instruction that starts with the byte `b`, and what is left after it. -/
def nextInstr (b : UInt8) (rest : Item) : Option (Instr × Item) :=
  if b.toNat ≤ 0x4b then takePush b.toNat rest
  else if b = 0x4c then
    if rest.length < 1 then none else takePush (unpackLE (rest.take 1)) (rest.drop 1)
  else if b = 0x4d then
    if rest.length < 2 then none else takePush (unpackLE (rest.take 2)) (rest.drop 2)
  else if b = 0x4e then
    if rest.length < 4 then none else takePush (unpackLE (rest.take 4)) (rest.drop 4)
  else some (.op b, rest)

/-- Decoding with a bound on the number of instructions. -/
def decodeWithin : Nat → Item → Option (List Instr)
  | _, [] => some []
  | 0, _ :: _ => none
  | fuel + 1, b :: rest =>
    match nextInstr b rest with
    | none => none
    | some (i, tail) => (decodeWithin fuel tail).map (i :: ·)

/-- The instructions of a script; every instruction takes at least one byte. -/
def decode (script : Item) : Option (List Instr) := decodeWithin script.length script

theorem takePush_length {n : Nat} {rest tail : Item} {i : Instr}
    (h : takePush n rest = some (i, tail)) : tail.length ≤ rest.length := by
  unfold takePush at h
  split at h
  · cases h
    simp
  · cases h

theorem nextInstr_length {b : UInt8} {rest tail : Item} {i : Instr}
    (h : nextInstr b rest = some (i, tail)) : tail.length ≤ rest.length := by
  unfold nextInstr at h
  split at h
  · exact takePush_length h
  · repeat' split at h
    all_goals first
      | cases h; done
      | (cases h; exact le_refl _)
      | (have hl := takePush_length h
         simp only [List.length_drop] at hl
         omega)

theorem decodeWithin_congr {fuel fuel' : Nat} {script : Item} (h : script.length ≤ fuel)
    (h' : script.length ≤ fuel') : decodeWithin fuel script = decodeWithin fuel' script := by
  induction fuel generalizing fuel' script with
  | zero =>
    cases script with
    | nil => cases fuel' <;> rfl
    | cons b rest => simp at h
  | succ fuel ih =>
    cases script with
    | nil => cases fuel' <;> rfl
    | cons b rest =>
      cases fuel' with
      | zero => simp at h'
      | succ fuel' =>
        simp only [List.length_cons] at h h'
        simp only [decodeWithin]
        cases hn : nextInstr b rest with
        | none => rfl
        | some it =>
          have ht : it.2.length ≤ rest.length := nextInstr_length (i := it.1) hn
          exact congrArg (Option.map (it.1 :: ·)) (ih (by omega) (by omega))

/-- A script is decoded one instruction at a time. -/
theorem decode_cons {b : UInt8} {rest tail : Item} {i : Instr}
    (h : nextInstr b rest = some (i, tail)) :
    decode (b :: rest) = (decode tail).map (i :: ·) := by
  simp only [decode, List.length_cons, decodeWithin, h]
  exact congrArg (Option.map (i :: ·)) (decodeWithin_congr (nextInstr_length h) (le_refl _))

@[simp] theorem decode_nil : decode [] = some [] := rfl

/-- A byte above the push opcodes is an instruction of its own. -/
theorem decode_op {b : UInt8} (rest : Item) (h : 0x4e < b.toNat) :
    decode (b :: rest) = (decode rest).map (.op b :: ·) := by
  apply decode_cons
  unfold nextInstr
  have h1 : ¬ b.toNat ≤ 0x4b := by omega
  have h2 : b ≠ 0x4c := by rintro rfl; simp at h
  have h3 : b ≠ 0x4d := by rintro rfl; simp at h
  have h4 : b ≠ 0x4e := by rintro rfl; simp at h
  simp only [h1, h2, h3, h4, if_false]

theorem takePush_append (data rest : Item) :
    takePush data.length (data ++ rest) = some (.push data, rest) := by
  simp [takePush]

/-- A direct push of up to 75 bytes. -/
theorem decode_direct (data rest : Item) (h : data.length ≤ 0x4b) :
    decode (UInt8.ofNat data.length :: (data ++ rest)) =
      (decode rest).map (.push data :: ·) := by
  apply decode_cons
  have hb : (UInt8.ofNat data.length).toNat = data.length := by
    rw [UInt8.toNat_ofNat']
    omega
  simp only [nextInstr, hb, h, if_true, takePush_append]

/-- A push with a one-byte length. -/
theorem decode_pushdata1 (data rest : Item) (h : data.length < 256) :
    decode (0x4c :: (packLE 1 data.length ++ (data ++ rest))) =
      (decode rest).map (.push data :: ·) := by
  apply decode_cons
  have hl : unpackLE (packLE 1 data.length) = data.length := unpackLE_packLE 1 _ (by omega)
  have hlen : ¬ (packLE 1 data.length ++ (data ++ rest)).length < 1 := by
    rw [List.length_append, packLE_length]
    omega
  rw [nextInstr, if_neg (by decide), if_pos rfl, if_neg hlen,
    List.take_left' (packLE_length 1 _), List.drop_left' (packLE_length 1 _), hl,
    takePush_append]

/-- A push with a two-byte length. -/
theorem decode_pushdata2 (data rest : Item) (h : data.length < 65536) :
    decode (0x4d :: (packLE 2 data.length ++ (data ++ rest))) =
      (decode rest).map (.push data :: ·) := by
  apply decode_cons
  have hl : unpackLE (packLE 2 data.length) = data.length := unpackLE_packLE 2 _ (by omega)
  have hlen : ¬ (packLE 2 data.length ++ (data ++ rest)).length < 2 := by
    rw [List.length_append, packLE_length]
    omega
  rw [nextInstr, if_neg (by decide), if_neg (by decide), if_pos rfl, if_neg hlen,
    List.take_left' (packLE_length 2 _), List.drop_left' (packLE_length 2 _), hl,
    takePush_append]

/-- Minimal little-endian digits, with a bound on their number. -/
def digits : Nat → Nat → Item
  | 0, _ => []
  | fuel + 1, n => if n = 0 then [] else UInt8.ofNat n :: digits fuel (n / 256)

/-- A script number: minimal digits of the absolute value, the sign in the top bit of the
last byte, which takes a byte more when a digit already uses that bit. -/
def encodeNum (n : Int) : Item :=
  let ds := digits n.natAbs n.natAbs
  let top := ds.getLastD 0
  if 0x80 ≤ top.toNat then ds ++ [if n < 0 then 0x80 else 0]
  else if n < 0 then ds.dropLast ++ [top ||| 0x80]
  else ds

/-- A script number of at most four bytes, the last bit being its sign. -/
def decodeNum (item : Item) : Option Int :=
  if 4 < item.length then none
  else
    let top := (item.getLastD 0).toNat
    if 0x80 ≤ top then some (-((unpackLE item : Int) - 0x80 * 256 ^ (item.length - 1)))
    else some (unpackLE item)

/-- Every byte zero is false, and so is negative zero. -/
def isTrue : Item → Bool
  | [] => false
  | [b] => b ≠ 0 && b ≠ 0x80
  | b :: rest => b ≠ 0 || isTrue rest

def ofBool (b : Bool) : Item := if b then [1] else []

/-- Numbers below 128 are one byte, zero is none. -/
theorem encodeNum_small {n : Nat} (h : n < 128) :
    encodeNum n = if n = 0 then [] else [UInt8.ofNat n] := by
  have hd : digits n n = if n = 0 then [] else [UInt8.ofNat n] := by
    cases n with
    | zero => rfl
    | succ n =>
      have hq : (n + 1) / 256 = 0 := by omega
      cases n <;> simp [digits, hq]
  have hneg : ¬ ((n : Int) < 0) := by omega
  simp only [encodeNum, Int.natAbs_natCast, hd, hneg, if_false]
  by_cases hn : n = 0
  · simp [hn]
  · have hb : (UInt8.ofNat n).toNat = n := by
      rw [UInt8.toNat_ofNat']
      omega
    have hl : [UInt8.ofNat n].getLastD 0 = UInt8.ofNat n := rfl
    simp only [hn, if_false, hl, hb]
    rw [if_neg (by omega)]

theorem decodeNum_encodeNum {n : Nat} (h : n < 128) : decodeNum (encodeNum n) = some (n : Int) := by
  rw [encodeNum_small h]
  by_cases hn : n = 0
  · simp [hn, decodeNum, unpackLE]
  · have hb : (UInt8.ofNat n).toNat = n := by
      rw [UInt8.toNat_ofNat']
      omega
    have hl : [UInt8.ofNat n].getLastD 0 = UInt8.ofNat n := rfl
    simp only [hn, if_false, decodeNum, List.length_singleton, hl, hb]
    rw [if_neg (by omega), if_neg (by omega)]
    simp [unpackLE, hb]

@[simp] theorem isTrue_ofBool (b : Bool) : isTrue (ofBool b) = b := by
  cases b <;> rfl

theorem ofBool_eq_encodeNum (b : Bool) : ofBool b = encodeNum b.toNat := by
  cases b <;> rfl

/-- Match signatures against keys in one walk: a signature that fits is used up, a key is
used up either way. -/
def matchSigs (valid : Item → Item → Bool) : List Item → List Item → Bool
  | [], _ => true
  | _ :: _, [] => false
  | sig :: sigs, key :: keys =>
    if valid sig key then matchSigs valid sigs keys else matchSigs valid (sig :: sigs) keys

/-- A counted group from the top of the stack. -/
def popGroup : Stack → Option (List Item × Stack)
  | [] => none
  | count :: rest =>
    match decodeNum count with
    | none => none
    | some n =>
      if 0 ≤ n ∧ n.toNat ≤ rest.length then some (rest.take n.toNat, rest.drop n.toNat) else none

/-- A tapscript signature check: empty is false, valid is true, anything else aborts. -/
def checkSig (c : Context) (sig key : Item) : Option Bool :=
  if sig = [] then some false else if c.validSig sig key then some true else none

/-- Two numbers from the top of the stack. -/
def popNums : Stack → Option (Int × Int × Stack)
  | b :: a :: rest =>
    match decodeNum a, decodeNum b with
    | some x, some y => some (x, y, rest)
    | _, _ => none
  | _ => none

def stepOp (c : Context) : Opcode → Stack → Option Stack
  | .num n, s => some (encodeNum n :: s)
  | .numEqual, s => (popNums s).map fun (x, y, rest) => ofBool (x = y) :: rest
  | .numEqualVerify, s => (popNums s).bind fun (x, y, rest) => if x = y then some rest else none
  | .checkSig, key :: sig :: rest => (checkSig c sig key).map fun b => ofBool b :: rest
  | .checkSigAdd, key :: count :: sig :: rest =>
    match decodeNum count, checkSig c sig key with
    | some n, some b => some (encodeNum (n + b.toNat) :: rest)
    | _, _ => none
  | .checkMultiSig, s =>
    match popGroup s with
    | none => none
    | some (keys, s) =>
      match popGroup s with
      | some (sigs, [] :: rest) =>
        -- Both groups come off the stack last element first, which is consensus order.
        if sigs.length ≤ keys.length then some (ofBool (matchSigs c.validSig sigs keys) :: rest)
        else none
      | _ => none
  | _, _ => none

@[simp] theorem stepOp_num (c : Context) (n : Nat) (s : Stack) :
    stepOp c (.num n) s = some (encodeNum n :: s) := rfl

/-- A byte the table does not name aborts. -/
def step (c : Context) : Instr → Stack → Option Stack
  | .push data, s => some (data :: s)
  | .op code, s => (c.table code).bind fun o => stepOp c o s

def exec (c : Context) : List Instr → Stack → Option Stack
  | [], s => some s
  | i :: rest, s => (step c i s).bind (exec c rest)

/-- Decode and execute a script on a stack. -/
def run (c : Context) (script : Item) (s : Stack) : Option Stack :=
  (decode script).bind fun is => exec c is s

/-- The script does not abort and leaves exactly one element, a true one. -/
def Succeeds (c : Context) (script : Item) (s : Stack) : Prop :=
  ∃ top, run c script s = some [top] ∧ isTrue top = true

theorem exec_append (c : Context) (is js : List Instr) (s : Stack) :
    exec c (is ++ js) s = (exec c is s).bind (exec c js) := by
  induction is generalizing s with
  | nil => rfl
  | cons i is ih =>
    simp only [List.cons_append, exec]
    cases step c i s with
    | none => rfl
    | some s' => exact ih s'

/-- Greedy matching finds a match whenever the signatures can be assigned to keys in the
order of the keys. -/
theorem matchSigs_of_sublist {valid : Item → Item → Bool} {sigs chosen keys : List Item}
    (h : List.Forall₂ (fun sig key => valid sig key = true) sigs chosen)
    (hk : List.Sublist chosen keys) : matchSigs valid sigs keys = true := by
  induction keys generalizing sigs chosen with
  | nil =>
    cases hk
    cases h
    rfl
  | cons key keys ih =>
    cases h with
    | nil => rfl
    | @cons sig k sigs chosen hsig hrest =>
      by_cases hv : valid sig key = true
      · simp only [matchSigs, hv, if_true]
        -- The head of the list can be spent on this key even if it was meant for a later one.
        cases hk with
        | cons _ hk => exact ih hrest ((List.sublist_cons_self _ _).trans hk)
        | cons_cons _ hk => exact ih hrest hk
      · simp only [matchSigs, hv, if_false, Bool.false_eq_true]
        cases hk with
        | cons _ hk => exact ih (.cons hsig hrest) hk
        | cons_cons _ hk => exact absurd hsig hv

section Runs

variable {c : Context}

theorem exec_pushes (data : List Item) (s : Stack) :
    exec c (data.map .push) s = some (data.reverse ++ s) := by
  induction data generalizing s with
  | nil => rfl
  | cons item data ih =>
    have h := ih (item :: s)
    simpa [exec, step] using h

theorem popGroup_encodeNum {group : List Item} (rest : Stack) (h : group.length < 128) :
    popGroup (encodeNum group.length :: (group ++ rest)) = some (group, rest) := by
  simp [popGroup, decodeNum_encodeNum h]

/-- What is offered for a key: nothing, or a signature that is valid under it. -/
def Offered (c : Context) (key : Item) (slot : Option Item) : Prop :=
  ∀ sig ∈ slot, sig ≠ [] ∧ c.validSig sig key = true

theorem checkSig_offered {key : Item} {slot : Option Item} (h : Offered c key slot) :
    checkSig c (slot.getD []) key = some slot.isSome := by
  cases slot with
  | none => rfl
  | some sig =>
    obtain ⟨hne, hv⟩ := h sig rfl
    simp [checkSig, hne, hv]

/-- A key push and a check for each key; only the first check may be of another kind. -/
def slotInstrs (first add : UInt8) : List Item → List Instr
  | [] => []
  | key :: keys => .push key :: .op first :: slotInstrs add add keys

/-- One counted check. -/
theorem exec_checkSigAdd {add : UInt8} (hadd : c.table add = some .checkSigAdd) {key : Item}
    {slot : Option Item} (hkey : Offered c key slot) {count : Nat} (hcount : count < 128)
    (is : List Instr) (rest : Stack) :
    exec c (.push key :: .op add :: is) (encodeNum count :: slot.getD [] :: rest) =
      exec c is (encodeNum (count + slot.isSome.toNat : Nat) :: rest) := by
  simp only [exec, step, hadd, Option.bind_some, stepOp, decodeNum_encodeNum hcount,
    checkSig_offered hkey, Nat.cast_add]

/-- Each slot adds its signature to the counter. -/
theorem exec_checkSigAdds {add : UInt8} (hadd : c.table add = some .checkSigAdd)
    {keys : List Item} {slots : List (Option Item)} (h : List.Forall₂ (Offered c) keys slots)
    {count : Nat} (hcount : count + keys.length < 128) (rest : Stack) :
    exec c (slotInstrs add add keys)
        (encodeNum count :: (slots.map (fun slot => slot.getD []) ++ rest)) =
      some (encodeNum (count + slots.countP Option.isSome : Nat) :: rest) := by
  induction h generalizing count with
  | nil => rfl
  | @cons key slot keys slots hkey _ ih =>
    simp only [List.length_cons] at hcount
    have hbool : slot.isSome.toNat ≤ 1 := Bool.toNat_le _
    have hcons : (slot :: slots).countP Option.isSome =
        slot.isSome.toNat + slots.countP Option.isSome := by
      cases slot <;> simp [Nat.add_comm]
    rw [slotInstrs, List.map_cons, List.cons_append, exec_checkSigAdd hadd hkey (by omega),
      ih (by omega), hcons, Nat.add_assoc]

/-- The counting idiom leaves the number of signatures on the stack. -/
theorem exec_slots {first add : UInt8} (hfirst : c.table first = some .checkSig)
    (hadd : c.table add = some .checkSigAdd) {keys : List Item} {slots : List (Option Item)}
    (h : List.Forall₂ (Offered c) keys slots) (hne : keys ≠ []) (hn : keys.length < 128)
    (rest : Stack) :
    exec c (slotInstrs first add keys) (slots.map (fun slot => slot.getD []) ++ rest) =
      some (encodeNum (slots.countP Option.isSome : Nat) :: rest) := by
  cases h with
  | nil => exact absurd rfl hne
  | @cons key slot keys slots hkey hkeys =>
    simp only [List.length_cons] at hn
    have hbool : slot.isSome.toNat ≤ 1 := Bool.toNat_le _
    have hcons : (slot :: slots).countP Option.isSome =
        slot.isSome.toNat + slots.countP Option.isSome := by
      cases slot <;> simp [Nat.add_comm]
    have hslot : exec c (slotInstrs first add (key :: keys))
          ((slot :: slots).map (fun slot => slot.getD []) ++ rest) =
        exec c (slotInstrs add add keys)
          (encodeNum (slot.isSome.toNat : Nat) ::
            (slots.map (fun slot => slot.getD []) ++ rest)) := by
      simp only [slotInstrs, List.map_cons, List.cons_append, exec, step, hfirst,
        Option.bind_some, stepOp, checkSig_offered hkey, Option.map_some, ofBool_eq_encodeNum]
    rw [hslot, exec_checkSigAdds hadd hkeys (by omega), hcons]

/-- The matching idiom succeeds when the signatures follow the order of the keys. -/
theorem exec_multiSig {opM opN check : UInt8} {sigs chosen keys : List Item}
    (hM : c.table opM = some (.num sigs.length)) (hN : c.table opN = some (.num keys.length))
    (hcheck : c.table check = some .checkMultiSig) (hn : keys.length < 128)
    (hsigs : List.Forall₂ (fun sig key => c.validSig sig key = true) sigs chosen)
    (hsub : chosen.Sublist keys) (rest : Stack) :
    exec c (.op opM :: (keys.map .push ++ [.op opN, .op check]))
      (sigs.reverse ++ [] :: rest) = some (ofBool true :: rest) := by
  have hle : sigs.length ≤ keys.length := hsigs.length_eq ▸ hsub.length_le
  have hmatch : matchSigs c.validSig sigs.reverse keys.reverse = true :=
    matchSigs_of_sublist (List.rel_reverse hsigs) hsub.reverse
  have hnkeys : keys.reverse.length < 128 := by simpa using hn
  have hnsigs : sigs.reverse.length < 128 := by simpa using lt_of_le_of_lt hle hn
  have hkeys := popGroup_encodeNum
    (encodeNum (sigs.length : Nat) :: (sigs.reverse ++ [] :: rest)) hnkeys
  have hgroup := popGroup_encodeNum ([] :: rest) hnsigs
  simp only [List.length_reverse] at hkeys hgroup
  simp only [exec, step, hM, Option.bind_some, stepOp, exec_append, exec_pushes, hN, hcheck,
    hkeys, hgroup, List.length_reverse, hle, hmatch, if_true]

end Runs

end ScriptVm
