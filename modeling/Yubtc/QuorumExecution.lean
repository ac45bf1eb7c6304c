import Yubtc.Quorum

/-!
# Quorum scripts on the stack machine

What the canonical quorum scripts decode to under the repository's opcode table, and where
their execution ends.
-/
namespace Yubtc.QuorumExecution

open Wire Script Quorum ScriptVm

/-- The consensus reading of a script: the opcode table, and a validity relation. -/
def scriptContext (valid : Bytes → Bytes → Bool) : Context := ⟨opcodeTable, valid⟩

/-- The same table with another comparison as the byte that ends a leaf. -/
def leafContext (compare : Opcode) (valid : Bytes → Bytes → Bool) : Context :=
  ⟨fun b => if b = tapscriptNumequal then some compare else opcodeTable b, valid⟩

/-- In the table, the byte that ends a leaf verifies and leaves nothing. -/
theorem scriptContext_eq (valid : Bytes → Bytes → Bool) :
    scriptContext valid = leafContext .numEqualVerify valid := by
  have htable : opcodeTable = fun b =>
      if b = tapscriptNumequal then some .numEqualVerify else opcodeTable b := by
    funext b
    by_cases hb : b = tapscriptNumequal
    · rw [if_pos hb, hb]
      decide
    · rw [if_neg hb]
  rw [scriptContext, leafContext, ← htable]

theorem opcodeTable_opByte {n : Nat} (hpos : 1 ≤ n) (h : n ≤ msMaxPubkeys) :
    opcodeTable (UInt8.ofNat (0x50 + n)) = some (.num n) := by
  have hn : n ≤ 15 := h
  have hb := toNat_opByte h
  have hop1 : op1.toNat = 0x51 := rfl
  have hop16 : op16.toNat = 0x60 := rfl
  have hrange : op1 ≤ UInt8.ofNat (0x50 + n) ∧ UInt8.ofNat (0x50 + n) ≤ op16 := by
    rw [UInt8.le_iff_toNat_le, UInt8.le_iff_toNat_le]
    omega
  rw [opcodeTable, if_pos hrange, hb, Nat.add_sub_cancel_left]

theorem opByte_ne_tapscriptNumequal {n : Nat} (h : n ≤ msMaxPubkeys) :
    UInt8.ofNat (0x50 + n) ≠ tapscriptNumequal := by
  intro he
  have hb := toNat_opByte h
  have hn : n ≤ 15 := h
  rw [he] at hb
  have ht : tapscriptNumequal.toNat = 157 := rfl
  omega

theorem decode_keyPush {w : UInt8} {key : Bytes} (hw : w = UInt8.ofNat key.length)
    (h : key.length ≤ 33) (rest : Bytes) :
    decode (w :: (key ++ rest)) = (decode rest).map (.push key :: ·) := by
  rw [hw]
  apply decode_direct
  omega

theorem decode_keyPushes {keys : List Bytes} (h : ∀ key ∈ keys, key.length = 33) (rest : Bytes) :
    decode ((keys.map (fun key => 0x21 :: key)).flatten ++ rest) =
      (decode rest).map (keys.map Instr.push ++ ·) := by
  induction keys with
  | nil => cases hr : decode rest <;> simp [hr]
  | cons key keys ih =>
    have hk : key.length = 33 := h key List.mem_cons_self
    have ih := ih fun key hk => h key (List.mem_cons_of_mem _ hk)
    simp only [List.map_cons, List.flatten_cons, List.cons_append, List.append_assoc]
    rw [decode_keyPush (by rw [hk]; rfl) (by omega), ih]
    cases decode rest <;> simp

/-- A redeem script is a number, key pushes, a number and the check. -/
theorem decode_redeemBytes {m : Nat} {keys : List Bytes} (h : IsQuorum 33 m keys) :
    decode (redeemBytes m keys) =
      some (.op (UInt8.ofNat (0x50 + m)) :: (keys.map .push ++
        [.op (UInt8.ofNat (0x50 + keys.length)), .op opCheckmultisig])) := by
  have hm := toNat_opByte (h.threshold.trans h.bound)
  have hn := toNat_opByte h.bound
  rw [redeemBytes, List.cons_append, decode_op _ (by omega), decode_keyPushes h.keyLength,
    decode_op _ (by omega), decode_op _ (by decide), decode_nil]
  simp

theorem decode_slots {f : Nat → UInt8} (hf : ∀ i, 0x4e < (f i).toNat) {keys : List Bytes}
    (h : ∀ key ∈ keys, key.length = 32) (rest : Bytes) :
    decode ((keys.mapIdx fun i key => 0x20 :: key ++ [f i]).flatten ++ rest) =
      (decode rest).map ((keys.mapIdx fun i key => [Instr.push key, .op (f i)]).flatten ++ ·) := by
  induction keys generalizing f with
  | nil => cases hr : decode rest <;> simp [hr]
  | cons key keys ih =>
    have hk : key.length = 32 := h key List.mem_cons_self
    have ih := ih (fun i => hf (i + 1)) fun key hk => h key (List.mem_cons_of_mem _ hk)
    simp only [List.mapIdx_cons, List.flatten_cons, List.cons_append, List.append_assoc,
      List.nil_append] at ih ⊢
    rw [decode_keyPush (by rw [hk]; rfl) (by omega), decode_op _ (hf 0), ih]
    cases decode rest <;> simp

theorem flatten_slots_add (keys : List Bytes) :
    (keys.mapIdx fun _ key => [Instr.push key, .op opChecksigadd]).flatten =
      slotInstrs opChecksigadd opChecksigadd keys := by
  induction keys with
  | nil => rfl
  | cons key keys ih =>
    rw [List.mapIdx_cons, List.flatten_cons, ih]
    rfl

theorem flatten_slots (keys : List Bytes) :
    (keys.mapIdx fun i key => [Instr.push key, .op (slotOpcode i)]).flatten =
      slotInstrs opChecksig opChecksigadd keys := by
  cases keys with
  | nil => rfl
  | cons key keys =>
    rw [List.mapIdx_cons, List.flatten_cons]
    exact congrArg (fun is => Instr.push key :: .op opChecksig :: is) (flatten_slots_add keys)

/-- A leaf is its slots, the threshold and the terminator. -/
theorem decode_tapscriptBytes {m : Nat} {keys : List Bytes} (h : IsQuorum 32 m keys) :
    decode (tapscriptBytes m keys) =
      some (slotInstrs opChecksig opChecksigadd keys ++
        [.op (UInt8.ofNat (0x50 + m)), .op tapscriptNumequal]) := by
  have hm := toNat_opByte (h.threshold.trans h.bound)
  have hslot : ∀ i, 0x4e < (slotOpcode i).toNat := by
    intro i
    unfold slotOpcode
    split <;> decide
  rw [tapscriptBytes, decode_slots hslot h.keyLength, decode_op _ (by omega),
    decode_op _ (by decide), decode_nil, flatten_slots]
  rfl

/-- Signatures that follow the order of the keys satisfy a redeem script. -/
theorem run_redeemBytes {valid : Bytes → Bytes → Bool} {sigs chosen keys : List Bytes}
    (h : IsQuorum 33 sigs.length keys)
    (hsigs : List.Forall₂ (fun sig key => valid sig key = true) sigs chosen)
    (hsub : chosen.Sublist keys) :
    run (scriptContext valid) (redeemBytes sigs.length keys) (sigs.reverse ++ [[]]) =
      some [ofBool true] := by
  have hbound : keys.length ≤ 15 := h.bound
  rw [run, decode_redeemBytes h, Option.bind_some]
  exact exec_multiSig (c := scriptContext valid)
    (opcodeTable_opByte h.pos (h.threshold.trans h.bound))
    (opcodeTable_opByte (h.pos.trans h.threshold) h.bound) rfl (by omega) hsigs hsub []

/-- A leaf ends by comparing the threshold with the number of signatures. -/
theorem run_tapscriptBytes {compare : Opcode} {valid : Bytes → Bytes → Bool} {m : Nat}
    {keys : List Bytes} (h : IsQuorum 32 m keys) {slots : List (Option Bytes)}
    (hslots : List.Forall₂ (Offered (leafContext compare valid)) keys slots) :
    run (leafContext compare valid) (tapscriptBytes m keys) (slots.map (fun slot => slot.getD [])) =
      stepOp (leafContext compare valid) compare
        [encodeNum (m : Nat), encodeNum (slots.countP Option.isSome : Nat)] := by
  have hbound : keys.length ≤ 15 := h.bound
  have hmax := h.threshold.trans h.bound
  have hne : keys ≠ [] := by
    intro he
    have hlen := h.pos.trans h.threshold
    simp [he] at hlen
  have hm : (leafContext compare valid).table (UInt8.ofNat (0x50 + m)) = some (.num m) :=
    (if_neg (opByte_ne_tapscriptNumequal hmax)).trans (opcodeTable_opByte h.pos hmax)
  have hend : (leafContext compare valid).table tapscriptNumequal = some compare := by
    simp [leafContext]
  have hfirst : (leafContext compare valid).table opChecksig = some .checkSig := rfl
  have hadd : (leafContext compare valid).table opChecksigadd = some .checkSigAdd := rfl
  have hcount := exec_slots hfirst hadd hslots hne (by omega) []
  rw [List.append_nil] at hcount
  rw [run, decode_tapscriptBytes h, Option.bind_some, exec_append, hcount, Option.bind_some]
  simp only [exec, step, hm, hend, Option.bind_some, stepOp_num]
  exact Option.bind_fun_some _

/-- The number of signatures meets the threshold, and the verifying comparison leaves an
empty stack. -/
theorem run_tapscriptBytes_verify {valid : Bytes → Bytes → Bool} {m : Nat} {keys : List Bytes}
    (h : IsQuorum 32 m keys) {slots : List (Option Bytes)}
    (hslots : List.Forall₂ (Offered (scriptContext valid)) keys slots)
    (hcount : slots.countP Option.isSome = m) :
    run (scriptContext valid) (tapscriptBytes m keys) (slots.map (fun slot => slot.getD [])) =
      some [] := by
  have hbound : m ≤ 15 := h.threshold.trans h.bound
  rw [scriptContext_eq] at hslots ⊢
  rw [run_tapscriptBytes h hslots, hcount]
  simp [stepOp, popNums, decodeNum_encodeNum (show m < 128 by omega)]

/-- With the plain comparison in its place, the same witness would succeed. -/
theorem run_tapscriptBytes_numEqual {valid : Bytes → Bytes → Bool} {m : Nat} {keys : List Bytes}
    (h : IsQuorum 32 m keys) {slots : List (Option Bytes)}
    (hslots : List.Forall₂ (Offered (leafContext .numEqual valid)) keys slots)
    (hcount : slots.countP Option.isSome = m) :
    Succeeds (leafContext .numEqual valid) (tapscriptBytes m keys)
      (slots.map (fun slot => slot.getD [])) := by
  have hbound : m ≤ 15 := h.threshold.trans h.bound
  refine ⟨ofBool true, ?_, rfl⟩
  rw [run_tapscriptBytes h hslots, hcount]
  simp [stepOp, popNums, decodeNum_encodeNum (show m < 128 by omega)]

end Yubtc.QuorumExecution
