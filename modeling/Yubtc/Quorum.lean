import Yubtc.Script
import Yubtc.Lib.Frames
import Yubtc.Lib.KeyedList

/-!
# Quorum scripts

What the builders accept and build, and what the strict extractors accept: exactly the
canonical bytes of an admissible quorum. Every later fact about a quorum script starts from
the two characterizations of extraction.
-/
namespace Yubtc.Quorum

open LittleEndian Wire Errors ExceptRules Script Frames

/-- Bounds and key shape of a quorum whose keys have the given length. -/
structure IsQuorum (keyLength m : Nat) (keys : List Bytes) : Prop where
  pos : 1 ≤ m
  threshold : m ≤ keys.length
  bound : keys.length ≤ msMaxPubkeys
  keyLength : ∀ key ∈ keys, key.length = keyLength
  nodup : keys.Nodup

/-- The canonical redeem script over keys in script order. -/
def redeemBytes (m : Nat) (keys : List Bytes) : Bytes :=
  UInt8.ofNat (0x50 + m) :: (keys.map (fun key => 0x21 :: key)).flatten ++
    [UInt8.ofNat (0x50 + keys.length), opCheckmultisig]

/-- The canonical tapscript leaf over keys in script order. -/
def tapscriptBytes (m : Nat) (keys : List Bytes) : Bytes :=
  (keys.mapIdx fun i key => 0x20 :: key ++ [slotOpcode i]).flatten ++
    [UInt8.ofNat (0x50 + m), tapscriptNumequal]

theorem sortedKeys_perm (keys : List Bytes) : (sortedKeys keys).Perm keys :=
  List.perm_insertionSort _ keys

theorem sortedKeys_nodup {keys : List Bytes} (h : keys.Nodup) : (sortedKeys keys).Nodup :=
  (sortedKeys_perm keys).nodup_iff.mpr h

@[simp] theorem sortedKeys_length (keys : List Bytes) :
    (sortedKeys keys).length = keys.length := (sortedKeys_perm keys).length_eq

@[simp] theorem mem_sortedKeys {keys : List Bytes} {key : Bytes} :
    key ∈ sortedKeys keys ↔ key ∈ keys := (sortedKeys_perm keys).mem_iff

/-- The order of the argument list does not matter. -/
theorem sortedKeys_congr {keys keys' : List Bytes} (h : keys.Perm keys') :
    sortedKeys keys = sortedKeys keys' := by
  refine List.Perm.eq_of_pairwise (fun a b _ _ => List.le_antisymm)
    (List.pairwise_insertionSort _ keys) (List.pairwise_insertionSort _ keys') ?_
  exact (sortedKeys_perm keys).trans (h.trans (sortedKeys_perm keys').symm)

/-- What passes the checks of the builders. -/
theorem checkedKeys_eq_ok {keyLength : Nat} {e : Exn} {m : Int} {keys sorted : List Bytes} :
    checkedKeys keyLength e m keys = .ok sorted ↔
      (keys ≠ [] ∧ m ≠ 0 ∧ m ≤ keys.length ∧ keys.length ≤ msMaxPubkeys) ∧
        (∀ key ∈ keys, key.length = keyLength) ∧ keys.Nodup ∧ sortedKeys keys = sorted := by
  have hadj := KeyedList.adjacent_ne_iff_nodup (fun a b => List.le_antisymm)
    (List.pairwise_insertionSort (· ≤ ·) keys)
  rw [show keys.insertionSort (· ≤ ·) = sortedKeys keys from rfl,
    (sortedKeys_perm keys).nodup_iff] at hadj
  simp only [checkedKeys, reject_bind_eq_ok, pure_eq_ok, Except.ok.injEq, hadj,
    List.length_eq_zero_iff]
  refine and_congr ?_ (and_congr_left fun _ => ?_)
  · simp only [not_or, ne_eq, Int.not_lt, gt_iff_lt, Nat.not_lt]
  · simp

theorem byteOf_opN {m : Nat} (h : m ≤ msMaxPubkeys) :
    byteOf (opN m) = .ok (UInt8.ofNat (0x50 + m)) := by
  have hm : m ≤ 15 := h
  have hr : ¬ ¬ (0 ≤ opN m ∧ opN m < 256) := by
    simp only [opN, not_not]
    omega
  rw [byteOf, reject_false _ hr, ok_bind]
  have ht : (opN (m : Int)).toNat = 0x50 + m := by
    simp only [opN]
    omega
  rw [ht, pure_eq_ok]

/-- A quorum within bounds has a redeem script, the canonical one over its sorted keys. -/
theorem makeMultisigRedeemScript_ok {m : Nat} {keys : List Bytes} (h : IsQuorum 33 m keys) :
    makeMultisigRedeemScript m keys = .ok (redeemBytes m (sortedKeys keys)) := by
  have hpos := h.pos
  have hle := h.threshold
  have hchecked : checkedKeys 33 .invalidMultisigRedeem m keys = .ok (sortedKeys keys) := by
    refine checkedKeys_eq_ok.mpr ⟨⟨?_, by omega, by omega, h.bound⟩, h.keyLength, h.nodup, rfl⟩
    exact List.ne_nil_of_length_pos (by omega)
  rw [makeMultisigRedeemScript, hchecked, ok_bind, byteOf_opN (hle.trans h.bound), ok_bind,
    byteOf_opN h.bound, ok_bind, pure_eq_ok, redeemBytes, sortedKeys_length, List.flatMap_def]

/-- A quorum within bounds has a leaf, the canonical one over its sorted keys. -/
theorem makeMultisigTapscript_ok {m : Nat} {keys : List Bytes} (h : IsQuorum 32 m keys) :
    makeMultisigTapscript m keys = .ok (tapscriptBytes m (sortedKeys keys)) := by
  have hpos := h.pos
  have hle := h.threshold
  have hchecked : checkedKeys 32 .invalidMultisigTapscript m keys = .ok (sortedKeys keys) := by
    refine checkedKeys_eq_ok.mpr ⟨⟨?_, by omega, by omega, h.bound⟩, h.keyLength, h.nodup, rfl⟩
    exact List.ne_nil_of_length_pos (by omega)
  rw [makeMultisigTapscript, hchecked, ok_bind, byteOf_opN (hle.trans h.bound), ok_bind,
    pure_eq_ok, tapscriptBytes]

/-- Whatever passes the shared checks is a quorum. -/
theorem isQuorum_of_checkedKeys {keyLength m : Nat} {e : Exn} {keys sorted : List Bytes}
    (h : checkedKeys keyLength e m keys = .ok sorted) : IsQuorum keyLength m keys := by
  obtain ⟨⟨-, hpos, hle, hbound⟩, hlen, hnd, -⟩ := checkedKeys_eq_ok.mp h
  exact ⟨by omega, by omega, hbound, hlen, hnd⟩

/-- The builders accept exactly the quorums within bounds. -/
theorem makeMultisigRedeemScript_eq_ok {m : Nat} {keys : List Bytes} {script : Bytes} :
    makeMultisigRedeemScript m keys = .ok script ↔
      IsQuorum 33 m keys ∧ script = redeemBytes m (sortedKeys keys) := by
  constructor
  · intro h
    obtain ⟨sorted, hsorted, -⟩ := bind_eq_ok.mp h
    have hq := isQuorum_of_checkedKeys hsorted
    rw [makeMultisigRedeemScript_ok hq] at h
    exact ⟨hq, (Except.ok.inj h).symm⟩
  · rintro ⟨hq, rfl⟩
    exact makeMultisigRedeemScript_ok hq

theorem makeMultisigTapscript_eq_ok {m : Nat} {keys : List Bytes} {script : Bytes} :
    makeMultisigTapscript m keys = .ok script ↔
      IsQuorum 32 m keys ∧ script = tapscriptBytes m (sortedKeys keys) := by
  constructor
  · intro h
    obtain ⟨sorted, hsorted, -⟩ := bind_eq_ok.mp h
    have hq := isQuorum_of_checkedKeys hsorted
    rw [makeMultisigTapscript_ok hq] at h
    exact ⟨hq, (Except.ok.inj h).symm⟩
  · rintro ⟨hq, rfl⟩
    exact makeMultisigTapscript_ok hq

theorem IsQuorum.sorted {keyLength m : Nat} {keys : List Bytes} (h : IsQuorum keyLength m keys) :
    IsQuorum keyLength m (sortedKeys keys) where
  pos := h.pos
  threshold := by simpa using h.threshold
  bound := by simpa using h.bound
  keyLength := fun key hk => h.keyLength key (mem_sortedKeys.mp hk)
  nodup := sortedKeys_nodup h.nodup

theorem cons_of_length {w : Nat} {f : Bytes} (h : f.length = w + 1) :
    f = f.getD 0 0 :: f.drop 1 := by
  cases f with
  | nil => simp at h
  | cons b f => simp

/-- The last two bytes of a script. -/
theorem drop_last_two {l : Bytes} (h : 2 ≤ l.length) :
    l.drop (l.length - 2) = [l.getD (l.length - 2) 0, l.getD (l.length - 1) 0] := by
  apply List.ext_getElem
  · simp; omega
  · intro i hi hi'
    simp only [List.length_drop] at hi
    have : i = 0 ∨ i = 1 := by omega
    rcases this with rfl | rfl
    · simp [List.getD_eq_getElem?_getD, List.getElem?_eq_getElem (show l.length - 2 < l.length by omega)]
    · simp [List.getD_eq_getElem?_getD, List.getElem?_eq_getElem (show l.length - 1 < l.length by omega),
        show l.length - 2 + 1 = l.length - 1 by omega]

/-- A slot is accepted when its 34 bytes are a direct push of a compressed key. -/
theorem quorumSlot_eq_ok {script key : Bytes} {i n : Nat} (hlen : n * 34 ≤ (script.drop 1).length)
    (hi : i < n) :
    quorumSlot script i = .ok key ↔
      frame 34 (script.drop 1) i = 0x21 :: key ∧ isCanonicalCompressedPubkey key = true := by
  have hf := cons_of_length (frame_length _ hlen hi)
  have hhead := frame_getD (script.drop 1) 0 (show 0 < 34 by decide) i
  have hkey := frame_part (script.drop 1) 1 (le_refl 34) i
  have hstart : script.getD (1 + i * 34) 0 = (frame 34 (script.drop 1) i).getD 0 0 := by
    rw [hhead, List.getD_eq_getElem?_getD, List.getD_eq_getElem?_getD, List.getElem?_drop]
    rfl
  have hslice : slice script (1 + i * 34 + 1) (1 + i * 34 + 34) =
      (frame 34 (script.drop 1) i).drop 1 := by
    have hall : ((frame 34 (script.drop 1) i).drop 1).take (34 - 1) =
        (frame 34 (script.drop 1) i).drop 1 := by
      apply List.take_of_length_le
      rw [List.length_drop, frame_length _ hlen hi]
    rw [← hall, hkey, slice, List.drop_drop, show 1 + i * 34 + 1 = 1 + (i * 34 + 1) by omega]
    congr 1
    omega
  simp only [quorumSlot, reject_bind_eq_ok, hstart, hslice, not_not, pure_eq_ok, Except.ok.injEq]
  constructor
  · rintro ⟨h0, hc, rfl⟩
    exact ⟨by rw [hf, h0]; simp, by simpa using hc⟩
  · rintro ⟨he, hc⟩
    rw [he]
    simp [hc]

theorem getD_end (body : Bytes) (x y : UInt8) :
    (body ++ [x, y]).getD ((body ++ [x, y]).length - 2) 0 = x ∧
      (body ++ [x, y]).getD ((body ++ [x, y]).length - 1) 0 = y := by
  have h := drop_last_two (l := body ++ [x, y]) (by simp)
  simp only [List.length_append, List.length_cons, List.length_nil, Nat.add_sub_cancel,
    List.drop_left, List.cons.injEq, and_true] at h ⊢
  exact ⟨h.1.symm, h.2.symm⟩

theorem redeemBytes_body_length {keys : List Bytes} (h : ∀ key ∈ keys, key.length = 33) :
    (keys.map (fun key => 0x21 :: key)).flatten.length = keys.length * 34 := by
  rw [flatten_length (w := 34), List.length_map]
  intro f hf
  obtain ⟨key, hk, rfl⟩ := List.mem_map.mp hf
  simp [h key hk]

theorem redeemBytes_length {m : Nat} {keys : List Bytes} (h : ∀ key ∈ keys, key.length = 33) :
    (redeemBytes m keys).length = keys.length * 34 + 3 := by
  simp only [redeemBytes, List.cons_append, List.length_cons, List.length_append,
    redeemBytes_body_length h, List.length_nil]

/-- A redeem script determines its quorum. -/
theorem redeemBytes_injective {m m' : Nat} {keys keys' : List Bytes} (h : IsQuorum 33 m keys)
    (h' : IsQuorum 33 m' keys') (he : redeemBytes m keys = redeemBytes m' keys') :
    m = m' ∧ keys = keys' := by
  have hm : m ≤ 15 := h.threshold.trans h.bound
  have hm' : m' ≤ 15 := h'.threshold.trans h'.bound
  simp only [redeemBytes, List.cons_append, List.cons.injEq] at he
  obtain ⟨hfirst, hrest⟩ := he
  have hthreshold : 0x50 + m = 0x50 + m' := by
    have hb := congrArg UInt8.toNat hfirst
    rwa [UInt8.toNat_ofNat', UInt8.toNat_ofNat', Nat.mod_eq_of_lt (by omega),
      Nat.mod_eq_of_lt (by omega)] at hb
  have hbody := (List.append_inj' hrest rfl).1
  have hwidth : ∀ ks : List Bytes, (∀ key ∈ ks, key.length = 33) →
      ∀ f ∈ ks.map (fun key => 0x21 :: key), f.length = 34 := by
    intro ks hks f hf
    obtain ⟨key, hk, rfl⟩ := List.mem_map.mp hf
    simp [hks key hk]
  have hframes := flatten_injective (by decide) (hwidth keys h.keyLength)
    (hwidth keys' h'.keyLength) hbody
  exact ⟨by omega, List.map_injective_iff.mpr (List.cons_injective) hframes⟩

/-- The slots of a script are read off as its keys. -/
theorem quorumSlots_eq_ok {script : Bytes} {n : Nat} {keys : List Bytes}
    (hlen : n * 34 ≤ (script.drop 1).length) :
    (List.range n).mapM (quorumSlot script) = .ok keys ↔
      (List.range n).map (frame 34 (script.drop 1)) = keys.map (fun key => 0x21 :: key) ∧
        ∀ key ∈ keys, isCanonicalCompressedPubkey key = true := by
  rw [mapM_range_eq_ok fun i hi key => quorumSlot_eq_ok hlen hi]
  have hconst : keys.mapIdx (fun _ => List.cons (0x21 : UInt8)) = keys.map (List.cons 0x21) :=
    List.ext_getElem (by simp) fun i _ _ => by simp
  exact and_congr_left fun _ => by rw [hconst]

theorem toNat_opByte {n : Nat} (h : n ≤ msMaxPubkeys) : (UInt8.ofNat (0x50 + n)).toNat = 0x50 + n := by
  have hn : n ≤ 15 := h
  rw [UInt8.toNat_ofNat']
  omega

/-- A canonical script passes the strict extractor. -/
theorem extractMultisigQuorum_redeemBytes {m : Nat} {keys : List Bytes} (h : IsQuorum 33 m keys)
    (hc : ∀ key ∈ keys, isCanonicalCompressedPubkey key = true) :
    extractMultisigQuorum (redeemBytes m keys) = .ok (m, keys) := by
  have hpos := h.pos
  have hle := h.threshold
  have hbound : keys.length ≤ 15 := h.bound
  have hlen := redeemBytes_length (m := m) h.keyLength
  have hend := getD_end (UInt8.ofNat (0x50 + m) :: (keys.map (fun key => 0x21 :: key)).flatten)
    (UInt8.ofNat (0x50 + keys.length)) opCheckmultisig
  have hmid : (redeemBytes m keys).drop 1 = (keys.map (fun key => 0x21 :: key)).flatten ++
      [UInt8.ofNat (0x50 + keys.length), opCheckmultisig] := rfl
  have hslots : (List.range keys.length).mapM (quorumSlot (redeemBytes m keys)) = .ok keys := by
    refine (quorumSlots_eq_ok ?_).mpr ⟨?_, hc⟩
    · rw [List.length_drop, hlen]
      omega
    · refine List.ext_getElem (by simp) fun i hi hi' => ?_
      simp only [List.length_map] at hi'
      rw [List.getElem_map, List.getElem_range, hmid,
        frame_flatten (fun f hf => ?_) _ (by simpa using hi')]
      obtain ⟨key, hk, rfl⟩ := List.mem_map.mp hf
      simp [h.keyLength key hk]
  have hfirst : (redeemBytes m keys).getD 0 0 = UInt8.ofNat (0x50 + m) := rfl
  have hn : (redeemBytes m keys).getD ((redeemBytes m keys).length - 2) 0 =
      UInt8.ofNat (0x50 + keys.length) := hend.1
  have hlast : (redeemBytes m keys).getD ((redeemBytes m keys).length - 1) 0 =
      opCheckmultisig := hend.2
  have hmop := toNat_opByte (hle.trans h.bound)
  have hnop := toNat_opByte h.bound
  have hmax : msMaxPubkeys = 15 := rfl
  simp only [extractMultisigQuorum, hfirst, hn, hlast, hmop, hnop, Nat.add_sub_cancel_left]
  simp only [reject_bind_eq_ok, hslots, ok_bind, pure_eq_ok, and_true, hlen, hmax]
  refine ⟨by omega, by simp, by omega, by omega, by omega, ?_⟩
  simpa using h.nodup

/-- The extractor accepts exactly the canonical scripts of admissible quorums. -/
theorem extractMultisigQuorum_eq_ok {script : Bytes} {m : Nat} {keys : List Bytes} :
    extractMultisigQuorum script = .ok (m, keys) ↔
      IsQuorum 33 m keys ∧ (∀ key ∈ keys, isCanonicalCompressedPubkey key = true) ∧
        script = redeemBytes m keys := by
  refine ⟨fun h => ?_, fun ⟨h, hc, he⟩ => he ▸ extractMultisigQuorum_redeemBytes h hc⟩
  simp only [extractMultisigQuorum, bind_eq_ok, pure_eq_ok, Except.ok.injEq, Prod.mk.injEq,
    not_or, not_not, reject_eq_ok, exists_const] at h
  obtain ⟨hlen, hlast, ⟨⟨hm1, hm2⟩, hn1, hn2⟩, hmn, hbody, keys, hslots, hnd, hm, rfl⟩ := h
  have hmax : msMaxPubkeys = 15 := rfl
  have hdrop : (script.drop 1).length = script.length - 1 := List.length_drop
  obtain ⟨hframes, hcanon⟩ := (quorumSlots_eq_ok (by omega)).mp hslots
  have hn : keys.length = (script.getD (script.length - 2) 0).toNat - 0x50 := by
    simpa using (congrArg List.length hframes).symm
  rw [← hn] at hbody hframes
  -- The script is its first byte, its slots and its last two bytes.
  have hmid : (script.drop 1).take (keys.length * 34) =
      (keys.map (fun key => 0x21 :: key)).flatten := by
    rw [← flatten_frames, hframes]
  have htail : (script.drop 1).drop (keys.length * 34) =
      [script.getD (script.length - 2) 0, opCheckmultisig] := by
    rw [← hlast, ← drop_last_two (by omega), List.drop_drop]
    congr 1
    omega
  have hfirst : script.getD 0 0 = UInt8.ofNat (0x50 + m) := by
    rw [show 0x50 + m = (script.getD 0 0).toNat by omega, UInt8.ofNat_toNat]
  have hsecond : script.getD (script.length - 2) 0 = UInt8.ofNat (0x50 + keys.length) := by
    rw [show 0x50 + keys.length = (script.getD (script.length - 2) 0).toNat by omega,
      UInt8.ofNat_toNat]
  refine ⟨⟨by omega, by omega, by omega, fun key hk => ?_, hnd⟩, hcanon, ?_⟩
  · obtain ⟨i, hi, rfl⟩ := List.getElem_of_mem hk
    have hget := List.getElem_of_eq hframes (show i < _ by simpa using hi)
    rw [List.getElem_map, List.getElem_range, List.getElem_map] at hget
    have := frame_length (w := 34) (n := keys.length) (script.drop 1) (by omega) hi
    rw [hget] at this
    simpa using this
  · rw [redeemBytes, ← hfirst, ← hmid, ← hsecond, List.cons_append, ← htail, List.take_append_drop]
    exact cons_of_length (w := script.length - 1) (by omega)

theorem cons_append_of_length {w : Nat} {f : Bytes} (h : f.length = w + 2) :
    f = f.getD 0 0 :: (f.drop 1).take w ++ [f.getD (w + 1) 0] := by
  cases f with
  | nil => simp at h
  | cons b t =>
    have ht : t.length = w + 1 := by simpa using h
    have hw : w < t.length := by omega
    have hlast : t.drop w = [t.getD w 0] := by
      rw [List.drop_eq_getElem_cons hw, List.drop_of_length_le (by omega),
        List.getD_eq_getElem?_getD, List.getElem?_eq_getElem hw, Option.getD_some]
    simp only [List.drop_one, List.tail_cons, List.getD_cons_succ, List.getD_cons_zero,
      List.cons_append, ← hlast, List.take_append_drop]

/-- A slot is accepted when its 34 bytes are an x-only key push and the slot's opcode. -/
theorem tapscriptSlot_eq_ok {script key : Bytes} {i n : Nat} (hlen : n * 34 ≤ script.length)
    (hi : i < n) :
    tapscriptSlot script i = .ok key ↔
      frame 34 script i = 0x20 :: key ++ [slotOpcode i] ∧ key.length = 32 := by
  have hflen := frame_length _ hlen hi
  have hf := cons_append_of_length hflen
  have hhead : script.getD (i * 34) 0 = (frame 34 script i).getD 0 0 :=
    (frame_getD script 0 (show 0 < 34 by decide) i).symm
  have hlast : script.getD (i * 34 + 33) 0 = (frame 34 script i).getD 33 0 :=
    (frame_getD script 0 (show 33 < 34 by decide) i).symm
  have hslice : slice script (i * 34 + 1) (i * 34 + 33) =
      ((frame 34 script i).drop 1).take 32 := by
    rw [frame_part script 1 (show 33 ≤ 34 by decide) i, slice]
    congr 1
    omega
  simp only [tapscriptSlot, reject_bind_eq_ok, hhead, hlast, hslice, not_not, pure_eq_ok,
    Except.ok.injEq]
  constructor
  · rintro ⟨h0, h33, rfl⟩
    refine ⟨by rw [← h0, ← h33]; exact hf, ?_⟩
    simp [hflen]
  · rintro ⟨he, hk⟩
    rw [he]
    refine ⟨by simp, ?_, by simp [← hk]⟩
    rw [show 33 = (0x20 :: key).length by simp [hk]]
    simp [List.getD_eq_getElem?_getD]

theorem tapscriptBytes_body_length {keys : List Bytes} (h : ∀ key ∈ keys, key.length = 32) :
    (keys.mapIdx fun i key => 0x20 :: key ++ [slotOpcode i]).flatten.length =
      keys.length * 34 := by
  rw [flatten_length (w := 34), List.length_mapIdx]
  intro f hf
  obtain ⟨i, hi, rfl⟩ := List.mem_mapIdx.mp hf
  simp [h keys[i] (List.getElem_mem hi)]

theorem tapscriptBytes_length {m : Nat} {keys : List Bytes}
    (h : ∀ key ∈ keys, key.length = 32) :
    (tapscriptBytes m keys).length = keys.length * 34 + 2 := by
  simp only [tapscriptBytes, List.length_append, tapscriptBytes_body_length h, List.length_cons,
    List.length_nil]

/-- A canonical leaf passes the strict extractor. -/
theorem extractMultisigTapscript_tapscriptBytes {m : Nat} {keys : List Bytes}
    (h : IsQuorum 32 m keys) :
    extractMultisigTapscript (tapscriptBytes m keys) = .ok (m, keys) := by
  have hpos := h.pos
  have hle := h.threshold
  have hbound : keys.length ≤ 15 := h.bound
  have hlen := tapscriptBytes_length (m := m) h.keyLength
  obtain ⟨hmOp, hlast⟩ := getD_end
    (keys.mapIdx fun i key => 0x20 :: key ++ [slotOpcode i]).flatten
    (UInt8.ofNat (0x50 + m)) tapscriptNumequal
  rw [← tapscriptBytes] at hmOp hlast
  have hslots : (List.range keys.length).mapM (tapscriptSlot (tapscriptBytes m keys)) =
      .ok keys := by
    rw [mapM_range_eq_ok fun i hi key => tapscriptSlot_eq_ok (by omega) hi]
    refine ⟨List.ext_getElem (by simp) fun i hi hi' => ?_, h.keyLength⟩
    rw [List.getElem_map, List.getElem_range, tapscriptBytes, frame_flatten (fun f hf => ?_) _ hi']
    obtain ⟨j, hj, rfl⟩ := List.mem_mapIdx.mp hf
    simp [h.keyLength keys[j] (List.getElem_mem hj)]
  have hm := toNat_opByte (hle.trans h.bound)
  have hmax : msMaxPubkeys = 15 := rfl
  have hn : (tapscriptBytes m keys).length - 2 = keys.length * 34 := by omega
  simp only [extractMultisigTapscript, hmOp, hlast, hm, Nat.add_sub_cancel_left]
  simp only [hn, Nat.mul_mod_left, Nat.mul_div_cancel _ (show 0 < 34 by decide)]
  simp only [reject_bind_eq_ok, hslots, ok_bind, pure_eq_ok, and_true, hlen, hmax]
  refine ⟨by omega, by simp; omega, by simp, by omega, ?_⟩
  simpa using h.nodup

/-- The extractor accepts exactly the canonical leaves of admissible quorums. -/
theorem extractMultisigTapscript_eq_ok {script : Bytes} {m : Nat} {keys : List Bytes} :
    extractMultisigTapscript script = .ok (m, keys) ↔
      IsQuorum 32 m keys ∧ script = tapscriptBytes m keys := by
  refine ⟨fun h => ?_, fun ⟨h, he⟩ => he ▸ extractMultisigTapscript_tapscriptBytes h⟩
  simp only [extractMultisigTapscript, bind_eq_ok, pure_eq_ok, Except.ok.injEq, Prod.mk.injEq,
    not_or, not_not, reject_eq_ok, exists_const] at h
  obtain ⟨hlen, ⟨hlast, hm1, hm2⟩, hmod, ⟨hmn, hnb⟩, keys, hslots, hnd, hm, rfl⟩ := h
  have hmax : msMaxPubkeys = 15 := rfl
  have hbody : (script.length - 2) / 34 * 34 = script.length - 2 :=
    Nat.div_mul_cancel (Nat.dvd_of_mod_eq_zero hmod)
  rw [mapM_range_eq_ok fun i hi key => tapscriptSlot_eq_ok (by omega) hi] at hslots
  obtain ⟨hframes, hkeys⟩ := hslots
  have hn : keys.length = (script.length - 2) / 34 := by
    simpa using (congrArg List.length hframes).symm
  rw [← hn] at hmn hnb hbody hframes
  refine ⟨⟨by omega, by omega, by omega, hkeys, hnd⟩, ?_⟩
  have hmid : script.take (keys.length * 34) =
      (keys.mapIdx fun i key => 0x20 :: key ++ [slotOpcode i]).flatten := by
    rw [← flatten_frames, hframes]
  have htail : script.drop (keys.length * 34) =
      [UInt8.ofNat (0x50 + m), tapscriptNumequal] := by
    rw [hbody, drop_last_two (by omega), hlast,
      show 0x50 + m = (script.getD (script.length - 2) 0).toNat by omega, UInt8.ofNat_toNat]
  rw [tapscriptBytes, ← hmid, ← htail, List.take_append_drop]

end Yubtc.Quorum
