import Yubtc.Addresses

/-!
# The address of a quorum

Cosigners derive it by themselves, each from the keys in an order of its own.
-/
namespace Yubtc.QuorumAddresses

open Wire Text Errors ExceptRules Crypto Script Quorum QuorumPsbt Addresses

/-- What `except` makes of the failure it catches. -/
def orQuorumBounds {α : Type} (caught : Exn) (built : Except Exn α) : Except Exn α :=
  built.mapError fun e => if e = caught then .ms .quorumBounds else e

/-- The x-only part of a compressed key. -/
def xonly (key : Bytes) : Bytes := slice key 1 33

variable (P : Primitives)

/-- `ms_create_address`: the address, and the script it commits to. -/
def msCreateAddress (n m : Int) (keys : List Bytes) (form : MsForm) :
    Except Exn (Str × Bytes) := do
  reject (keys.length ≠ n) (.ms (.keyCountMismatch n keys.length))
  reject (m = 0 ∨ m > n ∨ n > msMaxPubkeys) (.ms .quorumBounds)
  let sorted := sortedKeys keys
  reject (∃ p ∈ sorted.zip sorted.tail, p.1 = p.2) (.ms .duplicateKey)
  match form with
  | .p2tr =>
    let redeem ← orQuorumBounds .invalidMultisigTapscript
      (makeMultisigTapscript m (sorted.map xonly))
    let address ← redeem2taprootAddr P redeem
    return (address, redeem)
  | .p2sh =>
    let redeem ← orQuorumBounds .invalidMultisigRedeem (makeMultisigRedeemScript m sorted)
    return (redeem2p2shAddr P redeem, redeem)
  | .p2wsh =>
    let redeem ← orQuorumBounds .invalidMultisigRedeem (makeMultisigRedeemScript m sorted)
    let address ← redeem2p2wshAddr P redeem
    return (address, redeem)

theorem adjacent_iff_nodup (keys : List Bytes) :
    (¬ ∃ p ∈ (sortedKeys keys).zip (sortedKeys keys).tail, p.1 = p.2) ↔ keys.Nodup := by
  have hadj := KeyedList.adjacent_ne_iff_nodup (fun a b => List.le_antisymm)
    (List.pairwise_insertionSort (· ≤ ·) keys)
  exact hadj.trans (sortedKeys_perm keys).nodup_iff

/-- The leaf does not depend on the order of its keys. -/
theorem makeMultisigTapscript_congr {keys keys' : List Bytes} (h : keys.Perm keys') (m : Int) :
    makeMultisigTapscript m keys = makeMultisigTapscript m keys' := by
  have hchecked : checkedKeys 32 .invalidMultisigTapscript m keys =
      checkedKeys 32 .invalidMultisigTapscript m keys' := by
    simp only [checkedKeys, h.length_eq, h.mem_iff, sortedKeys_congr h]
  rw [makeMultisigTapscript, hchecked, makeMultisigTapscript]

/-- Nothing that is checked or built depends on the order of the keys. -/
theorem msCreateAddress_perm {keys keys' : List Bytes} (h : keys.Perm keys') (n m : Int)
    (form : MsForm) : msCreateAddress P n m keys form = msCreateAddress P n m keys' form := by
  simp only [msCreateAddress, h.length_eq, sortedKeys_congr h]

/-- One key with either parity. -/
def SameXonly (key key' : Bytes) : Prop :=
  ∃ x, x.length = 32 ∧ (key = 0x02 :: x ∨ key = 0x03 :: x) ∧ (key' = 0x02 :: x ∨ key' = 0x03 :: x)

theorem xonly_cons {prefixByte : UInt8} {x : Bytes} (h : x.length = 32) :
    xonly (prefixByte :: x) = x := by
  rw [xonly, slice, List.drop_one, List.tail_cons]
  exact List.take_of_length_le (by omega)

theorem SameXonly.eq {key key' : Bytes} (h : SameXonly key key') : xonly key = xonly key' := by
  obtain ⟨x, hx, hkey, hkey'⟩ := h
  have hof : ∀ {k : Bytes}, k = 0x02 :: x ∨ k = 0x03 :: x → xonly k = x := by
    intro k hk
    cases hk with
    | inl he => rw [he, xonly_cons hx]
    | inr he => rw [he, xonly_cons hx]
  rw [hof hkey, hof hkey']

theorem map_xonly_eq {keys keys' : List Bytes} (h : List.Forall₂ SameXonly keys keys') :
    keys.map xonly = keys'.map xonly := by
  induction h with
  | nil => rfl
  | cons hkey _ ih => rw [List.map_cons, List.map_cons, hkey.eq, ih]

/-- With distinct x-only parts, the parities do not matter to the tapscript form. -/
theorem msCreateAddress_parity {keys keys' : List Bytes} (h : List.Forall₂ SameXonly keys keys')
    (hdistinct : (keys.map xonly).Nodup) (n m : Int) :
    msCreateAddress P n m keys .p2tr = msCreateAddress P n m keys' .p2tr := by
  have hxonly := map_xonly_eq h
  have hclear : ∀ {ks : List Bytes}, (ks.map xonly).Nodup →
      ¬ ∃ p ∈ (sortedKeys ks).zip (sortedKeys ks).tail, p.1 = p.2 := fun hnd =>
    (adjacent_iff_nodup _).mpr (List.Nodup.of_map xonly hnd)
  have hleaf : makeMultisigTapscript m ((sortedKeys keys).map xonly) =
      makeMultisigTapscript m ((sortedKeys keys').map xonly) := by
    apply makeMultisigTapscript_congr
    have hleft := (sortedKeys_perm keys).map xonly
    have hright := (sortedKeys_perm keys').map xonly
    rw [hxonly] at hleft
    exact hleft.trans hright.symm
  simp only [msCreateAddress, h.length_eq, hleaf, reject_false _ (hclear hdistinct),
    reject_false _ (hclear (hxonly ▸ hdistinct))]

/-- The address of a quorum depends on neither the order of its keys nor, in the tapscript form,
on their parities. -/
theorem address_invariant :
    (∀ (form : MsForm) (n m : Int) (keys keys' : List Bytes), keys.Perm keys' →
      msCreateAddress P n m keys form = msCreateAddress P n m keys' form) ∧
    ∀ (n m : Int) (keys keys' : List Bytes), List.Forall₂ SameXonly keys keys' →
      (keys.map xonly).Nodup →
      msCreateAddress P n m keys .p2tr = msCreateAddress P n m keys' .p2tr :=
  ⟨fun form n m _ _ h => msCreateAddress_perm P h n m form,
    fun n m _ _ h hdistinct => msCreateAddress_parity P h hdistinct n m⟩

def sampleKey (prefixByte x : UInt8) : Bytes := prefixByte :: List.replicate 32 x

theorem address_invariant_sample :
    msCreateAddress standIn 2 1 [sampleKey 2 7, sampleKey 3 9] .p2wsh =
        msCreateAddress standIn 2 1 [sampleKey 3 9, sampleKey 2 7] .p2wsh ∧
      msCreateAddress standIn 2 1 [sampleKey 2 7, sampleKey 3 9] .p2tr =
        msCreateAddress standIn 2 1 [sampleKey 3 7, sampleKey 3 9] .p2tr := by
  have hsame : ∀ x : UInt8, ∀ p ∈ [(2 : UInt8), 3], ∀ q ∈ [(2 : UInt8), 3],
      SameXonly (sampleKey p x) (sampleKey q x) := by
    intro x p hp q hq
    refine ⟨List.replicate 32 x, List.length_replicate, ?_, ?_⟩
    · rcases List.mem_pair.mp hp with rfl | rfl
      · exact .inl rfl
      · exact .inr rfl
    · rcases List.mem_pair.mp hq with rfl | rfl
      · exact .inl rfl
      · exact .inr rfl
  constructor
  · exact (address_invariant standIn).1 .p2wsh 2 1 _ _ (List.Perm.swap _ _ _)
  · exact (address_invariant standIn).2 2 1 _ _
      (.cons (hsame 7 2 (by simp) 3 (by simp)) (.cons (hsame 9 3 (by simp) 3 (by simp)) .nil))
      (by decide +kernel)

/-- The bounds of a quorum of these keys. -/
def InBounds (m : Int) (keys : List Bytes) : Prop :=
  1 ≤ m ∧ m ≤ keys.length ∧ keys.length ≤ msMaxPubkeys

instance (m : Int) (keys : List Bytes) : Decidable (InBounds m keys) :=
  inferInstanceAs (Decidable (1 ≤ m ∧ m ≤ keys.length ∧ keys.length ≤ msMaxPubkeys))

/-- What a cosigner contributes to the script of a form. -/
def contribution : MsForm → Bytes → Bytes
  | .p2sh | .p2wsh => id
  | .p2tr => xonly

/-- Two cosigners contribute one key. -/
def SharedKey (form : MsForm) (keys : List Bytes) : Prop := ¬ (keys.map (contribution form)).Nodup

instance (form : MsForm) (keys : List Bytes) : Decidable (SharedKey form keys) :=
  inferInstanceAs (Decidable (¬ (keys.map (contribution form)).Nodup))

/-- Errors by their cause, and an address otherwise. -/
structure Classified (m : Int) (keys : List Bytes) (form : MsForm) : Prop where
  bounds : msCreateAddress P keys.length m keys form = .error (.ms .quorumBounds) ↔
    ¬ InBounds m keys
  duplicate : msCreateAddress P keys.length m keys form = .error (.ms .duplicateKey) ↔
    InBounds m keys ∧ SharedKey form keys
  otherwise : InBounds m keys → ¬ SharedKey form keys →
    Succeeds (msCreateAddress P keys.length m keys form)

/-- A key that two cosigners share although their encodings differ, by the parity only. -/
def HiddenShare (form : MsForm) (keys : List Bytes) : Prop := keys.Nodup ∧ SharedKey form keys

instance (form : MsForm) (keys : List Bytes) : Decidable (HiddenShare form keys) :=
  inferInstanceAs (Decidable (keys.Nodup ∧ SharedKey form keys))

/-- The script that the keys make. -/
def quorumScript (form : MsForm) (m : Nat) (keys : List Bytes) : Bytes :=
  match form with
  | .p2tr => tapscriptBytes m (sortedKeys (keys.map xonly))
  | .p2sh | .p2wsh => redeemBytes m (sortedKeys keys)

/-- Only the tapscript form has an output key, which a digest above the order of the curve or a
point at infinity would prevent. -/
def HasOutputKey (form : MsForm) (script : Bytes) : Prop :=
  form = .p2tr →
    Succeeds (tapscriptOutputKey P msTapscriptInternalKey (tapscriptLeafHash P script))

variable {P}

theorem checkedKeys_eq_error {keyLength : Nat} {e : Exn} {m : Int} {keys : List Bytes}
    (h : ¬ ((keys ≠ [] ∧ m ≠ 0 ∧ m ≤ keys.length ∧ keys.length ≤ msMaxPubkeys) ∧
      (∀ key ∈ keys, key.length = keyLength) ∧ keys.Nodup)) :
    checkedKeys keyLength e m keys = .error e := by
  have honly : OnlyError e (checkedKeys keyLength e m keys) := by
    have hreject : ∀ (c : Prop) [Decidable c], OnlyError e (reject c e) := fun c _ d hd =>
      (reject_eq_error.mp hd).2.symm
    exact .bind (hreject _) fun _ _ => .bind (hreject _) fun _ _ => .bind (hreject _) fun _ _ =>
      .ok _
  cases hchecked : checkedKeys keyLength e m keys with
  | error d => rw [honly d hchecked]
  | ok sorted =>
    obtain ⟨hbounds, hlen, hnd, -⟩ := checkedKeys_eq_ok.mp hchecked
    exact absurd ⟨hbounds, hlen, hnd⟩ h

variable (P) in
/-- The last part of the function: script and address. -/
def built (m : Int) (keys : List Bytes) (form : MsForm) : Except Exn (Str × Bytes) :=
  match form with
  | .p2tr => do
    let redeem ← orQuorumBounds .invalidMultisigTapscript
      (makeMultisigTapscript m ((sortedKeys keys).map xonly))
    let address ← redeem2taprootAddr P redeem
    return (address, redeem)
  | .p2sh => do
    let redeem ← orQuorumBounds .invalidMultisigRedeem
      (makeMultisigRedeemScript m (sortedKeys keys))
    return (redeem2p2shAddr P redeem, redeem)
  | .p2wsh => do
    let redeem ← orQuorumBounds .invalidMultisigRedeem
      (makeMultisigRedeemScript m (sortedKeys keys))
    let address ← redeem2p2wshAddr P redeem
    return (address, redeem)

/-- The bounds that are checked: a negative threshold passes. -/
def Admitted (m : Int) (keys : List Bytes) : Prop :=
  m ≠ 0 ∧ m ≤ keys.length ∧ keys.length ≤ msMaxPubkeys

section Outcomes

variable {m : Int} {keys : List Bytes} {form : MsForm}

theorem created_refused (h : ¬ Admitted m keys) :
    msCreateAddress P keys.length m keys form = .error (.ms .quorumBounds) := by
  have hc : m = 0 ∨ m > keys.length ∨ (keys.length : Int) > msMaxPubkeys := by
    unfold Admitted at h
    omega
  rw [msCreateAddress, reject_false _ (not_not.mpr rfl), ok_bind, reject_true _ hc]
  rfl

theorem created_admitted (h : Admitted m keys) :
    msCreateAddress P keys.length m keys form =
      if keys.Nodup then built P m keys form else .error (.ms .duplicateKey) := by
  have hc : ¬ (m = 0 ∨ m > keys.length ∨ (keys.length : Int) > msMaxPubkeys) := by
    unfold Admitted at h
    omega
  rw [msCreateAddress, reject_false _ (not_not.mpr rfl), ok_bind, reject_false _ hc, ok_bind]
  dsimp only
  by_cases hnd : keys.Nodup
  · rw [reject_false _ ((adjacent_iff_nodup keys).mpr hnd), ok_bind, if_pos hnd]
    rfl
  · have hadj := not_not.mp (mt (adjacent_iff_nodup keys).mp hnd)
    rw [reject_true _ hadj, if_neg hnd]
    rfl

def byteRange : Exn := .valueError "byte must be in range(0, 256)"

theorem byteOf_outcome (v : Int) : Succeeds (byteOf v) ∨ byteOf v = .error byteRange := by
  by_cases h : 0 ≤ v ∧ v < 256
  · rw [byteOf, reject_false _ (not_not.mpr h)]
    exact .inl ⟨_, rfl⟩
  · rw [byteOf, reject_true _ h]
    exact .inr rfl

/-- Keys that pass the checks fail only at a threshold that is no byte. -/
theorem redeemScript_outcome (h : Admitted m keys) (hne : keys ≠ []) (hnd : keys.Nodup)
    (hlen : ∀ key ∈ keys, key.length = 33) :
    Succeeds (makeMultisigRedeemScript m keys) ∨
      makeMultisigRedeemScript m keys = .error byteRange := by
  rw [makeMultisigRedeemScript, checkedKeys_eq_ok.mpr ⟨⟨hne, h⟩, hlen, hnd, rfl⟩, ok_bind]
  have hn : byteOf (opN keys.length) = .ok (UInt8.ofNat (0x50 + keys.length)) := byteOf_opN h.2.2
  rcases byteOf_outcome (opN m) with ⟨b, hb⟩ | hb
  · rw [hb, ok_bind, hn]
    exact .inl ⟨_, rfl⟩
  · rw [hb]
    exact .inr rfl

theorem tapscript_outcome (h : Admitted m keys) (hne : keys ≠ []) (hnd : keys.Nodup)
    (hlen : ∀ key ∈ keys, key.length = 32) :
    Succeeds (makeMultisigTapscript m keys) ∨
      makeMultisigTapscript m keys = .error byteRange := by
  rw [makeMultisigTapscript, checkedKeys_eq_ok.mpr ⟨⟨hne, h⟩, hlen, hnd, rfl⟩, ok_bind]
  rcases byteOf_outcome (opN m) with ⟨b, hb⟩ | hb
  · rw [hb]
    exact .inl ⟨_, rfl⟩
  · rw [hb]
    exact .inr rfl

theorem orQuorumBounds_avoids {α : Type} {caught : Exn} {x : Except Exn α}
    (h : Succeeds x ∨ x = .error byteRange) (hcaught : caught ≠ byteRange) (e : MsError) :
    Avoids (.ms e) (orQuorumBounds caught x) := by
  cases h with
  | inl h =>
    obtain ⟨a, rfl⟩ := h
    exact .ok a
  | inr h =>
    rw [h]
    change Avoids _ (.error (if byteRange = caught then .ms .quorumBounds else byteRange))
    rw [if_neg hcaught.symm]
    exact .error Exn.noConfusion

theorem segwitAddr_avoids (encoding : Bech32.Encoding) (version : UInt8) (program : Bytes)
    (e : MsError) : Avoids (.ms e) (segwitAddr encoding version program) := by
  rw [segwitAddr]
  cases Bech32.encode hrpMainnet encoding (version :: Bech32.bytesTo5bit program) with
  | ok a => exact .ok a
  | error d => exact .error Exn.noConfusion

theorem redeem2taprootAddr_avoids (script : Bytes) (e : MsError) :
    Avoids (.ms e) (redeem2taprootAddr P script) := by
  have hscalar : ∀ data, Avoids (.ms e) (tweakScriptScalarFromDigest data) := fun data =>
    .bind (.reject Exn.noConfusion) fun _ => .ok _
  have htweak : ∀ a b, Avoids (.ms e) (scriptTweak P a b) := fun a b =>
    .bind (.reject Exn.noConfusion) fun _ => .bind (.reject Exn.noConfusion) fun _ =>
      .bind (.orElseThrow Exn.noConfusion _) fun _ => .bind (hscalar _) fun _ => .ok _
  exact .bind (.bind (htweak _ _) fun _ => .bind (.orElseThrow Exn.noConfusion _) fun _ => .ok _)
    fun _ => segwitAddr_avoids _ _ _ e

theorem sorted_ne_nil (h : keys ≠ []) : sortedKeys keys ≠ [] := by
  intro hnil
  have hlen := sortedKeys_length keys
  rw [hnil, List.length_nil] at hlen
  exact h (List.eq_nil_of_length_eq_zero hlen.symm)

theorem sorted_keyLength {n : Nat} (h : ∀ key ∈ keys, key.length = n) :
    ∀ key ∈ sortedKeys keys, key.length = n := fun key hkey => h key (mem_sortedKeys.mp hkey)

theorem Admitted.of_length {keys' : List Bytes} (h : Admitted m keys)
    (hlen : keys'.length = keys.length) : Admitted m keys' := by
  unfold Admitted
  rw [hlen]
  exact h

theorem sortedXonly_perm (keys : List Bytes) :
    ((sortedKeys keys).map xonly).Perm (keys.map xonly) := (sortedKeys_perm keys).map xonly

theorem xonly_length {key : Bytes} (h : key.length = 33) : (xonly key).length = 32 := by
  rw [xonly, slice, List.length_take, List.length_drop]
  omega

theorem sortedXonly_length (h : ∀ key ∈ keys, key.length = 33) :
    ∀ key ∈ (sortedKeys keys).map xonly, key.length = 32 := by
  intro key hkey
  obtain ⟨k, hk, rfl⟩ := List.mem_map.mp hkey
  exact xonly_length (sorted_keyLength h k hk)

theorem not_shared_nodup (h : ¬ SharedKey form keys) : keys.Nodup :=
  List.Nodup.of_map _ (not_not.mp h)

theorem not_shared_p2tr (h : ¬ SharedKey .p2tr keys) : ((sortedKeys keys).map xonly).Nodup :=
  (sortedXonly_perm keys).nodup_iff.mpr (not_not.mp h)

/-- No quorum error comes out of keys that nobody shares. -/
theorem built_avoids (h : Admitted m keys) (hne : keys ≠ [])
    (hlen : ∀ key ∈ keys, key.length = 33) (hshared : ¬ SharedKey form keys) (e : MsError) :
    Avoids (.ms e) (built P m keys form) := by
  have hnd := sortedKeys_nodup (not_shared_nodup hshared)
  have hsorted : Admitted m (sortedKeys keys) := h.of_length (sortedKeys_length keys)
  have hredeem := redeemScript_outcome hsorted (sorted_ne_nil hne) hnd (sorted_keyLength hlen)
  have hbuilt : Avoids (.ms e)
      (orQuorumBounds .invalidMultisigRedeem (makeMultisigRedeemScript m (sortedKeys keys))) :=
    orQuorumBounds_avoids hredeem (by decide) e
  cases form with
  | p2sh => exact .bind hbuilt fun _ => .ok _
  | p2wsh => exact .bind hbuilt fun _ => .bind (segwitAddr_avoids _ _ _ e) fun _ => .ok _
  | p2tr =>
    have hleaf : Admitted m ((sortedKeys keys).map xonly) := hsorted.of_length (List.length_map _)
    have hscript := tapscript_outcome hleaf
      (fun hnil => sorted_ne_nil hne (List.map_eq_nil_iff.mp hnil)) (not_shared_p2tr hshared)
      (sortedXonly_length hlen)
    exact .bind (orQuorumBounds_avoids hscript (by decide) e) fun _ =>
      .bind (redeem2taprootAddr_avoids _ e) fun _ => .ok _

/-- What the builders refuse although the checks before them have passed. -/
theorem built_refused (h : keys = [] ∨ HiddenShare form keys) :
    built P m keys form = .error (.ms .quorumBounds) := by
  have hredeem : keys = [] → makeMultisigRedeemScript m (sortedKeys keys) =
      .error .invalidMultisigRedeem := by
    rintro rfl
    have hnil : sortedKeys [] = [] := rfl
    rw [makeMultisigRedeemScript, hnil, checkedKeys_eq_error fun hc => hc.1.1 rfl]
    rfl
  have hleaf : keys = [] ∨ HiddenShare .p2tr keys →
      makeMultisigTapscript m ((sortedKeys keys).map xonly) = .error .invalidMultisigTapscript := by
    intro hc
    rw [makeMultisigTapscript, checkedKeys_eq_error]
    · rfl
    · rintro ⟨⟨hne, -⟩, -, hnd⟩
      cases hc with
      | inl hnil =>
        rw [hnil] at hne
        exact hne rfl
      | inr hhidden => exact hhidden.2 ((sortedXonly_perm keys).nodup_iff.mp hnd)
  have hwhole : ∀ {form}, form = .p2sh ∨ form = .p2wsh → keys = [] ∨ HiddenShare form keys →
      keys = [] := by
    rintro form hform (hnil | ⟨hnd, hshared⟩)
    · exact hnil
    · have hid : keys.map (contribution form) = keys := by
        rcases hform with rfl | rfl <;> exact List.map_id keys
      rw [SharedKey, hid] at hshared
      exact absurd hnd hshared
  cases form with
  | p2sh =>
    rw [built, hredeem (hwhole (.inl rfl) h)]
    rfl
  | p2wsh =>
    rw [built, hredeem (hwhole (.inr rfl) h)]
    rfl
  | p2tr =>
    rw [built, hleaf h]
    rfl

theorem redeem2taprootAddr_succeeds (hP : P.Lawful) (script : Bytes) :
    Succeeds (redeem2taprootAddr P script) ↔
      Succeeds (tapscriptOutputKey P msTapscriptInternalKey (tapscriptLeafHash P script)) := by
  rw [redeem2taprootAddr, succeeds_bind]
  constructor
  · rintro ⟨key, hkey, -⟩
    exact ⟨key, hkey⟩
  · rintro ⟨key, hkey⟩
    have hlen := tapscriptOutputKey_length hP hkey
    exact ⟨key, hkey, _, segwitAddr_eq .bech32m (by decide) (by omega)⟩

/-- A quorum within bounds has its address when it has its output key. -/
theorem built_succeeds (hP : P.Lawful) (h : InBounds m keys)
    (hlen : ∀ key ∈ keys, key.length = 33) (hshared : ¬ SharedKey form keys) :
    Succeeds (built P m keys form) ↔ HasOutputKey P form (quorumScript form m.toNat keys) := by
  obtain ⟨hpos, hle, hbound⟩ := h
  obtain ⟨t, rfl⟩ := Int.eq_ofNat_of_zero_le (show 0 ≤ m by omega)
  have hwhole : IsQuorum 33 t (sortedKeys keys) :=
    { pos := by omega
      threshold := by
        rw [sortedKeys_length]
        omega
      bound := by rwa [sortedKeys_length]
      keyLength := sorted_keyLength hlen
      nodup := sortedKeys_nodup (not_shared_nodup hshared) }
  have hsorted : sortedKeys (sortedKeys keys) = sortedKeys keys :=
    sortedKeys_congr (sortedKeys_perm keys)
  have hredeem : orQuorumBounds .invalidMultisigRedeem
      (makeMultisigRedeemScript t (sortedKeys keys)) = .ok (redeemBytes t (sortedKeys keys)) := by
    rw [makeMultisigRedeemScript_ok hwhole, hsorted]
    rfl
  cases form with
  | p2sh =>
    rw [built, hredeem]
    exact iff_of_true ⟨_, rfl⟩ fun hform => MsForm.noConfusion hform
  | p2wsh =>
    obtain ⟨address, haddress, -⟩ := redeem2p2wshAddr_pays hP (redeemBytes t (sortedKeys keys))
    rw [built, hredeem, ok_bind, haddress]
    exact iff_of_true ⟨_, rfl⟩ fun hform => MsForm.noConfusion hform
  | p2tr =>
    have hleaf : IsQuorum 32 t ((sortedKeys keys).map xonly) :=
      { pos := by omega
        threshold := by
          rw [List.length_map, sortedKeys_length]
          omega
        bound := by rwa [List.length_map, sortedKeys_length]
        keyLength := sortedXonly_length hlen
        nodup := not_shared_p2tr hshared }
    have hscript : orQuorumBounds .invalidMultisigTapscript
        (makeMultisigTapscript t ((sortedKeys keys).map xonly)) =
          .ok (tapscriptBytes t (sortedKeys (keys.map xonly))) := by
      rw [makeMultisigTapscript_ok hleaf, sortedKeys_congr (sortedXonly_perm keys)]
      rfl
    have haddress := succeeds_bind_of_const
      (x := redeem2taprootAddr P (tapscriptBytes t (sortedKeys (keys.map xonly))))
      (f := fun address => .ok (address, tapscriptBytes t (sortedKeys (keys.map xonly))))
      fun a => iff_of_true (succeeds_ok _) trivial
    rw [and_true, redeem2taprootAddr_succeeds hP] at haddress
    rw [built, hscript, ok_bind]
    constructor
    · intro hsucceeds _
      exact haddress.mp hsucceeds
    · intro hkey
      exact haddress.mpr (hkey rfl)

end Outcomes

variable (P) in
/-- The threshold is not negative, unless the keys are refused whatever it is; and within the bounds
no two encodings share a key, and the output key exists. -/
def Regular (m : Int) (keys : List Bytes) (form : MsForm) : Prop :=
  (0 ≤ m ∨ keys = [] ∨ msMaxPubkeys < keys.length ∨ HiddenShare form keys) ∧
    (InBounds m keys → ¬ HiddenShare form keys ∧
      (¬ SharedKey form keys → HasOutputKey P form (quorumScript form m.toNat keys)))

theorem InBounds.admitted {m : Int} {keys : List Bytes} (h : InBounds m keys) :
    Admitted m keys ∧ keys ≠ [] := by
  obtain ⟨hpos, hle, hbound⟩ := h
  refine ⟨⟨by omega, hle, hbound⟩, ?_⟩
  rintro rfl
  rw [List.length_nil] at hle
  omega

section Classification

variable {m : Int} {keys : List Bytes} {form : MsForm}

theorem created_shared (h : Admitted m keys) (hnd : ¬ keys.Nodup) :
    msCreateAddress P keys.length m keys form = .error (.ms .duplicateKey) := by
  rw [created_admitted h, if_neg hnd]

/-- Distinct keys that are refused are so by a builder, which has no keys or two alike. -/
theorem created_distinct (h : Admitted m keys) (hnd : keys.Nodup)
    (hlen : ∀ key ∈ keys, key.length = 33) (e : MsError) :
    msCreateAddress P keys.length m keys form = .error (.ms e) ↔
      e = .quorumBounds ∧ (keys = [] ∨ HiddenShare form keys) := by
  rw [created_admitted h, if_pos hnd]
  by_cases hrefused : keys = [] ∨ HiddenShare form keys
  · rw [built_refused hrefused]
    simp [hrefused, eq_comm]
  · obtain ⟨hne, hhidden⟩ := not_or.mp hrefused
    have hshared : ¬ SharedKey form keys := fun hs => hhidden ⟨hnd, hs⟩
    exact iff_of_false (built_avoids h hne hlen hshared e) fun hc => hrefused hc.2

theorem nodup_of_refused (h : keys = [] ∨ HiddenShare form keys) : keys.Nodup := by
  rcases h with rfl | hhidden
  · exact List.nodup_nil
  · exact hhidden.1

/-- A threshold that passes the checks and is not within the bounds is negative. -/
theorem Admitted.negative (h : Admitted m keys) (hout : ¬ InBounds m keys) : m < 0 := by
  obtain ⟨hzero, hle, hbound⟩ := h
  by_contra hneg
  exact hout ⟨by omega, hle, hbound⟩

theorem classified_regular (hP : P.Lawful) (hlen : ∀ key ∈ keys, key.length = 33)
    (hc : Classified P m keys form) : Regular P m keys form := by
  constructor
  · by_contra hno
    obtain ⟨hm, hne, hn, hhidden⟩ := by simpa only [not_or, Int.not_le, Nat.not_lt] using hno
    have hadmitted : Admitted m keys := ⟨by omega, by omega, hn⟩
    have hbounds := hc.bounds.mpr fun hin => absurd hin.1 (by omega)
    by_cases hnd : keys.Nodup
    · have hrefused := ((created_distinct hadmitted hnd hlen _).mp hbounds).2
      exact hrefused.elim hne hhidden
    · rw [created_shared hadmitted hnd] at hbounds
      cases hbounds
  · intro hin
    obtain ⟨hadmitted, hne⟩ := hin.admitted
    constructor
    · intro hhidden
      have hrefused := (created_distinct (P := P) hadmitted hhidden.1 hlen _).mpr
        ⟨rfl, .inr hhidden⟩
      exact hc.bounds.mp hrefused hin
    · intro hshared
      have hsucceeds := hc.otherwise hin hshared
      rw [created_admitted hadmitted, if_pos (not_shared_nodup hshared)] at hsucceeds
      exact (built_succeeds hP hin hlen hshared).mp hsucceeds

theorem Regular.bounds (hr : Regular P m keys form) (hlen : ∀ key ∈ keys, key.length = 33) :
    msCreateAddress P keys.length m keys form = .error (.ms .quorumBounds) ↔
      ¬ InBounds m keys := by
  constructor
  · intro hbounds hin
    obtain ⟨hadmitted, hne⟩ := hin.admitted
    by_cases hnd : keys.Nodup
    · have hrefused := ((created_distinct hadmitted hnd hlen _).mp hbounds).2
      exact hrefused.elim hne (hr.2 hin).1
    · rw [created_shared hadmitted hnd] at hbounds
      cases hbounds
  · intro hout
    by_cases hadmitted : Admitted m keys
    · have hneg := hadmitted.negative hout
      have hrefused : keys = [] ∨ HiddenShare form keys := by
        rcases hr.1 with hm | hnil | hlong | hhidden
        · omega
        · exact .inl hnil
        · exact absurd hadmitted.2.2 (Nat.not_le.mpr hlong)
        · exact .inr hhidden
      exact (created_distinct hadmitted (nodup_of_refused hrefused) hlen _).mpr ⟨rfl, hrefused⟩
    · exact created_refused hadmitted

theorem Regular.duplicate (hr : Regular P m keys form) (hlen : ∀ key ∈ keys, key.length = 33) :
    msCreateAddress P keys.length m keys form = .error (.ms .duplicateKey) ↔
      InBounds m keys ∧ SharedKey form keys := by
  constructor
  · intro hdup
    by_cases hadmitted : Admitted m keys
    · by_cases hnd : keys.Nodup
      · exact absurd ((created_distinct hadmitted hnd hlen _).mp hdup).1 MsError.noConfusion
      · refine ⟨?_, fun hmap => hnd (List.Nodup.of_map _ hmap)⟩
        by_contra hout
        have hneg := hadmitted.negative hout
        rcases hr.1 with hm | hnil | hlong | hhidden
        · omega
        · exact hnd (@nodup_of_refused _ form (.inl hnil))
        · exact absurd hadmitted.2.2 (Nat.not_le.mpr hlong)
        · exact hnd hhidden.1
    · rw [created_refused hadmitted] at hdup
      cases hdup
  · rintro ⟨hin, hshared⟩
    exact created_shared hin.admitted.1 fun hnd => (hr.2 hin).1 ⟨hnd, hshared⟩

theorem Regular.otherwise (hP : P.Lawful) (hr : Regular P m keys form)
    (hlen : ∀ key ∈ keys, key.length = 33) (hin : InBounds m keys)
    (hshared : ¬ SharedKey form keys) :
    Succeeds (msCreateAddress P keys.length m keys form) := by
  rw [created_admitted hin.admitted.1, if_pos (not_shared_nodup hshared)]
  exact (built_succeeds hP hin hlen hshared).mpr ((hr.2 hin).2 hshared)

end Classification

/-- Errors name their cause exactly for regular arguments. -/
theorem msCreateAddress_classified (hP : P.Lawful) (m : Int) (keys : List Bytes) (form : MsForm)
    (hlen : ∀ key ∈ keys, key.length = 33) :
    Classified P m keys form ↔ Regular P m keys form := by
  constructor
  · exact classified_regular hP hlen
  · intro hr
    exact ⟨hr.bounds hlen, hr.duplicate hlen, hr.otherwise hP hlen⟩

theorem msCreateAddress_classified_sample :
    Classified standIn 1 [sampleKey 2 7, sampleKey 3 9] .p2wsh ↔
      Regular standIn 1 [sampleKey 2 7, sampleKey 3 9] .p2wsh :=
  msCreateAddress_classified standIn_lawful 1 _ .p2wsh (by decide)

/-- Two cosigners with one x-only key are told that the quorum is out of bounds. -/
theorem parity_hides_duplicate : ¬ ∀ (m : Int) (keys : List Bytes) (form : MsForm),
    (∀ key ∈ keys, key.length = 33) → Classified standIn m keys form := by
  intro h
  have hc := h 1 [sampleKey 2 7, sampleKey 3 7] .p2tr (by decide)
  have hhidden : HiddenShare .p2tr [sampleKey 2 7, sampleKey 3 7] := by decide +kernel
  have hregular := classified_regular standIn_lawful (by decide) hc
  exact (hregular.2 (by decide)).1 hhidden

end Yubtc.QuorumAddresses
