import Yubtc.Lib.Updates
import Yubtc.Transaction

/-!
# The direct signing path, input by input

The digests read of a transaction only what signing leaves as it is, so the loop over the
inputs signs each of them independently.
-/
namespace Yubtc.DirectSigning

open LittleEndian Wire Errors ExceptRules Crypto Script Transaction

variable (P : Primitives)

/-- Input `i` after signing; every digest is that of the unsigned transaction. -/
def signedInput (self : CTransaction) (signers : List (P.PrivateKey × Bytes))
    (ctx : Option (List SpendInput)) (i : Nat) : Except Exn CIn := do
  let (k, w) ← orElseThrow .indexError signers[i]?
  let own ← orElseThrow .indexError self.vin[i]?
  match sigSchemeFromScriptPubkey own.script with
  | .legacy =>
    let scriptSig ← legacyScriptSig P self i k w
    return { own with script := scriptSig }
  | .p2wpkh =>
    let spend ← spendInput ctx i
    let scriptCode := p2wpkhScriptCode own.script
    let sighash ← bip143SighashInRange P self.sigTx i scriptCode spend.amount
    let witnessSig := signHash P k sighash ++ [sighashAll]
    return { own with script := [], witness := [witnessSig, w] }
  | .p2tr =>
    let spend ← orElseThrow missingSpendContext ctx
    reject (spend.length ≠ self.vin.length) missingSpendContext
    let sighash ← taprootKeypathSighashInRange P self.sigTx i spend
    let sig ← taprootSignSighash P k sighash
    return { own with script := [], witness := [sig] }

/-- What the digests see of an input. -/
def Alike (a b : CIn) : Prop := a.sigIn = b.sigIn

theorem map_sigIn_alike {vin vin' : List CIn} (h : List.Forall₂ Alike vin vin') :
    vin.map CIn.sigIn = vin'.map CIn.sigIn := by
  induction h with
  | nil => rfl
  | cons hab _ ih => rw [List.map_cons, List.map_cons, hab, ih]

theorem sigTx_alike {self : CTransaction} {vin : List CIn} (h : List.Forall₂ Alike vin self.vin) :
    ({ self with vin := vin } : CTransaction).sigTx = self.sigTx := by
  simp only [CTransaction.sigTx, CTransaction.version, map_sigIn_alike h]

theorem signedInput_alike {self : CTransaction} {signers : List (P.PrivateKey × Bytes)}
    {ctx : Option (List SpendInput)} (i : Nat) (own signed : CIn) (hown : self.vin[i]? = some own)
    (h : signedInput P self signers ctx i = .ok signed) : Alike signed own := by
  obtain ⟨_, -, h⟩ := bind_eq_ok.mp h
  dsimp only at h
  rw [hown, orElseThrow_some, ok_bind] at h
  cases hscheme : sigSchemeFromScriptPubkey own.script with
  | legacy =>
    rw [hscheme] at h
    obtain ⟨_, -, h⟩ := bind_eq_ok.mp h
    cases h
    rfl
  | p2wpkh =>
    rw [hscheme] at h
    obtain ⟨_, -, h⟩ := bind_eq_ok.mp h
    obtain ⟨_, -, h⟩ := bind_eq_ok.mp h
    cases h
    rfl
  | p2tr =>
    rw [hscheme] at h
    obtain ⟨_, -, h⟩ := bind_eq_ok.mp h
    obtain ⟨-, h⟩ := reject_bind_eq_ok.mp h
    obtain ⟨_, -, h⟩ := bind_eq_ok.mp h
    obtain ⟨_, -, h⟩ := bind_eq_ok.mp h
    cases h
    rfl

theorem signedInput_p2wpkh {self : CTransaction} {signers : List (P.PrivateKey × Bytes)}
    {ctx : Option (List SpendInput)} {i : Nat} {own signed : CIn} {k : P.PrivateKey} {w : Bytes}
    (hown : self.vin[i]? = some own) (hsigner : signers[i]? = some (k, w))
    (hscheme : sigSchemeFromScriptPubkey own.script = .p2wpkh)
    (h : signedInput P self signers ctx i = .ok signed) :
    ∃ sighash, signed =
      { own with script := [], witness := [signHash P k sighash ++ [sighashAll], w] } := by
  unfold signedInput at h
  rw [hsigner, orElseThrow_some, ok_bind] at h
  dsimp only at h
  rw [hown, orElseThrow_some, ok_bind, hscheme] at h
  obtain ⟨_, -, h⟩ := bind_eq_ok.mp h
  obtain ⟨sighash, -, h⟩ := bind_eq_ok.mp h
  cases h
  exact ⟨sighash, rfl⟩

/-- A step of the loop signs its input as if no other input was signed. -/
theorem signSegwitInput_eq {self : CTransaction} (signers : List (P.PrivateKey × Bytes))
    (ctx : Option (List SpendInput)) (done before : List CIn) (own : CIn) (rest : List CIn)
    (hself : before ++ own :: rest = self.vin) (hdone : List.Forall₂ Alike done before) :
    signSegwitInput P self signers ctx { self with vin := done ++ own :: rest } done.length =
      (signedInput P self signers ctx done.length).map fun signed =>
        { self with vin := done ++ signed :: rest } := by
  have hlen : done.length = before.length := hdone.length_eq
  have hown : self.vin[done.length]? = some own := by
    rw [← hself, hlen]
    simp
  have hat : (done ++ own :: rest)[done.length]? = some own := by simp
  have hset : ∀ v, (done ++ own :: rest).set done.length v = done ++ v :: rest := by
    intro v
    simp
  have hcount : (done ++ own :: rest).length = self.vin.length := by
    rw [← hself]
    simp [hlen]
  have halike : List.Forall₂ Alike (done ++ own :: rest) self.vin := by
    rw [← hself]
    refine List.rel_append hdone (.cons rfl ?_)
    exact List.forall₂_same.mpr fun _ _ => rfl
  have hdigest : ({ self with vin := done ++ own :: rest } : CTransaction).sigTx = self.sigTx :=
    sigTx_alike halike
  unfold signSegwitInput signedInput
  cases signers[done.length]? with
  | none => rfl
  | some signer =>
    simp only [orElseThrow_some, ok_bind, hown, hat, hset, hdigest, hcount]
    cases sigSchemeFromScriptPubkey own.script with
    | legacy =>
      dsimp only
      cases legacyScriptSig P self done.length signer.1 signer.2 <;> rfl
    | p2wpkh =>
      dsimp only
      cases spendInput ctx done.length with
      | error e => rfl
      | ok spend =>
        simp only [ok_bind]
        cases bip143SighashInRange P self.sigTx done.length (p2wpkhScriptCode own.script)
          spend.amount <;> rfl
    | p2tr =>
      dsimp only
      cases orElseThrow missingSpendContext ctx with
      | error e => rfl
      | ok spend =>
        by_cases hspend : spend.length = self.vin.length
        · simp only [ok_bind, reject_false _ (not_not.mpr hspend)]
          cases taprootKeypathSighashInRange P self.sigTx done.length spend with
          | error e => rfl
          | ok sighash =>
            simp only [ok_bind]
            cases taprootSignSighash P signer.1 sighash <;> rfl
        · simp only [ok_bind, reject_true _ hspend]
          rfl

/-- The loop is a list of independent signatures. -/
theorem signSegwit_eq (self : CTransaction) (signers : List (P.PrivateKey × Bytes))
    (ctx : Option (List SpendInput)) :
    signSegwit P self signers ctx = (do
      reject (signers.length ≠ self.vin.length) (.valueError "signers length must match vin length")
      let vin ← (List.range self.vin.length).mapM (signedInput P self signers ctx)
      .ok { self with vin := vin }) := by
  have hloop := Updates.foldlM_range (fun vin => { self with vin := vin })
    (signSegwitInput_eq P signers ctx) (fun i own signed => signedInput_alike P i own signed)
  unfold signSegwit
  cases reject (signers.length ≠ self.vin.length)
    (Exn.valueError "signers length must match vin length") with
  | error e => rfl
  | ok u =>
    rw [ok_bind, ok_bind]
    refine hloop.trans ?_
    cases (List.range self.vin.length).mapM (signedInput P self signers ctx) <;> rfl

/-- Signing changes inputs only. -/
theorem signSegwit_vout {self stx : CTransaction} {signers : List (P.PrivateKey × Bytes)}
    {ctx : Option (List SpendInput)} (h : signSegwit P self signers ctx = .ok stx) :
    stx.vout = self.vout := by
  rw [signSegwit_eq] at h
  obtain ⟨-, h⟩ := reject_bind_eq_ok.mp h
  obtain ⟨_, -, h⟩ := bind_eq_ok.mp h
  cases h
  rfl

end Yubtc.DirectSigning
