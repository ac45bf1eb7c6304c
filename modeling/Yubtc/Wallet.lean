import Yubtc.Lib.Loop
import Yubtc.Wire

/-!
# The wallet's keys and the walk over its nonces

The chain is read through one state that does not change during a command, so the answer a
key caches is the answer it would get again. Keys and their encodings are those of one seed
and passphrase; how they are derived is left open.
-/
namespace Yubtc.Wallet

open Wire

variable {κ : Type}

inductive AddrType where
  | legacy
  | native
  | taproot
  deriving DecidableEq

/-- `ADDR_TYPES`, in registration order. -/
def addrTypes : List AddrType := [.legacy, .native, .taproot]

/-- An unspent output in the shape `TPrivKey.get_unspent` gives it. -/
structure Utxo where
  tx : String
  outN : Nat
  amount : Nat
  script : String
  confirmations : Nat
  deriving DecidableEq

/-- What the chain says about addresses. An address that was never paid holds nothing. -/
structure ChainState where
  totalReceived : String → Nat
  unspent : String → List Utxo
  unspent_nil : ∀ address, totalReceived address = 0 → unspent address = []

/-- The keys of one seed, and their addresses. -/
structure Keyring (κ : Type) where
  seed2privkey : Nat → AddrType → κ
  addressForKey : κ → AddrType → String

/-- The key of a nonce in one form, with its own address. -/
structure TPrivKey (κ : Type) where
  nonce : Nat
  addrType : AddrType
  privkey : κ
  address : String

def TPrivKey.make (ring : Keyring κ) (nonce : Nat) (addrType : AddrType) : TPrivKey κ :=
  ⟨nonce, addrType, ring.seed2privkey nonce addrType,
    ring.addressForKey (ring.seed2privkey nonce addrType) addrType⟩

def TPrivKey.isUnused (chain : ChainState) (key : TPrivKey κ) : Bool :=
  chain.totalReceived key.address == 0

def TPrivKey.getUnspent (chain : ChainState) (key : TPrivKey κ) (confirmations : Int) : List Utxo :=
  (chain.unspent key.address).filter fun u => decide (confirmations ≤ u.confirmations)

/-- Every form of a nonce, in scan order. -/
def nonceAddressForms (ring : Keyring κ) (nonce : Nat) : List (TPrivKey κ) :=
  addrTypes.map (TPrivKey.make ring nonce)

/-- Whether any form has ever received funds. -/
def nonceIsUsed (chain : ChainState) (forms : List (TPrivKey κ)) : Bool :=
  forms.any fun form => decide (0 < chain.totalReceived form.address)

/-- A key with outputs that it can spend. -/
abbrev Source (κ : Type) := TPrivKey κ × List Utxo

def amountOf (unspent : List Utxo) : Nat := (unspent.map Utxo.amount).sum

/-- What the scan has gathered, and the last address that contributed at this nonce. -/
structure Gathered (κ : Type) where
  sources : List (Source κ)
  total : Nat
  lastAddr : Option String

/-- One form of a nonce: forms that were never paid or hold nothing are skipped. -/
def gatherForm (chain : ChainState) (g : Gathered κ) (form : TPrivKey κ) : Gathered κ :=
  if chain.totalReceived form.address = 0 then g
  else
    let unspent := form.getUnspent chain 0
    if unspent.isEmpty then g
    else ⟨g.sources ++ [(form, unspent)], g.total + amountOf unspent, some form.address⟩

structure ScanState (κ : Type) where
  nonce : Nat
  sources : List (Source κ)
  total : Nat

/-- One round of `_scan_inputs`. A nonce nobody paid ends the scan, with its address in the
wallet's receive type; so does a nonce that contributes and meets the target. -/
def scanRound (chain : ChainState) (ring : Keyring κ) (addrType : AddrType) (target : Option Int)
    (s : ScanState κ) : ScanState κ ⊕ (List (Source κ) × String) :=
  let forms := nonceAddressForms ring s.nonce
  if nonceIsUsed chain forms then
    let g := forms.foldl (gatherForm chain) ⟨s.sources, s.total, none⟩
    match g.lastAddr, target with
    | some lastAddr, some amount =>
      if amount ≤ g.total then .inr (g.sources, lastAddr)
      else .inl ⟨s.nonce + 1, g.sources, g.total⟩
    | _, _ => .inl ⟨s.nonce + 1, g.sources, g.total⟩
  else .inr (s.sources, (TPrivKey.make ring s.nonce addrType).address)

/-- `_scan_inputs`, started at nonce 0. The confirmations it is given are not used. -/
def ScanInputs (chain : ChainState) (ring : Keyring κ) (addrType : AddrType) (target : Option Int)
    (_confirmations : Int) (result : List (Source κ) × String) : Prop :=
  Loop.Returns (scanRound chain ring addrType target) ⟨0, [], 0⟩ result

structure WalkState (κ : Type) where
  nonce : Nat
  privkeys : List (TPrivKey κ)

/-- One round of the gap walk in `Wallet.__init__`: a used nonce gives the key of the
wallet's own type. -/
def walkRound (chain : ChainState) (ring : Keyring κ) (addrType : AddrType) (s : WalkState κ) :
    WalkState κ ⊕ WalkState κ :=
  if nonceIsUsed chain (nonceAddressForms ring s.nonce) then
    .inl ⟨s.nonce + 1, s.privkeys ++ [TPrivKey.make ring s.nonce addrType]⟩
  else .inr s

/-- The keys of a wallet: the used nonces from `nonce` on, then `newAddresses` more. -/
def Opens (chain : ChainState) (ring : Keyring κ) (addrType : AddrType) (nonce newAddresses : Nat)
    (privkeys : List (TPrivKey κ)) : Prop :=
  ∃ walked : WalkState κ, Loop.Returns (walkRound chain ring addrType) ⟨nonce, []⟩ walked ∧
    privkeys = walked.privkeys ++
      (List.range newAddresses).map fun i => TPrivKey.make ring (walked.nonce + i) addrType

end Yubtc.Wallet
