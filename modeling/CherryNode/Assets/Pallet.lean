import Mathlib
import CherryNode.Lib.OrdMap
import CherryNode.Support.Dispatch

/-!
# pallet-assets: the asset classes

The `Asset` map and the dispatchables that write an asset's details whole:
`create`, `force_create` and `force_asset_status`.  The first two refuse a zero
`min_balance` (`MinBalanceZero`); `force_asset_status` writes the one it is
given unchecked, so a class can end with a zero minimum balance
(`force_asset_status_zeroes_min_balance`).

`ForceOrigin` is `EnsureRoot` and `T::Lookup` the identity.  `create` reserves
the `AssetDeposit` of the owner's free native balance, and `Currency::reserve`
fails when it is short.  The account, approval and metadata maps are not read
here and are left out.
-/

namespace PalletAssets

open Frame

/-- `Error<T, I>`, as far as these calls return it, and the currency's error. -/
inductive Error
  | unknown
  | inUse
  | minBalanceZero
  | insufficientBalance
  deriving DecidableEq, Repr

/-- `AssetDetails`. -/
structure AssetDetails (Acc : Type) where
  owner : Acc
  issuer : Acc
  admin : Acc
  freezer : Acc
  supply : Nat
  deposit : Nat
  minBalance : Nat
  isSufficient : Bool
  accounts : Nat
  sufficients : Nat
  approvals : Nat
  isFrozen : Bool
  deriving DecidableEq, Repr

/-- The `Asset` map and the native balances `create` reserves from. -/
structure St (Id Acc : Type) [LinearOrder Id] where
  asset : OrdMap Id (AssetDetails Acc)
  free : Acc → Nat
  reserved : Acc → Nat

variable {Id Acc : Type} [LinearOrder Id] [DecidableEq Acc]

abbrev M (Id Acc : Type) [LinearOrder Id] := Call (St Id Acc) Error

/-- `Currency::reserve`: the amount moves from free to reserved. -/
def reserve (who : Acc) (amount : Nat) : M Id Acc Unit := do
  let s ← get
  ensure (amount ≤ s.free who) .insufficientBalance
  set { s with free := Function.update s.free who (s.free who - amount),
               reserved := Function.update s.reserved who (s.reserved who + amount) }

/-- `create`: a signed owner, an admin for the three roles, the deposit reserved. -/
def create (assetDeposit : Nat) (origin : Origin Acc) (id : Id) (admin : Acc) (minBalance : Nat) : M Id Acc Unit := do
  let owner ← ensureSigned origin
  let s ← get
  ensure (s.asset.contains id = false) .inUse
  ensure (minBalance ≠ 0) .minBalanceZero
  reserve owner assetDeposit
  let details : AssetDetails Acc := ⟨owner, admin, admin, admin, 0, assetDeposit, minBalance, false, 0, 0, 0, false⟩
  modify fun s => { s with asset := s.asset.insert id details }

/-- `do_force_create`. -/
def doForceCreate (id : Id) (owner : Acc) (isSufficient : Bool) (minBalance : Nat) : M Id Acc Unit := do
  let s ← get
  ensure (s.asset.contains id = false) .inUse
  ensure (minBalance ≠ 0) .minBalanceZero
  set { s with asset := s.asset.insert id ⟨owner, owner, owner, owner, 0, 0, minBalance, isSufficient, 0, 0, 0, false⟩ }

/-- `force_create`. -/
def forceCreate (origin : Origin Acc) (id : Id) (owner : Acc) (isSufficient : Bool) (minBalance : Nat) :
    M Id Acc Unit := do
  ensureRoot origin
  doForceCreate id owner isSufficient minBalance

/-- `force_asset_status`: every role, the minimum balance and both flags are
written as given. -/
def forceAssetStatus (origin : Origin Acc) (id : Id) (owner issuer admin freezer : Acc) (minBalance : Nat)
    (isSufficient isFrozen : Bool) : M Id Acc Unit := do
  ensureRoot origin
  let s ← get
  let asset ← okOr (s.asset.get? id) .unknown
  set { s with asset := s.asset.insert id { asset with owner, issuer, admin, freezer, minBalance, isSufficient, isFrozen } }

/-- The calls on asset classes. -/
inductive Op (Id Acc : Type)
  | create (origin : Origin Acc) (id : Id) (admin : Acc) (minBalance : Nat)
  | forceCreate (origin : Origin Acc) (id : Id) (owner : Acc) (isSufficient : Bool) (minBalance : Nat)
  | forceAssetStatus (origin : Origin Acc) (id : Id) (owner issuer admin freezer : Acc) (minBalance : Nat)
      (isSufficient isFrozen : Bool)

/-- One call, its result dropped; an error leaves the storage as it was. -/
def Op.apply (assetDeposit : Nat) (s : St Id Acc) : Op Id Acc → St Id Acc
  | .create origin id admin minBalance =>
    match PalletAssets.create assetDeposit origin id admin minBalance s with
    | .ok _ s' => s'
    | .error _ _ => s
  | .forceCreate origin id owner isSufficient minBalance =>
    match PalletAssets.forceCreate origin id owner isSufficient minBalance s with
    | .ok _ s' => s'
    | .error _ _ => s
  | .forceAssetStatus origin id owner issuer admin freezer minBalance isSufficient isFrozen =>
    match PalletAssets.forceAssetStatus origin id owner issuer admin freezer minBalance isSufficient isFrozen s with
    | .ok _ s' => s'
    | .error _ _ => s

/-- `force_create` of asset 0 with minimum balance 1, then `force_asset_status`
of it with minimum balance 0: the asset is stored with a zero minimum balance. -/
def forceZeroMinBalance : List (Op Nat Nat) :=
  [.forceCreate .root 0 1 true 1, .forceAssetStatus .root 0 1 1 1 1 0 true false]

theorem force_asset_status_zeroes_min_balance :
    ∃ d, (forceZeroMinBalance.foldl (Op.apply 0) ⟨OrdMap.empty, fun _ => 0, fun _ => 0⟩).asset.get? 0 = some d ∧
      d.minBalance = 0 :=
  ⟨_, rfl, rfl⟩

end PalletAssets
