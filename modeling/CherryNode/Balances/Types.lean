import CherryNode.Lib.OrdMap
import CherryNode.Lib.EStateRun

/-!
# pallet-balances: accounts, imbalances and the `AccountStore`

`AccountData` is an account's balance record, kept in `frame_system::Account`
next to the reference counters that decide whether it may be reaped.
`T::Balance` is `u128`: `checked_add` fails past `balanceMax`,
`saturating_add` stops there, `saturating_sub` is `Nat` subtraction.
Imbalances are amounts, and what matters is what dropping one does (`Drop`): a
`PositiveImbalance` adds to `TotalIssuance`, a `NegativeImbalance` subtracts,
and a `DustCleaner` hands its dust to `T::DustRemoval`, `()` in the runtime.  A
tuple drops its fields in order, an `Option` its content.
-/

namespace PalletBalances

/-- `u128::max_value()`. -/
def balanceMax : Nat := 2 ^ 128 - 1

/-- `checked_add` on `u128`. -/
def checkedAdd (a b : Nat) : Option Nat := if a + b ≤ balanceMax then some (a + b) else none

/-- `checked_sub` on `u128`. -/
def checkedSub (a b : Nat) : Option Nat := if b ≤ a then some (a - b) else none

/-- `checked_mul` on `u128`. -/
def checkedMul (a b : Nat) : Option Nat := if a * b ≤ balanceMax then some (a * b) else none

/-- `saturating_add` on `u128`. -/
def saturatingAdd (a b : Nat) : Nat := min (a + b) balanceMax

variable {a b : Nat}

theorem checkedMul_of_le (h : a * b ≤ balanceMax) : checkedMul a b = some (a * b) := by
  simp [checkedMul, h]

theorem saturatingAdd_le (a b : Nat) : saturatingAdd a b ≤ balanceMax := Nat.min_le_right _ _

theorem saturatingAdd_pos (h : 0 < a ∨ 0 < b) : 0 < saturatingAdd a b := by
  unfold saturatingAdd balanceMax
  omega

/-- `AccountData<Balance>`. -/
structure AccountData where
  free : Nat
  reserved : Nat
  miscFrozen : Nat
  feeFrozen : Nat
  deriving DecidableEq, Repr

instance : Inhabited AccountData := ⟨⟨0, 0, 0, 0⟩⟩

/-- `Reasons`. -/
inductive Reasons
  | fee
  | misc
  | all
  deriving DecidableEq, Repr

/-- `WithdrawReasons`, a set of flags: whether it holds `TRANSACTION_PAYMENT`,
and whether it holds any other flag.  `From<WithdrawReasons> for Reasons` reads
nothing else. -/
structure WithdrawReasons where
  transactionPayment : Bool
  others : Bool
  deriving DecidableEq, Repr

/-- `WithdrawReasons::TRANSFER`. -/
def WithdrawReasons.transfer : WithdrawReasons := ⟨false, true⟩

/-- `WithdrawReasons::RESERVE`. -/
def WithdrawReasons.reserve : WithdrawReasons := ⟨false, true⟩

/-- `impl From<WithdrawReasons> for Reasons`. -/
def WithdrawReasons.toReasons (r : WithdrawReasons) : Reasons :=
  if r.transactionPayment && !r.others then .fee
  else if r.transactionPayment then .all
  else .misc

/-- `ExistenceRequirement`. -/
inductive ExistenceRequirement
  | keepAlive
  | allowDeath
  deriving DecidableEq, Repr

/-- `BalanceStatus`. -/
inductive Status
  | free
  | reserved
  deriving DecidableEq, Repr

/-- `AccountData::frozen`. -/
def AccountData.frozen (a : AccountData) : Reasons → Nat
  | .all => max a.miscFrozen a.feeFrozen
  | .misc => a.miscFrozen
  | .fee => a.feeFrozen

/-- `AccountData::total`. -/
def AccountData.total (a : AccountData) : Nat := saturatingAdd a.free a.reserved

/-- The errors of the pallet (`Error<T, I>`) that the currency functions raise. -/
inductive Error
  | liquidityRestrictions
  | insufficientBalance
  | existentialDeposit
  | keepAlive
  | deadAccount
  deriving DecidableEq, Repr

/-- `DispatchError`, as far as these functions raise it: a pallet error,
`ArithmeticError::Overflow`, or `ConsumerRemaining` from `frame_system`. -/
inductive DispatchError
  | module (e : Error)
  | overflow
  | consumerRemaining
  deriving DecidableEq, Repr

/-- `frame_system::AccountInfo`, without the nonce. -/
structure AccountInfo where
  consumers : Nat
  providers : Nat
  sufficients : Nat
  data : AccountData
  deriving DecidableEq, Repr

instance : Inhabited AccountInfo := ⟨⟨0, 0, 0, default⟩⟩

/-- The storage the currency functions touch: `frame_system::Account` and
`TotalIssuance`. -/
structure St (A : Type) [LinearOrder A] where
  account : OrdMap A AccountInfo
  totalIssuance : Nat

/-- The functions over the storage, with their `Result`. -/
abbrev M (A : Type) [LinearOrder A] := EStateM DispatchError (St A)

/-! ## Imbalances -/

structure PositiveImbalance where
  amount : Nat
  deriving DecidableEq, Repr

structure NegativeImbalance where
  amount : Nat
  deriving DecidableEq, Repr

/-- `SignedImbalance<Balance, PositiveImbalance>`. -/
inductive SignedImbalance
  | positive (p : PositiveImbalance)
  | negative (n : NegativeImbalance)
  deriving DecidableEq, Repr

/-- `DustCleaner`: the dust of a reaped account, if any. -/
structure DustCleaner (A : Type) where
  dust : Option (A × NegativeImbalance)

/-- What dropping a value does to `TotalIssuance`. -/
class Drop (R : Type) where
  drop : R → Nat → Nat

instance : Drop Unit := ⟨fun _ issuance => issuance⟩

instance : Drop Nat := ⟨fun _ issuance => issuance⟩

instance : Drop AccountData := ⟨fun _ issuance => issuance⟩

/-- `impl Drop for PositiveImbalance`. -/
instance : Drop PositiveImbalance := ⟨fun p issuance => saturatingAdd issuance p.amount⟩

/-- `impl Drop for NegativeImbalance`. -/
instance : Drop NegativeImbalance := ⟨fun n issuance => issuance - n.amount⟩

instance : Drop SignedImbalance where
  drop
    | .positive p, issuance => Drop.drop p issuance
    | .negative n, issuance => Drop.drop n issuance

instance {R : Type} [Drop R] : Drop (Option R) where
  drop
    | some r, issuance => Drop.drop r issuance
    | none, issuance => issuance

instance {R R' : Type} [Drop R] [Drop R'] : Drop (R × R') := ⟨fun r issuance => Drop.drop r.2 (Drop.drop r.1 issuance)⟩

theorem drop_prod {R R' : Type} [Drop R] [Drop R'] (r : R × R') (issuance : Nat) :
    Drop.drop r issuance = Drop.drop r.2 (Drop.drop r.1 issuance) := rfl

/-- `impl Drop for DustCleaner`: the dust goes to `T::DustRemoval`, `()` in the
runtime, which drops it. -/
instance {A : Type} : Drop (DustCleaner A) := ⟨fun d issuance => Drop.drop (d.dust.map Prod.snd) issuance⟩

theorem drop_dustCleaner {A : Type} (who : A) (o : Option NegativeImbalance) (t : Nat) :
    Drop.drop (⟨o.map (who, ·)⟩ : DustCleaner A) t = Drop.drop o t := by
  cases o <;> rfl

section Storage

variable {A : Type} [LinearOrder A]

/-- `Account::<T>::get(who)`: the default record for an account not stored. -/
def St.get (s : St A) (who : A) : AccountInfo := (s.account.get? who).getD default

/-- `T::AccountStore::get(who)`, i.e. `Pallet::account(who)`. -/
def St.accountData (s : St A) (who : A) : AccountData := (s.get who).data

/-- Drop a value: its effect on `TotalIssuance`. -/
def dropValue {R : Type} [Drop R] (r : R) : M A Unit :=
  modify fun s => { s with totalIssuance := Drop.drop r s.totalIssuance }

end Storage

end PalletBalances
