import Mathlib
import CherryNode.Balances.Pallet

/-!
# pallet-balances: `TotalIssuance` against the accounts

`TotalIssuance` is settled lazily: an operation changes the accounts and hands
back an imbalance that moves `TotalIssuance` when dropped.  The books balance
when `TotalIssuance`, plus the positive imbalances held, minus the negative
ones, is the sum of `free + reserved` over the stored accounts
(`IssuanceBalanced`, over `ℕ` with both sides moved across).

They break when the `AccountStore` refuses to reap, as `frame_system` does for
an account with consumers: the closure of `try_mutate_account` has built its
imbalances and dust, and the early return drops them, so `TotalIssuance` falls
though the account is unchanged; `slash` then retries and slashes again
(`slash_with_consumer_breaks_issuance`).
-/

namespace PalletBalances

variable {A : Type} [LinearOrder A]

/-- The sum of `free + reserved` over the stored accounts. -/
def accountsTotal (s : St A) : Nat := (s.account.toList.map fun e => e.2.data.free + e.2.data.reserved).sum

/-- `TotalIssuance + positive - negative = accountsTotal`, with `positive` and
`negative` the imbalances held. -/
def IssuanceBalanced (s : St A) (positive negative : Nat) : Prop :=
  s.totalIssuance + positive = accountsTotal s + negative

instance (s : St A) (positive negative : Nat) : Decidable (IssuanceBalanced s positive negative) :=
  inferInstanceAs (Decidable (_ = _))

/-- Every stored account holds at least `ed`. -/
def AboveExistential (ed : Nat) (s : St A) : Prop :=
  ∀ who info, s.account.get? who = some info → isProviding info.data = true →
    ed ≤ info.data.free + info.data.reserved

instance (ed : Nat) (s : St A) : Decidable (AboveExistential ed s) :=
  decidable_of_iff' _ (s.account.forall_get?_iff fun _ info =>
    isProviding info.data = true → ed ≤ info.data.free + info.data.reserved)

/-! ## A reap the store refuses -/

/-- Account `1` holds `100` free, with one provider and one consumer (a lock,
say); `TotalIssuance` is `100`. -/
def refusingState : St Nat := ⟨OrdMap.empty.insert 1 ⟨1, 1, 0, ⟨100, 0, 0, 0⟩⟩, 100⟩

/-- Account `1` keeps `10`; `TotalIssuance` is `0`. -/
def slashedState : St Nat := ⟨OrdMap.empty.insert 1 ⟨1, 1, 0, ⟨10, 0, 0, 0⟩⟩, 0⟩

theorem slash_with_consumer_breaks_issuance :
    IssuanceBalanced refusingState 0 0 ∧
    slash 10 1 95 refusingState = .ok (⟨90⟩, 5) slashedState ∧
    ¬ IssuanceBalanced slashedState 0 90 ∧
    withdraw 10 1 95 .transfer .allowDeath refusingState =
      .error .consumerRemaining { refusingState with totalIssuance := 0 } :=
  ⟨by decide, rfl, by decide, rfl⟩

end PalletBalances
