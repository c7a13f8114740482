import CherryNode.Balances.Books
import CherryNode.Lib.Run

/-!
# Runs of `Currency` calls

`CurrencyCall` is a call of a function of `Currency` or `ReservableCurrency`
with its arguments, as another pallet makes it; `CurrencyCall.exec` makes the
call and drops what it returns at once.  A run folds `currencyStep` over a
list of calls; a call that fails keeps the state it reached.

Dropping a value settles what it holds (`Settles`): a `NegativeImbalance`
takes its amount off `TotalIssuance`, a `PositiveImbalance` adds it, exactly
as long as the sum fits a `u128` (`PositiveImbalance::drop` saturates).  So a
clean state stays clean along a run as long as the accounts together fit a
`u128` (`currencyRun_keeps_books`).
-/

namespace PalletBalances

open EStateRun

variable {A : Type} [LinearOrder A]

/-- A call of a function of `Currency` or `ReservableCurrency`. -/
inductive CurrencyCall (A : Type)
  | transfer (transactor dest : A) (value : Nat) (existenceRequirement : ExistenceRequirement)
  | slash (who : A) (value : Nat)
  | depositIntoExisting (who : A) (value : Nat)
  | depositCreating (who : A) (value : Nat)
  | withdraw (who : A) (value : Nat) (reasons : WithdrawReasons) (liveness : ExistenceRequirement)
  | makeFreeBalanceBe (who : A) (value : Nat)
  | burn (amount : Nat)
  | issue (amount : Nat)
  | reserve (who : A) (value : Nat)
  | unreserve (who : A) (value : Nat)
  | slashReserved (who : A) (value : Nat)
  | repatriateReserved (slashed beneficiary : A) (value : Nat) (status : Status)
  deriving DecidableEq, Repr

/-- Make the call and drop what it returns.  (Inside `CurrencyCall` the
constructors shadow the functions, hence the full names.) -/
def CurrencyCall.exec (ed : Nat) : CurrencyCall A → M A Unit
  | .transfer transactor dest value existenceRequirement =>
    PalletBalances.transfer ed transactor dest value existenceRequirement >>= dropValue
  | .slash who value => PalletBalances.slash ed who value >>= dropValue
  | .depositIntoExisting who value => PalletBalances.depositIntoExisting ed who value >>= dropValue
  | .depositCreating who value => PalletBalances.depositCreating ed who value >>= dropValue
  | .withdraw who value reasons liveness => PalletBalances.withdraw ed who value reasons liveness >>= dropValue
  | .makeFreeBalanceBe who value => PalletBalances.makeFreeBalanceBe ed who value >>= dropValue
  | .burn amount => PalletBalances.burn amount >>= dropValue
  | .issue amount => PalletBalances.issue amount >>= dropValue
  | .reserve who value => PalletBalances.reserve ed who value >>= dropValue
  | .unreserve who value => PalletBalances.unreserve ed who value >>= dropValue
  | .slashReserved who value => PalletBalances.slashReserved ed who value >>= dropValue
  | .repatriateReserved slashed beneficiary value status =>
    PalletBalances.repatriateReserved ed slashed beneficiary value status >>= dropValue

/-- The state after a call, whether it returned `Ok` or `Err`. -/
def currencyStep (ed : Nat) (s : St A) (c : CurrencyCall A) : St A :=
  match c.exec ed s with
  | .ok _ s' => s'
  | .error _ s' => s'

/-! ## Dropping what a call returns -/

/-- Dropping `r` turns the books balanced with `r` outstanding into books
balanced with nothing outstanding, when the accounts fit a `u128`. -/
class Settles (R : Type) [Drop R] [Held R] : Prop where
  drop_eq : ∀ (r : R) (issuance total : Nat), issuance + Held.positive r = total + Held.negative r →
    total ≤ balanceMax → Drop.drop r issuance = total

instance : Settles Unit where
  drop_eq _ issuance total h _ := by
    show issuance = total
    simpa using h

instance : Settles Nat where
  drop_eq _ issuance total h _ := by
    show issuance = total
    simpa using h

instance : Settles PositiveImbalance where
  drop_eq p issuance total h hmax := by
    -- `saturating_add` does not saturate below the maximum
    show min (issuance + p.amount) balanceMax = total
    simp only [positive_positiveImbalance, negative_positiveImbalance] at h
    omega

instance : Settles NegativeImbalance where
  drop_eq n issuance total h _ := by
    show issuance - n.amount = total
    simp only [positive_negativeImbalance, negative_negativeImbalance] at h
    omega

instance : Settles SignedImbalance where
  drop_eq r issuance total h hmax := by
    cases r with
    | positive p => exact Settles.drop_eq p issuance total h hmax
    | negative n => exact Settles.drop_eq n issuance total h hmax

instance {R : Type} [Drop R] [Held R] [Settles R] : Settles (R × Nat) where
  drop_eq r issuance total h hmax := by
    simp only [positive_prod, negative_prod, positive_nat, negative_nat, Nat.add_zero] at h
    exact Settles.drop_eq r.1 issuance total h hmax

section Steps

variable {ed : Nat} {s : St A}

variable {R : Type}

theorem Kept.drop_clean [Drop R] [Held R] [Settles R] {r : R} {s' : St A}
    (h : Kept ed s (.ok r s')) (hb : accountsTotal s' ≤ balanceMax) :
    Clean ed ⟨s'.account, Drop.drop r s'.totalIssuance⟩ := by
  obtain ⟨hbal, hex, hno⟩ := h
  have hdrop : Drop.drop r s'.totalIssuance = accountsTotal s' := Settles.drop_eq r _ _ hbal hb
  refine ⟨?_, hex, hno, hdrop ▸ hb⟩
  show Drop.drop r s'.totalIssuance + 0 = accountsTotal s' + 0
  rw [hdrop]

/-- **Rule for a call**: an operation that keeps the books, followed by the
drop of what it returns. -/
theorem kept_dropValue [Drop R] [Held R] [Settles R] {x : M A R} (hx : Kept ed s (x s)) :
    Sat ((x >>= dropValue) s) (fun _ s' => accountsTotal s' ≤ balanceMax → Clean ed s')
      (fun _ s' => s' = s) := by
  rw [sat_bind]
  cases hr : x s with
  | ok r s' =>
    rw [hr] at hx
    exact fun hb => hx.drop_clean hb
  | error e s' =>
    rw [hr] at hx
    exact hx

theorem CurrencyCall.exec_clean (hs : Clean ed s) (hed : ed ≤ balanceMax) (c : CurrencyCall A) :
    Sat (c.exec ed s) (fun _ s' => accountsTotal s' ≤ balanceMax → Clean ed s') (fun _ s' => s' = s) := by
  cases c with
  | transfer transactor dest value req => exact kept_dropValue (transfer_kept hs hed transactor dest value req)
  | slash who value => exact kept_dropValue (slash_kept hs hed who value)
  | depositIntoExisting who value => exact kept_dropValue (depositIntoExisting_kept hs hed who value)
  | depositCreating who value => exact kept_dropValue (depositCreating_kept hs hed who value)
  | withdraw who value reasons liveness =>
    exact kept_dropValue (withdraw_kept hs hed who value reasons liveness)
  | makeFreeBalanceBe who value => exact kept_dropValue (makeFreeBalanceBe_kept hs hed who value)
  | burn amount => exact kept_dropValue (burn_kept hs amount)
  | issue amount => exact kept_dropValue (issue_kept hs amount)
  | reserve who value => exact kept_dropValue (reserve_kept hs hed who value)
  | unreserve who value => exact kept_dropValue (unreserve_kept hs hed who value)
  | slashReserved who value => exact kept_dropValue (slashReserved_kept hs hed who value)
  | repatriateReserved slashed beneficiary value status =>
    exact kept_dropValue (repatriateReserved_kept hs hed slashed beneficiary value status)

/-- **Step lemma.** -/
theorem currencyStep_clean (hs : Clean ed s) (hed : ed ≤ balanceMax) (c : CurrencyCall A)
    (hb : accountsTotal (currencyStep ed s c) ≤ balanceMax) : Clean ed (currencyStep ed s c) := by
  have hc := CurrencyCall.exec_clean hs hed c
  unfold currencyStep at hb ⊢
  cases hr : c.exec ed s with
  | ok _ s' =>
    rw [hr] at hc hb
    exact hc hb
  | error _ s' =>
    rw [hr] at hc
    exact hc ▸ hs

end Steps

/-- **Run theorem.**  Every run of `Currency` and `ReservableCurrency` calls
from a clean state ends in one while the accounts together fit a `u128`. -/
theorem currencyRun_keeps_books {ed : Nat} (hed : ed ≤ balanceMax) (calls : List (CurrencyCall A))
    (s : St A) (hs : Clean ed s)
    (hfit : StepRun.Guarded (currencyStep ed) (fun s c => accountsTotal (currencyStep ed s c) ≤ balanceMax)
      s calls) :
    Clean ed (calls.foldl (currencyStep ed) s) :=
  StepRun.foldl_invariant (Clean ed) _ (fun _ c h hb => currencyStep_clean h hed c hb) calls s hs hfit

/-- Account `1` holds `100` free; `TotalIssuance` is `100`. -/
def fundedState : St Nat := ⟨OrdMap.empty.insert 1 ⟨0, 1, 0, ⟨100, 0, 0, 0⟩⟩, 100⟩

/-- Transfer `50` to account `2`, reserve `20` of it, slash `45` from account
`2`, and pay `30` to account `1`. -/
def fundedRun : List (CurrencyCall Nat) :=
  [.transfer 1 2 50 .allowDeath, .reserve 2 20, .slash 2 45, .depositIntoExisting 1 30]

theorem currencyRun_keeps_books_funded :
    Clean 10 fundedState ∧
      StepRun.Guarded (currencyStep 10)
        (fun s c => accountsTotal (currencyStep 10 s c) ≤ balanceMax) fundedState fundedRun ∧
      Clean 10 (fundedRun.foldl (currencyStep 10) fundedState) :=
  have hs : Clean 10 fundedState := by decide
  have hfit : StepRun.Guarded (currencyStep 10)
      (fun s c => accountsTotal (currencyStep 10 s c) ≤ balanceMax) fundedState fundedRun := by decide
  ⟨hs, hfit, currencyRun_keeps_books (by decide) fundedRun fundedState hs hfit⟩

end PalletBalances
