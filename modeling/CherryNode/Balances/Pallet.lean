import CherryNode.Balances.System

/-!
# pallet-balances: `Currency` and `ReservableCurrency`

The functions of `impl Currency` and `impl ReservableCurrency` that move funds,
over `frame_system::Account` and `TotalIssuance`, with `T::ExistentialDeposit`
as `ed`.  Every account change goes through `try_mutate_account_with_dust`: the
closure edits a copy, `post_mutation` turns an account below `ed` into dust,
and the `AccountStore` writes (or refuses to reap) it.  `slash` and
`slash_reserved` try twice, the second attempt keeping `ed` in the account;
`transfer` and `do_transfer_reserved` nest two mutations and drop both dust
cleaners at the end.  Events are left out.
-/

namespace PalletBalances

open EStateRun

variable {A : Type} [LinearOrder A] (ed : Nat)

/-- `post_mutation`: an account below `ed` is removed, its non-zero total is
dust. -/
def postMutation (new : AccountData) : Option AccountData × Option NegativeImbalance :=
  if new.total < ed then
    if new.total = 0 then (none, none) else (none, some ⟨new.total⟩)
  else (some new, none)

/-- `try_mutate_account_with_dust`: the closure gets the account (the default
one, and `is_new`, for an account not stored). -/
def tryMutateAccountWithDust {R : Type} [Drop R] (who : A) (f : AccountData → Bool → M A (R × AccountData)) :
    M A (R × DustCleaner A) := do
  let (_, maybeDust, result) ← tryMutateExists who fun maybeAccount => do
    let isNew := maybeAccount.isNone
    let (result, account) ← f (maybeAccount.getD default) isNew
    let maybeEndowed := if isNew then some account.free else none
    let (maybeAccount, maybeDust) := postMutation ed account
    pure ((maybeEndowed, maybeDust, result), maybeAccount)
  pure (result, ⟨maybeDust.map (who, ·)⟩)

/-- `try_mutate_account`: the dust cleaner is dropped at once. -/
def tryMutateAccount {R : Type} [Drop R] (who : A) (f : AccountData → Bool → M A (R × AccountData)) : M A R := do
  let (result, dustCleaner) ← tryMutateAccountWithDust ed who f
  dropValue dustCleaner
  pure result

/-- `mutate_account`. -/
def mutateAccount {R : Type} [Drop R] (who : A) (f : AccountData → R × AccountData) : M A R :=
  tryMutateAccount ed who fun account _ => pure (f account)

/-- `ensure_can_withdraw`: the new free balance stays above what is frozen. -/
def ensureCanWithdraw (who : A) (amount : Nat) (reasons : WithdrawReasons) (newBalance : Nat) : M A Unit := do
  if amount = 0 then pure () else
  let minBalance := ((← get).accountData who).frozen reasons.toReasons
  if minBalance ≤ newBalance then pure () else throw (.module .liquidityRestrictions)

/-! ## `Currency` -/

/-- `burn`: `TotalIssuance` goes down by at most what it holds. -/
def burn (amount : Nat) : M A PositiveImbalance :=
  if amount = 0 then pure ⟨0⟩ else do
  let s ← get
  let (issued, amount) := match checkedSub s.totalIssuance amount with
    | some issued => (issued, amount)
    | none => (0, s.totalIssuance)
  set { s with totalIssuance := issued }
  pure ⟨amount⟩

/-- `issue`: `TotalIssuance` goes up, at most to the maximum. -/
def issue (amount : Nat) : M A NegativeImbalance :=
  if amount = 0 then pure ⟨0⟩ else do
  let s ← get
  let (issued, amount) := match checkedAdd s.totalIssuance amount with
    | some issued => (issued, amount)
    | none => (balanceMax, balanceMax - s.totalIssuance)
  set { s with totalIssuance := issued }
  pure ⟨amount⟩

/-- `transfer`: the closure on `dest` runs the one on `transactor`; both dust
cleaners are dropped after both mutations. -/
def transfer (transactor dest : A) (value : Nat) (existenceRequirement : ExistenceRequirement) : M A Unit :=
  if value = 0 ∨ transactor = dest then pure () else do
  let (innerDust, outerDust) ← tryMutateAccountWithDust ed dest fun toAccount _ => do
    let (toAccount, innerDust) ← tryMutateAccountWithDust ed transactor fun fromAccount _ => do
      let some fromFree := checkedSub fromAccount.free value | throw (.module .insufficientBalance)
      let fromAccount := { fromAccount with free := fromFree }
      let some toFree := checkedAdd toAccount.free value | throw .overflow
      let toAccount := { toAccount with free := toFree }
      if toAccount.total < ed then throw (.module .existentialDeposit)
      ensureCanWithdraw transactor value .transfer fromAccount.free
      let allowDeath := existenceRequirement == .allowDeath && canDecProvider (← get) transactor
      if !allowDeath && fromAccount.total < ed then throw (.module .keepAlive)
      pure (toAccount, fromAccount)
    pure (innerDust, toAccount)
  dropValue (innerDust, outerDust)

/-- One attempt of `slash`: the first takes `value`, the second leaves `ed`;
free balance first, then reserved. -/
def slashAttempt (value attempt : Nat) (account : AccountData) : (NegativeImbalance × Nat) × AccountData :=
  let bestValue := if attempt = 0 then value else min value (account.free + account.reserved - ed)
  let freeSlash := min account.free bestValue
  let account := { account with free := account.free - freeSlash }
  let remainingSlash := bestValue - freeSlash
  if remainingSlash ≠ 0 then
    let reservedSlash := min account.reserved remainingSlash
    ((⟨freeSlash + reservedSlash⟩, value - freeSlash - reservedSlash),
      { account with reserved := account.reserved - reservedSlash })
  else ((⟨freeSlash⟩, value - freeSlash), account)

/-- `slash`: the imbalance and what could not be slashed. -/
def slash (who : A) (value : Nat) : M A (NegativeImbalance × Nat) :=
  if value = 0 then pure (⟨0⟩, 0) else do
  if ((← get).accountData who).total = 0 then pure (⟨0⟩, value) else do
  -- `for attempt in 0..2 { match try_mutate_account(..) { Ok(r) => return r, Err(_) => () } }`
  match ← toResult (mutateAccount ed who (slashAttempt ed value 0)) with
  | .ok r => pure r
  | .error _ =>
    match ← toResult (mutateAccount ed who (slashAttempt ed value 1)) with
    | .ok r => pure r
    | .error _ => pure (⟨0⟩, value)

/-- `deposit_into_existing`. -/
def depositIntoExisting (who : A) (value : Nat) : M A PositiveImbalance :=
  if value = 0 then pure ⟨0⟩ else
  tryMutateAccount ed who fun account isNew => do
    if isNew then throw (.module .deadAccount)
    let some free := checkedAdd account.free value | throw .overflow
    pure (⟨value⟩, { account with free := free })

/-- `deposit_creating`: a failure is the zero imbalance. -/
def depositCreating (who : A) (value : Nat) : M A PositiveImbalance :=
  if value = 0 then pure ⟨0⟩ else do
  let r ← toResult (tryMutateAccount ed who fun account isNew => do
    if value < ed ∧ isNew then throw (.module .existentialDeposit)
    match checkedAdd account.free value with
    | some free => pure (⟨value⟩, { account with free := free })
    | none => pure (⟨0⟩, account))
  match r with
  | .ok imbalance => pure imbalance
  | .error _ => pure ⟨0⟩

/-- `withdraw`. -/
def withdraw (who : A) (value : Nat) (reasons : WithdrawReasons) (liveness : ExistenceRequirement) :
    M A NegativeImbalance :=
  if value = 0 then pure ⟨0⟩ else
  tryMutateAccount ed who fun account _ => do
    let some newFreeAccount := checkedSub account.free value | throw (.module .insufficientBalance)
    let wouldBeDead := newFreeAccount + account.reserved < ed
    let wouldKill := wouldBeDead && ed ≤ account.free + account.reserved
    if !(liveness == .allowDeath || !wouldKill) then throw (.module .keepAlive)
    ensureCanWithdraw who value reasons newFreeAccount
    pure (⟨value⟩, { account with free := newFreeAccount })

/-- `make_free_balance_be`: a failure is the zero imbalance. -/
def makeFreeBalanceBe (who : A) (value : Nat) : M A SignedImbalance := do
  let r ← toResult (tryMutateAccount ed who fun account isNew => do
    let total := saturatingAdd value account.reserved
    if total < ed ∧ isNew then throw (.module .existentialDeposit)
    let imbalance : SignedImbalance :=
      if account.free ≤ value then .positive ⟨value - account.free⟩ else .negative ⟨account.free - value⟩
    pure (imbalance, { account with free := value }))
  match r with
  | .ok imbalance => pure imbalance
  | .error _ => pure (.positive ⟨0⟩)

/-! ## `ReservableCurrency` -/

/-- `reserve`. -/
def reserve (who : A) (value : Nat) : M A Unit :=
  if value = 0 then pure () else
  tryMutateAccount ed who fun account _ => do
    let some free := checkedSub account.free value | throw (.module .insufficientBalance)
    let some reserved := checkedAdd account.reserved value | throw .overflow
    ensureCanWithdraw who value .reserve free
    pure ((), { account with free := free, reserved := reserved })

/-- `unreserve`: what could not be unreserved. -/
def unreserve (who : A) (value : Nat) : M A Nat :=
  if value = 0 then pure 0 else do
  if ((← get).accountData who).total = 0 then pure value else do
  let r ← toResult (mutateAccount ed who fun account =>
    let actual := min account.reserved value
    (actual, { account with reserved := account.reserved - actual,
                            free := saturatingAdd account.free actual }))
  match r with
  | .ok actual => pure (value - actual)
  | .error _ => pure value

/-- One attempt of `slash_reserved`; the second leaves `ed`. -/
def slashReservedAttempt (value attempt : Nat) (account : AccountData) :
    (NegativeImbalance × Nat) × AccountData :=
  let bestValue := if attempt = 0 then value else min value (account.free + account.reserved - ed)
  let actual := min account.reserved bestValue
  ((⟨actual⟩, value - actual), { account with reserved := account.reserved - actual })

/-- `slash_reserved`. -/
def slashReserved (who : A) (value : Nat) : M A (NegativeImbalance × Nat) :=
  if value = 0 then pure (⟨0⟩, 0) else do
  if ((← get).accountData who).total = 0 then pure (⟨0⟩, value) else do
  match ← toResult (mutateAccount ed who (slashReservedAttempt ed value 0)) with
  | .ok r => pure r
  | .error _ =>
    match ← toResult (mutateAccount ed who (slashReservedAttempt ed value 1)) with
    | .ok r => pure r
    | .error _ => pure (⟨0⟩, value)

/-- `do_transfer_reserved`: the amount moved. -/
def doTransferReserved (slashed beneficiary : A) (value : Nat) (bestEffort : Bool) (status : Status) :
    M A Nat :=
  if value = 0 then pure 0 else
  if slashed = beneficiary then
    match status with
    | .free => unreserve ed slashed value
    | .reserved => do pure (value - ((← get).accountData slashed).reserved)
  else do
  let ((actual, maybeOneDust), maybeOtherDust) ← tryMutateAccountWithDust ed beneficiary
    fun toAccount isNew => do
      if isNew then throw (.module .deadAccount)
      let ((actual, toAccount), maybeOneDust) ← tryMutateAccountWithDust ed slashed
        fun fromAccount _ => do
          let actual := min fromAccount.reserved value
          if !(bestEffort || actual == value) then throw (.module .insufficientBalance)
          let toAccount ← match status with
            | .free => match checkedAdd toAccount.free actual with
              | some free => pure { toAccount with free := free }
              | none => throw .overflow
            | .reserved => match checkedAdd toAccount.reserved actual with
              | some reserved => pure { toAccount with reserved := reserved }
              | none => throw .overflow
          pure ((actual, toAccount), { fromAccount with reserved := fromAccount.reserved - actual })
      pure ((actual, maybeOneDust), toAccount)
  -- the two cleaners are dropped when the function returns
  dropValue (maybeOneDust, maybeOtherDust)
  pure actual

/-- `repatriate_reserved`: what could not be moved. -/
def repatriateReserved (slashed beneficiary : A) (value : Nat) (status : Status) : M A Nat := do
  let actual ← doTransferReserved ed slashed beneficiary value true status
  pure (value - actual)

end PalletBalances
