import CherryNode.Balances.Types

/-!
# frame-system as the `AccountStore` of pallet-balances

`StoredMap::try_mutate_exists` of `frame_system::Pallet` runs the closure on
the account data (`None` for data equal to the default), then moves the
provider counter: a new account gets a provider, an account whose data became
`None` loses one.  Losing the last provider fails with `ConsumerRemaining`
while consumers remain (`dec_providers`).  The closure's result has been built
by then; on that `?` it is dropped, so whatever imbalance it holds settles
against `TotalIssuance` although no account was written (`tryMutateExists`).
-/

namespace PalletBalances

open EStateRun

variable {A : Type} [LinearOrder A]

/-- `is_providing`: data other than the default. -/
def isProviding (d : AccountData) : Bool := d != default

/-- `frame_system::Pallet::can_dec_provider`. -/
def canDecProvider (s : St A) (who : A) : Bool :=
  (s.get who).consumers == 0 || 1 < (s.get who).providers

/-- `DecRefStatus`; `stillExists` is `Exists`. -/
inductive DecRefStatus
  | reaped
  | stillExists
  deriving DecidableEq, Repr

/-- `inc_providers`: a new account gets its first provider. -/
def incProviders (who : A) : M A Unit :=
  modify fun s =>
    let a := s.get who
    let a := if a.providers = 0 ∧ a.sufficients = 0 then { a with providers := 1 }
      else { a with providers := a.providers + 1 }
    { s with account := s.account.insert who a }

/-- `dec_providers`: the last provider of an account with consumers cannot go. -/
def decProviders (who : A) : M A DecRefStatus := do
  let s ← get
  match s.account.get? who with
  | none => pure .reaped
  | some account =>
    -- a counter at zero is a logic error; it is taken as one
    let account := if account.providers = 0 then { account with providers := 1 } else account
    if account.providers = 1 ∧ account.consumers = 0 ∧ account.sufficients = 0 then do
      set { s with account := s.account.erase who }
      pure .reaped
    else if account.providers = 1 ∧ 0 < account.consumers then
      throw .consumerRemaining
    else do
      set { s with account := s.account.insert who { account with providers := account.providers - 1 } }
      pure .stillExists

/-- `Account::<T>::mutate(who, |a| a.data = data.unwrap_or_default())`. -/
def writeData (who : A) (data : Option AccountData) : M A Unit :=
  modify fun s => { s with account := s.account.insert who { s.get who with data := data.getD default } }

/-- `StoredMap::try_mutate_exists` of `frame_system::Pallet`. -/
def tryMutateExists {R : Type} [Drop R] (who : A) (f : Option AccountData → M A (R × Option AccountData)) :
    M A R := do
  let account := (← get).get who
  let wasProviding := isProviding account.data
  let (result, someData) ← f (if wasProviding then some account.data else none)
  if !wasProviding && someData.isSome then do
    incProviders who
    writeData who someData
    pure result
  else if wasProviding && someData.isNone then
    match ← toResult (decProviders who) with
    | .error e => do
      -- `dec_providers(k)?` returns here: `result` goes out of scope
      dropValue result
      throw e
    | .ok .reaped => pure result
    | .ok .stillExists => do
      writeData who someData
      pure result
  else if !wasProviding && someData.isNone then
    pure result
  else do
    writeData who someData
    pure result

end PalletBalances
