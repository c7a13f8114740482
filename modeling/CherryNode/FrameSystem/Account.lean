import CherryNode.Lib.OrdMap
import CherryNode.Lib.EStateRun

/-!
# frame-system: the reference counters of an account

`Account` maps an account to its `AccountInfo`: a nonce, three reference
counters and the data.  It is a `ValueQuery` map: an absent entry reads as the
default, and only `try_mutate_exists` and `mutate_exists` remove an entry.

`providers` and `sufficients` keep an account alive; `consumers` need a
provider.  The increments create the account when both were zero
(`on_created_account`), the decrements remove it when the last goes
(`on_killed_account`), and `dec_providers` refuses the last provider while
consumers remain.  `RefCount` is a `u32`: increments saturate, and
`inc_sufficients` tests a wrapping `providers + sufficients`.

`StoredMap::try_mutate_exists` holds a provider for the data.  It reads
"providing" two ways: before the closure as data other than the default,
after it as `Some`.
-/

namespace FrameSystem

open EStateRun

/-- `RefCount::max_value()`. -/
def refCountMax : Nat := 2 ^ 32 - 1

/-- `saturating_add(1)` on a `RefCount`. -/
def saturatingInc (n : Nat) : Nat := min (n + 1) refCountMax

/-- `x - 1` on a `RefCount`, which wraps below zero in a release build. -/
def wrappingDec (n : Nat) : Nat := (n + refCountMax) % 2 ^ 32

theorem saturatingInc_of_lt {n : Nat} (h : n < refCountMax) : saturatingInc n = n + 1 := by
  unfold saturatingInc
  omega

theorem wrappingDec_of_pos {n : Nat} (h0 : 0 < n) (h : n ≤ refCountMax) : wrappingDec n = n - 1 := by
  unfold wrappingDec refCountMax at *
  rw [show n + (2 ^ 32 - 1) = (n - 1) + 2 ^ 32 by omega, Nat.add_mod_right, Nat.mod_eq_of_lt (by omega)]

/-- `AccountInfo<Index, AccountData>`. -/
structure AccountInfo (D : Type) where
  nonce : Nat
  consumers : Nat
  providers : Nat
  sufficients : Nat
  data : D
  deriving DecidableEq, Repr

instance {D : Type} [Inhabited D] : Inhabited (AccountInfo D) := ⟨⟨0, 0, 0, 0, default⟩⟩

/-- `Event::NewAccount` and `Event::KilledAccount`. -/
inductive Event (A : Type)
  | newAccount (who : A)
  | killedAccount (who : A)
  deriving DecidableEq, Repr

/-- `IncRefStatus`. -/
inductive IncRefStatus
  | created
  | existed
  deriving DecidableEq, Repr

/-- `DecRefStatus`; `stillExists` is `Exists`. -/
inductive DecRefStatus
  | reaped
  | stillExists
  deriving DecidableEq, Repr

/-- The errors raised here (`ConsumerRemaining`, `NoProviders`), and an error of
a `try_mutate_exists` closure. -/
inductive DispatchError
  | consumerRemaining
  | noProviders
  | other
  deriving DecidableEq, Repr

/-- `Account` and the events deposited. -/
structure St (A D : Type) [LinearOrder A] where
  account : OrdMap A (AccountInfo D)
  events : List (Event A)

abbrev M (A D : Type) [LinearOrder A] := EStateM DispatchError (St A D)

variable {A D : Type} [LinearOrder A] [Inhabited D]

/-! ## Storage -/

/-- The stored entry of `who`. -/
def St.entry (s : St A D) (who : A) : Option (AccountInfo D) := s.account.get? who

/-- `Account::<T>::get`: the default for an absent entry. -/
def St.get (s : St A D) (who : A) : AccountInfo D := (s.entry who).getD default

/-- The storage with the entry of `who` written (`Some`) or removed (`None`). -/
def St.setEntry (s : St A D) (who : A) : Option (AccountInfo D) → St A D
  | some a => { s with account := s.account.insert who a }
  | none => { s with account := s.account.erase who }

/-- `deposit_event`. -/
def depositEvent (e : Event A) : M A D Unit :=
  modify fun s => { s with events := s.events ++ [e] }

/-- `on_created_account`. -/
def onCreatedAccount (who : A) : M A D Unit := depositEvent (.newAccount who)

/-- `on_killed_account`. -/
def onKilledAccount (who : A) : M A D Unit := depositEvent (.killedAccount who)

/-- `Account::<T>::mutate` and `Account::<T>::try_mutate`: the closure's value is
written back, the default too; nothing is written when the closure fails. -/
def accountMutate {R : Type} (who : A) (f : AccountInfo D → M A D (R × AccountInfo D)) : M A D R := do
  let (r, a) ← f ((← get).get who)
  modify fun s => s.setEntry who (some a)
  pure r

/-- `Account::<T>::try_mutate_exists` and `Account::<T>::mutate_exists`: the
closure sees `None` for an absent entry, and `None` afterwards removes it. -/
def accountMutateExists {R : Type} (who : A)
    (f : Option (AccountInfo D) → M A D (R × Option (AccountInfo D))) : M A D R := do
  let (r, e) ← f ((← get).entry who)
  modify fun s => s.setEntry who e
  pure r

/-! ## The counters -/

/-- `inc_providers`. -/
def incProviders (who : A) : M A D IncRefStatus :=
  accountMutate who fun a => do
    if a.providers = 0 ∧ a.sufficients = 0 then do
      -- the account is being created
      onCreatedAccount who
      pure (.created, { a with providers := 1 })
    else pure (.existed, { a with providers := saturatingInc a.providers })

/-- `dec_providers`. -/
def decProviders (who : A) : M A D DecRefStatus :=
  accountMutateExists who fun maybeAccount => do
    match maybeAccount with
    | some account =>
      -- a counter at zero is a logic error; it is taken as one
      let account := if account.providers = 0 then { account with providers := 1 } else account
      if account.providers = 1 ∧ account.consumers = 0 ∧ account.sufficients = 0 then do
        onKilledAccount who
        pure (.reaped, none)
      else if account.providers = 1 ∧ 0 < account.consumers then
        throw .consumerRemaining
      else pure (.stillExists, some { account with providers := account.providers - 1 })
    | none => pure (.reaped, none)

/-- `inc_sufficients`. -/
def incSufficients (who : A) : M A D IncRefStatus :=
  accountMutate who fun a => do
    -- `a.providers + a.sufficients` on `u32`
    if (a.providers + a.sufficients) % 2 ^ 32 = 0 then do
      onCreatedAccount who
      pure (.created, { a with sufficients := 1 })
    else pure (.existed, { a with sufficients := saturatingInc a.sufficients })

/-- `dec_sufficients`. -/
def decSufficients (who : A) : M A D DecRefStatus :=
  accountMutateExists who fun maybeAccount => do
    match maybeAccount with
    | some account =>
      if (account.sufficients = 0 ∨ account.sufficients = 1) ∧ account.providers = 0 then do
        onKilledAccount who
        pure (.reaped, none)
      else pure (.stillExists, some { account with sufficients := wrappingDec account.sufficients })
    | none => pure (.reaped, none)

/-- `inc_consumers`. -/
def incConsumers (who : A) : M A D Unit :=
  accountMutate who fun a =>
    if 0 < a.providers then pure ((), { a with consumers := saturatingInc a.consumers })
    else throw .noProviders

/-- `dec_consumers`. -/
def decConsumers (who : A) : M A D Unit :=
  accountMutate who fun a =>
    pure ((), if 0 < a.consumers then { a with consumers := a.consumers - 1 } else a)

/-- `can_inc_consumer`. -/
def canIncConsumer (who : A) (s : St A D) : Bool := decide (0 < (s.get who).providers)

section StoredMap

variable [DecidableEq D]

/-- `is_providing`: data other than the default. -/
def isProviding (d : D) : Bool := d != default

/-- `Account::<T>::mutate(k, |a| a.data = some_data.unwrap_or_default())`. -/
def writeData (k : A) (someData : Option D) : M A D Unit :=
  accountMutate k fun a => pure ((), { a with data := someData.getD default })

/-- `StoredMap::try_mutate_exists` of `Pallet`. -/
def tryMutateExists {R : Type} (k : A) (f : Option D → Except DispatchError (R × Option D)) : M A D R := do
  let account := (← get).get k
  let wasProviding := isProviding account.data
  let (result, someData) ← match f (if wasProviding then some account.data else none) with
    | .ok v => pure v
    | .error e => throw e
  let isProviding := someData.isSome
  if !wasProviding && isProviding then do
    let _ ← incProviders k
    writeData k someData
    pure result
  else if wasProviding && !isProviding then do
    match ← decProviders k with
    | .reaped => pure result
    | .stillExists => do
      writeData k someData
      pure result
  else if !wasProviding && !isProviding then pure result
  else do
    writeData k someData
    pure result

end StoredMap

/-! ## Each call in closed form

A call touches the entry of one account and appends events: `St.write`. -/

/-- `s` with the entry of `who` set to `e` and the events `evs` deposited. -/
def St.write (s : St A D) (who : A) (e : Option (AccountInfo D)) (evs : List (Event A)) : St A D :=
  ⟨(s.setEntry who e).account, s.events ++ evs⟩

omit [Inhabited D] in
@[simp] theorem entry_setEntry (s : St A D) (who k : A) (e : Option (AccountInfo D)) :
    (s.setEntry who e).entry k = if who = k then e else s.entry k := by
  cases e <;> simp [St.setEntry, St.entry]

omit [Inhabited D] in
@[simp] theorem entry_write (s : St A D) (who k : A) (e : Option (AccountInfo D)) (evs : List (Event A)) :
    (s.write who e evs).entry k = if who = k then e else s.entry k :=
  entry_setEntry s who k e

theorem get_write (s : St A D) (who k : A) (e : Option (AccountInfo D)) (evs : List (Event A)) :
    (s.write who e evs).get k = if who = k then e.getD default else s.get k := by
  unfold St.get
  rw [entry_write]
  split_ifs <;> rfl

omit [Inhabited D] in
theorem write_write (s : St A D) (who : A) (e e' : Option (AccountInfo D)) (evs evs' : List (Event A)) :
    (s.write who e evs).write who e' evs' = s.write who e' (evs ++ evs') := by
  have hacc : ((s.write who e evs).write who e' evs').account = (s.write who e' (evs ++ evs')).account :=
    OrdMap.ext_get? fun k => by
      show ((s.write who e evs).write who e' evs').entry k = (s.write who e' (evs ++ evs')).entry k
      simp only [entry_write]
      split_ifs <;> rfl
  cases s
  simp only [St.write, St.mk.injEq, List.append_assoc, and_true] at hacc ⊢
  exact hacc

theorem incProviders_apply (who : A) (s : St A D) :
    incProviders who s =
      if (s.get who).providers = 0 ∧ (s.get who).sufficients = 0 then
        .ok .created (s.write who (some { s.get who with providers := 1 }) [.newAccount who])
      else .ok .existed (s.write who (some { s.get who with providers := saturatingInc (s.get who).providers }) []) := by
  unfold incProviders accountMutate onCreatedAccount depositEvent
  simp only [bind_apply, get_apply]
  split_ifs <;> cases s <;> simp [St.write, St.setEntry, St.get, St.entry]

omit [Inhabited D] in
theorem decProviders_apply (who : A) (s : St A D) :
    decProviders who s =
      match s.entry who with
      | some account =>
        let account := if account.providers = 0 then { account with providers := 1 } else account
        if account.providers = 1 ∧ account.consumers = 0 ∧ account.sufficients = 0 then
          .ok .reaped (s.write who none [.killedAccount who])
        else if account.providers = 1 ∧ 0 < account.consumers then .error .consumerRemaining s
        else .ok .stillExists (s.write who (some { account with providers := account.providers - 1 }) [])
      | none => .ok .reaped (s.write who none []) := by
  unfold decProviders accountMutateExists onKilledAccount depositEvent
  simp only [bind_apply, get_apply]
  cases h : s.entry who with
  | none => cases s; simp [St.write, St.setEntry]
  | some account =>
    dsimp only
    split_ifs <;> cases s <;> simp [St.write, St.setEntry]

theorem incSufficients_apply (who : A) (s : St A D) :
    incSufficients who s =
      if ((s.get who).providers + (s.get who).sufficients) % 2 ^ 32 = 0 then
        .ok .created (s.write who (some { s.get who with sufficients := 1 }) [.newAccount who])
      else .ok .existed
        (s.write who (some { s.get who with sufficients := saturatingInc (s.get who).sufficients }) []) := by
  unfold incSufficients accountMutate onCreatedAccount depositEvent
  simp only [bind_apply, get_apply]
  split_ifs <;> cases s <;> simp [St.write, St.setEntry, St.get, St.entry]

omit [Inhabited D] in
theorem decSufficients_apply (who : A) (s : St A D) :
    decSufficients who s =
      match s.entry who with
      | some account =>
        if (account.sufficients = 0 ∨ account.sufficients = 1) ∧ account.providers = 0 then
          .ok .reaped (s.write who none [.killedAccount who])
        else .ok .stillExists (s.write who (some { account with sufficients := wrappingDec account.sufficients }) [])
      | none => .ok .reaped (s.write who none []) := by
  unfold decSufficients accountMutateExists onKilledAccount depositEvent
  simp only [bind_apply, get_apply]
  cases h : s.entry who with
  | none => cases s; simp [St.write, St.setEntry]
  | some account =>
    dsimp only
    split_ifs <;> cases s <;> simp [St.write, St.setEntry]

theorem incConsumers_apply (who : A) (s : St A D) :
    incConsumers who s =
      if 0 < (s.get who).providers then
        .ok () (s.write who (some { s.get who with consumers := saturatingInc (s.get who).consumers }) [])
      else .error .noProviders s := by
  unfold incConsumers accountMutate
  simp only [bind_apply, get_apply]
  split_ifs <;> cases s <;> simp [St.write, St.setEntry, St.get, St.entry]

theorem decConsumers_apply (who : A) (s : St A D) :
    decConsumers who s =
      .ok () (s.write who (some (if 0 < (s.get who).consumers then
        { s.get who with consumers := (s.get who).consumers - 1 } else s.get who)) []) := by
  unfold decConsumers accountMutate
  simp only [bind_apply, get_apply]
  cases s
  simp [St.write, St.setEntry, St.get, St.entry]

theorem writeData_apply [DecidableEq D] (k : A) (someData : Option D) (s : St A D) :
    writeData k someData s = .ok () (s.write k (some { s.get k with data := someData.getD default }) []) := by
  unfold writeData accountMutate
  simp only [bind_apply, get_apply]
  cases s
  simp [St.write, St.setEntry]

end FrameSystem
