import CherryNode.Balances.Calls
import CherryNode.Support.Dispatch

/-!
# The dispatchables of pallet-balances

`Call` lists `#[pallet::call]`: `transfer`, `set_balance`, `force_transfer`,
`transfer_keep_alive`, `transfer_all` and `force_unreserve`.  Each checks its
origin first, then calls into `Currency`, whose errors become the call's
(`lift`).  Account lookup is the identity.

`set_balance` has a mutation of its own: its closure drops each balance's
difference as it goes, so `TotalIssuance` is written, free part first, before
the account.  From a clean state it succeeds, sets the account to the balances
(or removes it below `ed`), touches no other account and keeps the books when
the balances fit a `u128` with the accounts (`setBalance_spec`); because the
free part goes first, that bound is needed even when the new balances would
fit (`setBalance_swap_breaks_issuance`).  A run of calls keeps a clean state
clean (`dispatchRun_keeps_books`).
-/

namespace PalletBalances

open EStateRun

variable {A : Type} [LinearOrder A]

/-- `Call<T, I>`. -/
inductive Call (A : Type)
  | transfer (dest : A) (value : Nat)
  | setBalance (who : A) (newFree newReserved : Nat)
  | forceTransfer (source dest : A) (value : Nat)
  | transferKeepAlive (dest : A) (value : Nat)
  | transferAll (dest : A) (keepAlive : Bool)
  | forceUnreserve (who : A) (amount : Nat)
  deriving DecidableEq, Repr

/-- A function of the pallet called from a dispatchable: its errors are the
call's. -/
def lift {α : Type} (x : M A α) : Frame.Call (St A) DispatchError α :=
  x.adaptExcept .module

section Calls

variable (ed : Nat)

/-- `fungible::Inspect::reducible_balance`. -/
def reducibleBalance (s : St A) (who : A) (keepAlive : Bool) : Nat :=
  let a := s.accountData who
  -- liquid balance is what is neither reserved nor locked/frozen
  let liquid := a.free - max a.feeFrozen a.miscFrozen
  if canDecProvider s who && !keepAlive then liquid
  else
    let mustRemainToExist := ed - (a.total - liquid)
    liquid - mustRemainToExist

/-- `drop(PositiveImbalance::new(new - old))` when a balance grows,
`drop(NegativeImbalance::new(old - new))` when it shrinks. -/
def dropDifference (new old : Nat) : M A Unit :=
  if old < new then dropValue (⟨new - old⟩ : PositiveImbalance)
  else if new < old then dropValue (⟨old - new⟩ : NegativeImbalance)
  else pure ()

/-- The closure `set_balance` passes to `mutate_account`. -/
def setBalanceMutation (newFree newReserved : Nat) (account : AccountData) :
    M A ((Nat × Nat) × AccountData) := do
  dropDifference newFree account.free
  dropDifference newReserved account.reserved
  pure ((newFree, newReserved), { account with free := newFree, reserved := newReserved })

/-- `set_balance` after `ensure_root`. -/
def setBalance (who : A) (newFree newReserved : Nat) : M A Unit := do
  -- `new_free + new_reserved` on `u128`, which wraps in a release build
  let wipeout : Bool := (newFree + newReserved) % 2 ^ 128 < ed
  let newFree := if wipeout then 0 else newFree
  let newReserved := if wipeout then 0 else newReserved
  let _ ← tryMutateAccount ed who fun account _ => setBalanceMutation newFree newReserved account
  pure ()

/-- The call, from `origin`. -/
def Call.dispatch (origin : Frame.Origin A) : Call A → Frame.Call (St A) DispatchError Unit
  | .transfer dest value => do
    let transactor ← Frame.ensureSigned origin
    lift (PalletBalances.transfer ed transactor dest value .allowDeath)
  | .setBalance who newFree newReserved => do
    Frame.ensureRoot origin
    lift (PalletBalances.setBalance ed who newFree newReserved)
  | .forceTransfer source dest value => do
    Frame.ensureRoot origin
    lift (PalletBalances.transfer ed source dest value .allowDeath)
  | .transferKeepAlive dest value => do
    let transactor ← Frame.ensureSigned origin
    lift (PalletBalances.transfer ed transactor dest value .keepAlive)
  | .transferAll dest keepAlive => do
    let transactor ← Frame.ensureSigned origin
    let reducibleBalance := PalletBalances.reducibleBalance ed (← get) transactor keepAlive
    lift (PalletBalances.transfer ed transactor dest reducibleBalance
      (if keepAlive then .keepAlive else .allowDeath))
  | .forceUnreserve who amount => do
    Frame.ensureRoot origin
    let _leftover ← lift (unreserve ed who amount)
    pure ()

/-- The storage after a call from an origin. -/
def dispatchStep (s : St A) (call : Frame.Origin A × Call A) : St A :=
  Frame.applyCall (call.2.dispatch ed call.1) s

end Calls

/-- What a call needs of the state it runs from: for `set_balance`, that the
requested balances fit a `u128` with the accounts. -/
def Call.Fits (s : St A) : Call A → Prop
  | .setBalance _ newFree newReserved => accountsTotal s + newFree + newReserved ≤ balanceMax
  | _ => True

instance (s : St A) (c : Call A) : Decidable (c.Fits s) := by
  cases c <;> unfold Call.Fits <;> infer_instance

/-! ## `set_balance` -/

section SetBalance

variable {ed : Nat} {s : St A}

theorem dropDifference_apply (new old : Nat) (s : St A) (hmax : s.totalIssuance + new ≤ balanceMax + old)
    (hmin : old ≤ s.totalIssuance + new) :
    dropDifference new old s = .ok () ⟨s.account, s.totalIssuance + new - old⟩ := by
  unfold dropDifference
  split_ifs with h₁ h₂
  · show EStateM.Result.ok () (⟨s.account, min (s.totalIssuance + (new - old)) balanceMax⟩ : St A) = _
    congr 2
    omega
  · show EStateM.Result.ok () (⟨s.account, s.totalIssuance - (old - new)⟩ : St A) = _
    congr 2
    omega
  · show EStateM.Result.ok () s = _
    have : new = old := by omega
    subst this
    rw [Nat.add_sub_cancel]

theorem setBalanceMutation_apply (hs : Clean ed s) (who : A) (newFree newReserved : Nat)
    (hfit : accountsTotal s + newFree + newReserved ≤ balanceMax) :
    setBalanceMutation newFree newReserved (s.accountData who) s =
      .ok ((newFree, newReserved),
          ⟨newFree, newReserved, (s.accountData who).miscFrozen, (s.accountData who).feeFrozen⟩)
        ⟨s.account, s.totalIssuance + (newFree + newReserved) - (s.accountData who).balance⟩ := by
  -- the account is part of the books, which the new balances fit with
  have hle := hs.balance_le who
  have hbal : s.totalIssuance = accountsTotal s := by
    have := hs.balanced
    unfold IssuanceBalanced at this
    omega
  unfold AccountData.balance at hle ⊢
  unfold setBalanceMutation
  rw [bind_apply, dropDifference_apply _ _ s (by omega) (by omega)]
  dsimp only
  rw [bind_apply, dropDifference_apply _ _ _ (by dsimp only; omega) (by dsimp only; omega)]
  dsimp only
  rw [pure_apply]
  congr 2
  omega

theorem setBalance_write (hs : Clean ed s) (hed : ed ≤ balanceMax) (who : A) (newFree newReserved : Nat)
    (hfit : accountsTotal s + newFree + newReserved ≤ balanceMax)
    (hshape : newFree + newReserved = 0 ∨ ed ≤ newFree + newReserved) :
    ∃ s', tryMutateAccount ed who (fun account _ => setBalanceMutation newFree newReserved account) s =
        .ok (newFree, newReserved) s' ∧ Clean ed s' ∧
      s'.accountData who =
        (postMutation ed ⟨newFree, newReserved, (s.accountData who).miscFrozen,
          (s.accountData who).feeFrozen⟩).1.getD default ∧
      ∀ k, k ≠ who → s'.account.get? k = s.account.get? k := by
  obtain ⟨s', h', hw⟩ := tryMutateAccount_ok ed (g := fun account _ => setBalanceMutation newFree newReserved account)
    (setBalanceMutation_apply hs who newFree newReserved hfit) rfl hs.noConsumers
  refine ⟨_, h', ?_, hw.data, fun k hk => hw.frame k hk⟩
  -- the closure wrote only `TotalIssuance`
  have hex₁ : AboveExistential ed
      (⟨s.account, s.totalIssuance + (newFree + newReserved) - (s.accountData who).balance⟩ : St A) :=
    hs.existential
  have hex : AboveExistential ed s' := hex₁.written hw (postMutation_existential ed _)
  have hpm := postMutation_balance ed hed
    ⟨newFree, newReserved, (s.accountData who).miscFrozen, (s.accountData who).feeFrozen⟩
  have htotal : (⟨newFree, newReserved, (s.accountData who).miscFrozen, (s.accountData who).feeFrozen⟩ :
      AccountData).total = newFree + newReserved := by
    simp only [AccountData.total, saturatingAdd]
    omega
  have hbalance : (⟨newFree, newReserved, (s.accountData who).miscFrozen, (s.accountData who).feeFrozen⟩ :
      AccountData).balance = newFree + newReserved := rfl
  generalize (⟨newFree, newReserved, (s.accountData who).miscFrozen, (s.accountData who).feeFrozen⟩ :
      AccountData) = a at htotal hbalance hpm hw ⊢
  -- no dust: the new balances are zero or hold `ed`
  have hdust : (if a.total < ed then a.total else 0) = 0 := by
    rw [htotal]
    split_ifs <;> omega
  rw [hdust] at hpm ⊢
  have htot : accountsTotal s' + (s.accountData who).balance = accountsTotal s + _ := hw.total
  have hti : s'.totalIssuance = s.totalIssuance + (newFree + newReserved) - (s.accountData who).balance :=
    hw.totalIssuance
  have hbal := hs.balanced
  unfold IssuanceBalanced at hbal
  refine ⟨?_, hex, hw.noConsumers, ?_⟩
  · show s'.totalIssuance - 0 + 0 = accountsTotal s' + 0
    omega
  · show s'.totalIssuance - 0 ≤ balanceMax
    omega

/-- `set_balance` from a clean state, for balances that fit with the
accounts: it succeeds, the account holds exactly the requested balances (or is
removed when they are below `ed`), no other account changes, and the state
stays clean. -/
theorem setBalance_spec (hs : Clean ed s) (hed : ed ≤ balanceMax) (who : A) (newFree newReserved : Nat)
    (hfit : accountsTotal s + newFree + newReserved ≤ balanceMax) :
    Sat (setBalance ed who newFree newReserved s)
      (fun _ s' => Clean ed s' ∧
        s'.accountData who = (if newFree + newReserved < ed then default
          else ⟨newFree, newReserved, (s.accountData who).miscFrozen, (s.accountData who).feeFrozen⟩) ∧
        ∀ k, k ≠ who → s'.account.get? k = s.account.get? k)
      (fun _ _ => False) := by
  -- the sum does not wrap: it fits a `u128`
  have hwrap : (newFree + newReserved) % 2 ^ 128 = newFree + newReserved :=
    Nat.mod_eq_of_lt (by unfold balanceMax at hfit; omega)
  unfold setBalance
  by_cases hw : newFree + newReserved < ed
  · simp only [hwrap, hw, decide_true, ↓reduceIte]
    obtain ⟨s', h', hc, hd, hf⟩ := setBalance_write hs hed who 0 0 (by omega) (.inl rfl)
    rw [sat_bind, h']
    refine ⟨hc, ?_, hf⟩
    rw [hd]
    -- the account is wiped out: nothing is left to store
    have hwipe : min (0 + 0) balanceMax < ed := by omega
    simp only [postMutation, AccountData.total, saturatingAdd, hwipe, ↓reduceIte]
    simp
  · simp only [hwrap, hw, decide_false, ↓reduceIte, Bool.false_eq_true]
    obtain ⟨s', h', hc, hd, hf⟩ := setBalance_write hs hed who newFree newReserved hfit (.inr (by omega))
    rw [sat_bind, h']
    refine ⟨hc, ?_, hf⟩
    rw [hd]
    have hkeep : ¬ min (newFree + newReserved) balanceMax < ed := by omega
    simp only [postMutation, AccountData.total, saturatingAdd, hkeep, ↓reduceIte]
    rfl

theorem setBalance_spec_funded :
    Sat (setBalance 10 (1 : Nat) 70 10 fundedState)
      (fun _ s' => Clean 10 s' ∧
        s'.accountData 1 = (if 70 + 10 < 10 then default
          else ⟨70, 10, (fundedState.accountData 1).miscFrozen, (fundedState.accountData 1).feeFrozen⟩) ∧
        ∀ k, k ≠ 1 → s'.account.get? k = fundedState.account.get? k)
      (fun _ _ => False) :=
  setBalance_spec (by decide) (by decide) 1 70 10 (by decide)

/-- Account `1` holds `u128::MAX` reserved, all of `TotalIssuance`. -/
def reservedMaxState : St Nat := ⟨OrdMap.empty.insert 1 ⟨0, 1, 0, ⟨0, balanceMax, 0, 0⟩⟩, balanceMax⟩

/-- Moving it all to free with `set_balance` first drops `u128::MAX` of
positive imbalance, which saturates, then `u128::MAX` of negative: the
account holds `u128::MAX` and `TotalIssuance` is `0`. -/
theorem setBalance_swap_breaks_issuance :
    Clean 1 reservedMaxState ∧
      dispatchStep 1 reservedMaxState (.root, .setBalance 1 balanceMax 0) =
        ⟨OrdMap.empty.insert 1 ⟨0, 1, 0, ⟨balanceMax, 0, 0, 0⟩⟩, 0⟩ ∧
      ¬ IssuanceBalanced (dispatchStep 1 reservedMaxState (.root, .setBalance 1 balanceMax 0)) 0 0 :=
  ⟨by decide, rfl, by decide⟩

end SetBalance

/-! ## Every call -/

section Dispatch

variable {ed : Nat} {s : St A}

theorem Clean.of_totalIssuance_le (hs : Clean ed s) {s' : St A}
    (h : (IssuanceBalanced s' 0 0 ∧ AboveExistential ed s' ∧ NoConsumers s') ∧
      s'.totalIssuance ≤ s.totalIssuance) : Clean ed s' :=
  ⟨h.1.1, h.1.2.1, h.1.2.2, h.2.trans hs.bounded⟩

theorem mutateAccount_totalIssuance_le {R : Type} [Drop R] (hs : Clean ed s) (who : A)
    (f : AccountData → R × AccountData) :
    Sat (mutateAccount ed who f s) (fun _ s' => s'.totalIssuance ≤ s.totalIssuance) (fun _ _ => False) := by
  obtain ⟨s', h', hw⟩ := tryMutateAccount_ok ed (g := fun account _ => pure (f account)) rfl rfl hs.noConsumers
  unfold mutateAccount
  rw [h']
  show s'.totalIssuance - _ ≤ s.totalIssuance
  have := hw.totalIssuance
  omega

theorem unreserve_totalIssuance_le (hs : Clean ed s) (who : A) (value : Nat) :
    Sat (unreserve ed who value s) (fun _ s' => s'.totalIssuance ≤ s.totalIssuance) (fun _ _ => True) := by
  unfold unreserve
  split_ifs with h0
  · exact le_refl _
  · simp only [sat_bind, get_apply, sat_ok]
    split_ifs with ht
    · exact le_refl _
    · simp only [sat_bind, sat_toResult]
      exact (mutateAccount_totalIssuance_le hs who _).imp (fun _ _ h => h) (fun _ _ h => h.elim)

theorem lift_transfer_clean (hs : Clean ed s) (hed : ed ≤ balanceMax) (transactor dest : A) (value : Nat)
    (existenceRequirement : ExistenceRequirement) :
    Sat (lift (transfer ed transactor dest value existenceRequirement) s) (fun _ s' => Clean ed s')
      (fun _ s' => s' = s) :=
  (sat_adaptExcept _ _ _ _ _).mpr
    ((transfer_sat hs hed transactor dest value existenceRequirement).imp
      (fun _ _ h => hs.of_totalIssuance_le h) (fun _ _ h => h))

theorem lift_unreserve_clean (hs : Clean ed s) (hed : ed ≤ balanceMax) (who : A) (value : Nat) :
    Sat (lift (unreserve ed who value) s) (fun _ s' => Clean ed s') (fun _ s' => s' = s) :=
  (sat_adaptExcept _ _ _ _ _).mpr
    ((((kept_iff_sat _).mp (unreserve_kept hs hed who value)).and
      (unreserve_totalIssuance_le hs who value)).imp
      (fun _ _ h => hs.of_totalIssuance_le h) (fun _ _ h => h.1))

theorem Call.dispatch_clean (hs : Clean ed s) (hed : ed ≤ balanceMax) (origin : Frame.Origin A)
    (c : Call A) (hfit : c.Fits s) :
    Sat (c.dispatch ed origin s) (fun _ s' => Clean ed s') (fun _ s' => s' = s) := by
  -- a bad origin fails before any write
  cases c with
  | transfer dest value =>
    cases origin with
    | signed transactor => exact lift_transfer_clean hs hed transactor dest value .allowDeath
    | root => exact rfl
    | none => exact rfl
  | setBalance who newFree newReserved =>
    cases origin with
    | root =>
      exact (sat_adaptExcept _ _ _ _ _).mpr
        ((setBalance_spec hs hed who newFree newReserved hfit).imp (fun _ _ h => h.1) (fun _ _ h => h.elim))
    | signed _ => exact rfl
    | none => exact rfl
  | forceTransfer source dest value =>
    cases origin with
    | root => exact lift_transfer_clean hs hed source dest value .allowDeath
    | signed _ => exact rfl
    | none => exact rfl
  | transferKeepAlive dest value =>
    cases origin with
    | signed transactor => exact lift_transfer_clean hs hed transactor dest value .keepAlive
    | root => exact rfl
    | none => exact rfl
  | transferAll dest keepAlive =>
    cases origin with
    | signed transactor => exact lift_transfer_clean hs hed transactor dest _ _
    | root => exact rfl
    | none => exact rfl
  | forceUnreserve who amount =>
    cases origin with
    | root =>
      show Sat ((lift (unreserve ed who amount) >>= fun _ => pure ()) s) _ _
      rw [sat_bind]
      exact lift_unreserve_clean hs hed who amount
    | signed _ => exact rfl
    | none => exact rfl

/-- **Step lemma.** -/
theorem dispatchStep_clean (hs : Clean ed s) (hed : ed ≤ balanceMax) (call : Frame.Origin A × Call A)
    (hfit : call.2.Fits s) : Clean ed (dispatchStep ed s call) := by
  have h := call.2.dispatch_clean hs hed call.1 hfit
  unfold dispatchStep Frame.applyCall
  cases hr : call.2.dispatch ed call.1 s with
  | ok _ s' =>
    rw [hr] at h
    exact h
  | error e s' =>
    rw [hr] at h
    -- a panic discards the call, an error keeps what it wrote: nothing
    cases e <;> first | exact hs | exact h ▸ hs

end Dispatch

/-- **Run theorem.**  From a clean state, every run of calls of the pallet
from any origins ends in a clean state, as long as each `set_balance` asks
for balances that fit a `u128` with the accounts. -/
theorem dispatchRun_keeps_books {ed : Nat} (hed : ed ≤ balanceMax) (calls : List (Frame.Origin A × Call A))
    (s : St A) (hs : Clean ed s)
    (hfit : StepRun.Guarded (dispatchStep ed) (fun s call => call.2.Fits s) s calls) :
    Clean ed (calls.foldl (dispatchStep ed) s) :=
  StepRun.foldl_invariant (Clean ed) _ (fun _ call h hb => dispatchStep_clean h hed call hb) calls s hs hfit

/-- Account `1` sends `50` to `2`; root sets `2` to `70` free and `10`
reserved; `2` sends all it can to `1` keeping alive; an unsigned and then a
root call unreserve `5` of `2`. -/
def dispatchedRun : List (Frame.Origin Nat × Call Nat) :=
  [(.signed 1, .transfer 2 50), (.root, .setBalance 2 70 10), (.signed 2, .transferAll 1 true),
    (.none, .forceUnreserve 2 5), (.root, .forceUnreserve 2 5)]

theorem dispatchRun_keeps_books_funded :
    Clean 10 fundedState ∧
      StepRun.Guarded (dispatchStep 10) (fun s call => call.2.Fits s) fundedState dispatchedRun ∧
      Clean 10 (dispatchedRun.foldl (dispatchStep 10) fundedState) :=
  have hs : Clean 10 fundedState := by decide
  have hfit : StepRun.Guarded (dispatchStep 10) (fun s call => call.2.Fits s) fundedState dispatchedRun := by
    decide
  ⟨hs, hfit, dispatchRun_keeps_books (by decide) dispatchedRun fundedState hs hfit⟩

end PalletBalances
