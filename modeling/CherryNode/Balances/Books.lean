import CherryNode.Balances.Store

/-!
# pallet-balances keeps its books when the store reaps on demand

`slash_with_consumer_breaks_issuance` shows the books going wrong when the
`AccountStore` refuses a reap; from balanced books that is the only way.  A
state is `Clean` when `TotalIssuance` is the sum of the stored accounts, each
holding `ed`, none with consumers, and fits a `u128`.  From a clean state each
`Currency` and `ReservableCurrency` operation fails leaving the state, or
balances the books with the imbalances it returns (`Kept`).  The proofs go
through one rule per shape of code: `tryMutateAccount_kept`,
`mutateAccount_kept` and `kept_recover` (`match toResult (..) { Err(_) => zero,
.. }`).
-/

namespace PalletBalances

open EStateRun

variable {A : Type} [LinearOrder A]
variable {R R' : Type} {who : A}

/-- The imbalances a value holds: what dropping it adds to `TotalIssuance`,
and what it takes off. -/
class Held (R : Type) where
  positive : R → Nat
  negative : R → Nat

instance : Held Unit := ⟨fun _ => 0, fun _ => 0⟩

instance : Held Nat := ⟨fun _ => 0, fun _ => 0⟩

instance : Held PositiveImbalance := ⟨PositiveImbalance.amount, fun _ => 0⟩

instance : Held NegativeImbalance := ⟨fun _ => 0, NegativeImbalance.amount⟩

instance : Held SignedImbalance where
  positive
    | .positive p => p.amount
    | .negative _ => 0
  negative
    | .positive _ => 0
    | .negative n => n.amount

instance {R R' : Type} [Held R] [Held R'] : Held (R × R') :=
  ⟨fun r => Held.positive r.1 + Held.positive r.2, fun r => Held.negative r.1 + Held.negative r.2⟩

@[simp] theorem positive_unit (u : Unit) : Held.positive u = 0 := rfl
@[simp] theorem negative_unit (u : Unit) : Held.negative u = 0 := rfl
@[simp] theorem positive_nat (n : Nat) : Held.positive n = 0 := rfl
@[simp] theorem negative_nat (n : Nat) : Held.negative n = 0 := rfl
@[simp] theorem positive_positiveImbalance (p : PositiveImbalance) : Held.positive p = p.amount := rfl
@[simp] theorem negative_positiveImbalance (p : PositiveImbalance) : Held.negative p = 0 := rfl
@[simp] theorem positive_negativeImbalance (n : NegativeImbalance) : Held.positive n = 0 := rfl
@[simp] theorem negative_negativeImbalance (n : NegativeImbalance) : Held.negative n = n.amount := rfl
@[simp] theorem positive_signed_positive (p : PositiveImbalance) :
    Held.positive (SignedImbalance.positive p) = p.amount := rfl
@[simp] theorem negative_signed_positive (p : PositiveImbalance) :
    Held.negative (SignedImbalance.positive p) = 0 := rfl
@[simp] theorem positive_signed_negative (n : NegativeImbalance) :
    Held.positive (SignedImbalance.negative n) = 0 := rfl
@[simp] theorem negative_signed_negative (n : NegativeImbalance) :
    Held.negative (SignedImbalance.negative n) = n.amount := rfl
@[simp] theorem positive_prod [Held R] [Held R'] (r : R × R') :
    Held.positive r = Held.positive r.1 + Held.positive r.2 := rfl
@[simp] theorem negative_prod [Held R] [Held R'] (r : R × R') :
    Held.negative r = Held.negative r.1 + Held.negative r.2 := rfl

/-- Balanced books with nothing outstanding, accounts above `ed`, a store that
reaps on demand, and a `u128` issuance. -/
structure Clean (ed : Nat) (s : St A) : Prop where
  balanced : IssuanceBalanced s 0 0
  existential : AboveExistential ed s
  noConsumers : NoConsumers s
  bounded : s.totalIssuance ≤ balanceMax

instance (ed : Nat) (s : St A) : Decidable (Clean ed s) :=
  decidable_of_iff (IssuanceBalanced s 0 0 ∧ AboveExistential ed s ∧ NoConsumers s ∧ s.totalIssuance ≤ balanceMax)
    ⟨fun ⟨h₁, h₂, h₃, h₄⟩ => ⟨h₁, h₂, h₃, h₄⟩, fun h => ⟨h.balanced, h.existential, h.noConsumers, h.bounded⟩⟩

/-- What an operation started from `s` leaves: on success, books that balance
with the returned imbalances counted, accounts above `ed` and no consumers; on
failure, `s` itself. -/
def Kept {R : Type} [Held R] (ed : Nat) (s : St A) : EStateM.Result DispatchError (St A) R → Prop
  | .ok r s' => IssuanceBalanced s' (Held.positive r) (Held.negative r) ∧ AboveExistential ed s' ∧ NoConsumers s'
  | .error _ s' => s' = s

/-- What a closure of `try_mutate_account` does, run on the account of `who`
in `s`, for the books to balance after the mutation: it writes nothing, the
imbalance it returns is the change of the account, and it leaves no account
below `ed` that it did not shrink. -/
def ClosureKeeps {R : Type} [Held R] (ed : Nat) (s : St A) (who : A) :
    EStateM.Result DispatchError (St A) (R × AccountData) → Prop
  | .ok ra s₁ => s₁ = s ∧
      Held.positive ra.1 + (s.accountData who).balance = ra.2.balance + Held.negative ra.1 ∧
      (ra.2.balance ≤ (s.accountData who).balance ∨ ed ≤ ra.2.balance)
  | .error _ s₁ => s₁ = s

section Rules

variable {ed : Nat} {s : St A}

theorem Clean.kept_self [Held R] (hs : Clean ed s) (r : R)
    (hp : Held.positive r = 0) (hn : Held.negative r = 0) : Kept ed s (.ok r s) := by
  refine ⟨?_, hs.existential, hs.noConsumers⟩
  have := hs.balanced
  unfold IssuanceBalanced at this ⊢
  rw [hp, hn]
  exact this

theorem Clean.ed_le (hs : Clean ed s) (hp : isProviding (s.accountData who) = true) :
    ed ≤ (s.accountData who).balance := by
  unfold St.accountData St.get at hp ⊢
  cases hw : s.account.get? who with
  | none =>
    rw [hw] at hp
    exact absurd hp (by decide)
  | some info =>
    rw [hw] at hp
    exact hs.existential who info hw hp

theorem Clean.balance_le (hs : Clean ed s) (who : A) : (s.accountData who).balance ≤ s.totalIssuance := by
  have := hs.balanced
  have := balance_le_accountsTotal s who
  unfold IssuanceBalanced at *
  omega

theorem Clean.balanced_written (hs : Clean ed s) (hed : ed ≤ balanceMax) {s' : St A}
    {a : AccountData} {positive negative : Nat}
    (hw : Written s s' who ((postMutation ed a).1.getD default))
    (hbooks : positive + (s.accountData who).balance = a.balance + negative)
    (hshape : a.balance ≤ (s.accountData who).balance ∨ ed ≤ a.balance) :
    IssuanceBalanced (⟨s'.account, s'.totalIssuance - if a.total < ed then a.total else 0⟩ : St A)
      positive negative := by
  have hpm := postMutation_balance ed hed a
  have hti := hw.totalIssuance
  have htot := hw.total
  have hle := hs.balance_le who
  have hbal := hs.balanced
  -- the dust is at most `TotalIssuance`: it comes from an account that shrank,
  -- or there is none
  have hdust : (if a.total < ed then a.total else 0) ≤ s.totalIssuance := by
    split_ifs with h
    · have := AccountData.total_eq_balance (lt_of_lt_of_le h hed)
      rcases hshape with h' | h' <;> omega
    · exact Nat.zero_le _
  unfold IssuanceBalanced at hbal ⊢
  show s'.totalIssuance - _ + positive = accountsTotal s' + negative
  omega

/-- The rule for `try_mutate_account`. -/
theorem tryMutateAccount_kept [Drop R] [Held R] {g : AccountData → Bool → M A (R × AccountData)}
    (hs : Clean ed s) (hed : ed ≤ balanceMax)
    (hg : ClosureKeeps ed s who (g (s.accountData who) (!isProviding (s.accountData who)) s)) :
    Kept ed s (tryMutateAccount ed who g s) := by
  cases hres : g (s.accountData who) (!isProviding (s.accountData who)) s with
  | error e s₁ =>
    rw [hres] at hg
    rw [tryMutateAccount_error ed hres]
    exact hg
  | ok ra s₁ =>
    obtain ⟨r, a⟩ := ra
    rw [hres] at hg
    obtain ⟨rfl, hbooks, hshape⟩ := hg
    obtain ⟨s', h', hw⟩ := tryMutateAccount_ok ed hres rfl hs.noConsumers
    rw [h']
    have hex : AboveExistential ed s' := hs.existential.written hw (postMutation_existential ed a)
    exact ⟨hs.balanced_written hed hw hbooks hshape, hex, hw.noConsumers⟩

/-- The rule for `mutate_account`: it goes through, with the closure's
result. -/
theorem mutateAccount_kept [Drop R] [Held R] (hs : Clean ed s) (hed : ed ≤ balanceMax)
    (who : A) (f : AccountData → R × AccountData)
    (hbooks : Held.positive (f (s.accountData who)).1 + (s.accountData who).balance =
      (f (s.accountData who)).2.balance + Held.negative (f (s.accountData who)).1)
    (hshape : (f (s.accountData who)).2.balance ≤ (s.accountData who).balance ∨
      ed ≤ (f (s.accountData who)).2.balance) :
    ∃ s', mutateAccount ed who f s = .ok (f (s.accountData who)).1 s' ∧
      Kept ed s (.ok (f (s.accountData who)).1 s') := by
  have hk := tryMutateAccount_kept (g := fun account _ => pure (f account)) hs hed ⟨rfl, hbooks, hshape⟩
  obtain ⟨s', h', _⟩ := tryMutateAccount_ok ed (g := fun account _ => pure (f account)) rfl rfl hs.noConsumers
  refine ⟨_, h', ?_⟩
  rw [h'] at hk
  exact hk

/-- The rule for `match toResult(..)`: a success is passed on with what it
holds, an error turned into a value that holds nothing. -/
theorem kept_recover [Held R] [Held R'] {x : M A R} {k : Except DispatchError R → M A R'}
    (hs : Clean ed s)
    (hok : ∀ v, ∃ w, k (.ok v) = pure w ∧ Held.positive w = Held.positive v ∧ Held.negative w = Held.negative v)
    (herr : ∀ e, ∃ w, k (.error e) = pure w ∧ Held.positive w = 0 ∧ Held.negative w = 0)
    (hx : Kept ed s (x s)) : Kept ed s ((toResult x >>= k) s) := by
  simp only [bind_apply, toResult_apply]
  cases h : x s with
  | ok v s' =>
    rw [h] at hx
    obtain ⟨hb, he, hc⟩ := hx
    obtain ⟨w, hw, hp, hn⟩ := hok v
    dsimp only
    rw [hw, pure_apply]
    refine ⟨?_, he, hc⟩
    unfold IssuanceBalanced at hb ⊢
    rw [hp, hn]
    exact hb
  | error e s' =>
    rw [h] at hx
    subst hx
    obtain ⟨w, hw, hp, hn⟩ := herr e
    dsimp only
    rw [hw, pure_apply]
    exact hs.kept_self w hp hn

end Rules

/-! ## The operations on one account -/

theorem slashAttempt_balance (ed value attempt : Nat) (a : AccountData) :
    (slashAttempt ed value attempt a).2.balance + (slashAttempt ed value attempt a).1.1.amount = a.balance := by
  unfold slashAttempt AccountData.balance
  dsimp only
  split_ifs <;> dsimp only <;> omega

theorem slashReservedAttempt_balance (ed value attempt : Nat) (a : AccountData) :
    (slashReservedAttempt ed value attempt a).2.balance + (slashReservedAttempt ed value attempt a).1.1.amount =
      a.balance := by
  unfold slashReservedAttempt AccountData.balance
  dsimp only
  omega


section Operations

variable {ed : Nat} {s : St A}

theorem ensureCanWithdraw_apply (who : A) (amount : Nat) (reasons : WithdrawReasons) (newBalance : Nat) (s : St A) :
    ensureCanWithdraw who amount reasons newBalance s =
      if amount = 0 ∨ (s.accountData who).frozen reasons.toReasons ≤ newBalance then .ok () s
      else .error (.module .liquidityRestrictions) s := by
  unfold ensureCanWithdraw
  by_cases h0 : amount = 0
  · simp [h0]
  · by_cases hf : (s.accountData who).frozen reasons.toReasons ≤ newBalance <;> simp [h0, hf]

theorem burn_kept (hs : Clean ed s) (amount : Nat) : Kept ed s (burn amount s) := by
  unfold burn
  split_ifs with h0
  · exact hs.kept_self _ rfl rfl
  · have hbal := hs.balanced
    unfold IssuanceBalanced at hbal
    simp only [bind_apply, get_apply, set_apply, pure_apply, checkedSub]
    -- `TotalIssuance` goes down by what the imbalance holds
    split_ifs with hle
    · refine ⟨?_, hs.existential, hs.noConsumers⟩
      show s.totalIssuance - amount + amount = accountsTotal s + 0
      omega
    · refine ⟨?_, hs.existential, hs.noConsumers⟩
      show 0 + s.totalIssuance = accountsTotal s + 0
      omega

theorem issue_kept (hs : Clean ed s) (amount : Nat) : Kept ed s (issue amount s) := by
  unfold issue
  split_ifs with h0
  · exact hs.kept_self _ rfl rfl
  · have hbal := hs.balanced
    have hmax := hs.bounded
    unfold IssuanceBalanced at hbal
    simp only [bind_apply, get_apply, set_apply, pure_apply, checkedAdd]
    -- `TotalIssuance` goes up by what the imbalance holds, at most to the maximum
    split_ifs with hle
    · refine ⟨?_, hs.existential, hs.noConsumers⟩
      show s.totalIssuance + amount + 0 = accountsTotal s + amount
      omega
    · refine ⟨?_, hs.existential, hs.noConsumers⟩
      show balanceMax + 0 = accountsTotal s + (balanceMax - s.totalIssuance)
      omega

theorem withdraw_kept (hs : Clean ed s) (hed : ed ≤ balanceMax) (who : A) (value : Nat)
    (reasons : WithdrawReasons) (liveness : ExistenceRequirement) :
    Kept ed s (withdraw ed who value reasons liveness s) := by
  unfold withdraw
  split_ifs with h0
  · exact hs.kept_self _ rfl rfl
  · apply tryMutateAccount_kept hs hed
    simp only [checkedSub]
    split_ifs with hle
    · dsimp only
      split_ifs
      · exact rfl
      · simp only [bind_apply, ensureCanWithdraw_apply]
        split_ifs
        · -- the account loses `value`, which the negative imbalance holds
          refine ⟨rfl, ?_, ?_⟩ <;> simp only [AccountData.balance, negative_negativeImbalance,
            positive_negativeImbalance] <;> omega
        · exact rfl
    · exact rfl

theorem slash_kept (hs : Clean ed s) (hed : ed ≤ balanceMax) (who : A) (value : Nat) :
    Kept ed s (slash ed who value s) := by
  unfold slash
  split_ifs with h0
  · exact hs.kept_self _ rfl rfl
  · simp only [bind_apply, get_apply]
    split_ifs with ht
    · exact hs.kept_self _ rfl rfl
    · -- the first attempt goes through: the store never refuses
      have hbal := slashAttempt_balance ed value 0 (s.accountData who)
      obtain ⟨s', h', hk⟩ := mutateAccount_kept hs hed who (slashAttempt ed value 0)
        (by simp only [positive_prod, negative_prod, positive_negativeImbalance, negative_negativeImbalance,
          positive_nat, negative_nat]; omega) (.inl (by omega))
      simp only [bind_apply, toResult_apply, h', pure_apply]
      exact hk

theorem slashReserved_kept (hs : Clean ed s) (hed : ed ≤ balanceMax) (who : A) (value : Nat) :
    Kept ed s (slashReserved ed who value s) := by
  unfold slashReserved
  split_ifs with h0
  · exact hs.kept_self _ rfl rfl
  · simp only [bind_apply, get_apply]
    split_ifs with ht
    · exact hs.kept_self _ rfl rfl
    · have hbal := slashReservedAttempt_balance ed value 0 (s.accountData who)
      obtain ⟨s', h', hk⟩ := mutateAccount_kept hs hed who (slashReservedAttempt ed value 0)
        (by simp only [positive_prod, negative_prod, positive_negativeImbalance, negative_negativeImbalance,
          positive_nat, negative_nat]; omega) (.inl (by omega))
      simp only [bind_apply, toResult_apply, h', pure_apply]
      exact hk

theorem depositIntoExisting_kept (hs : Clean ed s) (hed : ed ≤ balanceMax) (who : A) (value : Nat) :
    Kept ed s (depositIntoExisting ed who value s) := by
  unfold depositIntoExisting
  split_ifs with h0
  · exact hs.kept_self _ rfl rfl
  · apply tryMutateAccount_kept hs hed
    cases hp : isProviding (s.accountData who)
    · exact rfl
    · -- an existing account grows: it stays above `ed`
      have hed' := hs.ed_le hp
      simp only [Bool.not_true, Bool.false_eq_true, if_false, checkedAdd]
      split_ifs with hle
      · dsimp only
        refine ⟨rfl, ?_, .inr ?_⟩ <;>
          simp only [AccountData.balance, positive_positiveImbalance, negative_positiveImbalance] at hed' ⊢ <;>
          omega
      · exact rfl

theorem depositCreating_kept (hs : Clean ed s) (hed : ed ≤ balanceMax) (who : A) (value : Nat) :
    Kept ed s (depositCreating ed who value s) := by
  unfold depositCreating
  split_ifs with h0
  · exact hs.kept_self _ rfl rfl
  · refine kept_recover hs (fun v => ⟨v, rfl, rfl, rfl⟩) (fun _ => ⟨_, rfl, rfl, rfl⟩) ?_
    apply tryMutateAccount_kept hs hed
    by_cases hle : (s.accountData who).free + value ≤ balanceMax
    · cases hp : isProviding (s.accountData who)
      · -- a new account: the default data, created only from `ed` on
        have hd := isProviding_eq_false.mp hp
        by_cases hlt : value < ed
        · simp only [hlt, Bool.not_false, and_true, ↓reduceIte]
          exact rfl
        · simp only [hlt, Bool.not_false, and_true, ↓reduceIte, checkedAdd, hle, pure_apply]
          refine ⟨rfl, ?_, .inr ?_⟩ <;> simp only [AccountData.balance, hd, positive_positiveImbalance,
            negative_positiveImbalance, AccountData.free_default, AccountData.reserved_default] <;> omega
      · -- an existing account grows: it stays above `ed`
        have hed' := hs.ed_le hp
        simp only [Bool.not_true, Bool.false_eq_true, and_false, ↓reduceIte, checkedAdd, hle, pure_apply]
        refine ⟨rfl, ?_, .inr ?_⟩ <;>
          simp only [AccountData.balance, positive_positiveImbalance, negative_positiveImbalance] at hed' ⊢ <;>
          omega
    · -- an overflow leaves the account as it was, with the zero imbalance
      by_cases hnew : value < ed ∧ (!isProviding (s.accountData who)) = true
      · simp only [hnew]
        exact rfl
      · simp only [hnew, ↓reduceIte, checkedAdd, hle, pure_apply]
        exact ⟨rfl, by simp, .inl le_rfl⟩

theorem makeFreeBalanceBe_kept (hs : Clean ed s) (hed : ed ≤ balanceMax) (who : A) (value : Nat) :
    Kept ed s (makeFreeBalanceBe ed who value s) := by
  unfold makeFreeBalanceBe
  refine kept_recover hs (fun v => ⟨v, rfl, rfl, rfl⟩) (fun _ => ⟨_, rfl, rfl, rfl⟩) ?_
  apply tryMutateAccount_kept hs hed
  by_cases hnew : saturatingAdd value (s.accountData who).reserved < ed ∧
      (!isProviding (s.accountData who)) = true
  · simp only [hnew]
    exact rfl
  · simp only [hnew, ↓reduceIte, pure_apply]
    -- the account grows from `ed` on: a new one passed the check, an old one held `ed`
    have hgrow : (s.accountData who).free ≤ value → ed ≤ value + (s.accountData who).reserved := by
      intro hle
      cases hp : isProviding (s.accountData who)
      · have hd := isProviding_eq_false.mp hp
        simp only [hp, Bool.not_false, and_true, not_lt] at hnew
        rw [hd] at hnew ⊢
        simp only [saturatingAdd, AccountData.reserved_default] at hnew ⊢
        omega
      · have := hs.ed_le hp
        unfold AccountData.balance at this
        omega
    by_cases hle : (s.accountData who).free ≤ value
    · simp only [hle, ↓reduceIte]
      refine ⟨rfl, ?_, .inr ?_⟩ <;> simp only [AccountData.balance, positive_signed_positive,
        negative_signed_positive]
      · omega
      · exact hgrow hle
    · simp only [hle, ↓reduceIte]
      refine ⟨rfl, ?_, .inl ?_⟩ <;> simp only [AccountData.balance, positive_signed_negative,
        negative_signed_negative] <;> omega

theorem reserve_kept (hs : Clean ed s) (hed : ed ≤ balanceMax) (who : A) (value : Nat) :
    Kept ed s (reserve ed who value s) := by
  unfold reserve
  split_ifs with h0
  · exact hs.kept_self _ rfl rfl
  · apply tryMutateAccount_kept hs hed
    simp only [checkedSub, checkedAdd]
    by_cases hfree : value ≤ (s.accountData who).free
    · by_cases hres : (s.accountData who).reserved + value ≤ balanceMax
      · simp only [hfree, hres, ↓reduceIte, bind_apply, ensureCanWithdraw_apply]
        split_ifs
        · -- `value` moves from free to reserved
          refine ⟨rfl, ?_, .inl ?_⟩ <;> simp only [AccountData.balance, positive_unit, negative_unit] <;> omega
        · exact rfl
      · simp only [hfree, hres, ↓reduceIte]
        exact rfl
    · simp only [hfree, ↓reduceIte]
      exact rfl

theorem unreserve_kept (hs : Clean ed s) (hed : ed ≤ balanceMax) (who : A) (value : Nat) :
    Kept ed s (unreserve ed who value s) := by
  unfold unreserve
  split_ifs with h0
  · exact hs.kept_self _ rfl rfl
  · simp only [bind_apply, get_apply]
    split_ifs with ht
    · exact hs.kept_self _ rfl rfl
    · refine kept_recover hs (fun v => ⟨value - v, rfl, rfl, rfl⟩) (fun _ => ⟨value, rfl, rfl, rfl⟩) ?_
      unfold mutateAccount
      apply tryMutateAccount_kept hs hed
      -- the free balance does not saturate: the account is part of a `u128` issuance
      have hle := hs.balance_le who
      have hmax := hs.bounded
      unfold AccountData.balance at hle
      refine ⟨rfl, ?_, .inl ?_⟩ <;> simp only [AccountData.balance, saturatingAdd, positive_nat,
        negative_nat] <;> omega

end Operations

/-! ## The operations on two accounts

`transfer` and `do_transfer_reserved` run the mutation of the source inside
the closure of the mutation of the destination, and drop both dust cleaners
at the end.  They are proved with the rule `tryMutateAccountWithDust_sat`,
once for each mutation. -/

section Nested

variable {ed : Nat} {s : St A}

theorem kept_iff_sat [Held R] (r : EStateM.Result DispatchError (St A) R) :
    Kept ed s r ↔ Sat r (fun v s' => IssuanceBalanced s' (Held.positive v) (Held.negative v) ∧
      AboveExistential ed s' ∧ NoConsumers s') (fun _ s' => s' = s) := by
  cases r <;> rfl

/-- After moving `amount` from `src` to `dst` (two writes, the dust of `src`
dropped, none at `dst`), the books balance with nothing outstanding. -/
theorem Clean.moved (hs : Clean ed s) (hed : ed ≤ balanceMax) {src dst : A} (hne : dst ≠ src)
    (amount : Nat) {s₁ s₂ : St A} {a b : AccountData}
    (hw₁ : Written s s₁ src ((postMutation ed a).1.getD default))
    (hw₂ : Written s₁ s₂ dst ((postMutation ed b).1.getD default))
    (hsrc : a.balance + amount = (s.accountData src).balance)
    (hdst : b.balance = (s.accountData dst).balance + amount) (hb : ¬ b.total < ed) :
    let s' : St A := ⟨s₂.account,
      s₂.totalIssuance - (if a.total < ed then a.total else 0) - (if b.total < ed then b.total else 0)⟩
    IssuanceBalanced s' 0 0 ∧ AboveExistential ed s' ∧ NoConsumers s' := by
  have hpa := postMutation_balance ed hed a
  have hpb := postMutation_balance ed hed b
  have ht₁ := hw₁.total
  have ht₂ := hw₂.total
  -- the destination was not touched by the first write
  have hdst₁ : s₁.accountData dst = s.accountData dst := by
    simp only [St.accountData, St.get, hw₁.frame dst hne]
  rw [hdst₁] at ht₂
  have hbal := hs.balanced
  have hti : s₂.totalIssuance = s.totalIssuance := hw₂.totalIssuance.trans hw₁.totalIssuance
  have hex : AboveExistential ed s₂ :=
    (hs.existential.written hw₁ (postMutation_existential ed a)).written hw₂ (postMutation_existential ed b)
  refine ⟨?_, hex, hw₂.noConsumers⟩
  simp only [hb, ↓reduceIte] at hpb ⊢
  unfold IssuanceBalanced at hbal ⊢
  show _ - _ - 0 + 0 = accountsTotal s₂ + 0
  omega

theorem transfer_sat (hs : Clean ed s) (hed : ed ≤ balanceMax) (transactor dest : A) (value : Nat)
    (existenceRequirement : ExistenceRequirement) :
    Sat (transfer ed transactor dest value existenceRequirement s)
      (fun _ s' => (IssuanceBalanced s' 0 0 ∧ AboveExistential ed s' ∧ NoConsumers s') ∧
        s'.totalIssuance ≤ s.totalIssuance)
      (fun _ s' => s' = s) := by
  unfold transfer
  split_ifs with h
  · exact ⟨⟨hs.balanced, hs.existential, hs.noConsumers⟩, le_refl _⟩
  · rw [not_or] at h
    obtain ⟨hv, hne⟩ := h
    rw [sat_bind]
    -- the mutation of `dest`, whose closure runs the mutation of `transactor`
    apply tryMutateAccountWithDust_sat ed
    rw [sat_bind]
    apply tryMutateAccountWithDust_sat ed
    -- the closure on `transactor`: its checks fail without a write, or it
    -- returns both accounts
    simp only [checkedSub, checkedAdd]
    by_cases h₁ : value ≤ (s.accountData transactor).free
    swap
    · simp only [h₁, ↓reduceIte]
      exact rfl
    by_cases h₂ : (s.accountData dest).free + value ≤ balanceMax
    swap
    · simp only [h₁, h₂, ↓reduceIte]
      exact rfl
    simp only [h₁, h₂, ↓reduceIte]
    split_ifs with h₃
    · exact rfl
    · simp only [bind_apply, ensureCanWithdraw_apply, get_apply]
      split_ifs with h₄
      · dsimp only
        split_ifs with h₅
        · exact rfl
        · -- both checks passed: `transactor` is written, then `dest`
          refine ⟨rfl, hs.noConsumers, fun s₁ hw₁ => ?_⟩
          refine ⟨hw₁.frame dest (Ne.symm hne), hw₁.noConsumers, fun s₂ hw₂ => ?_⟩
          dsimp only at hw₁ hw₂
          simp only [dropValue, modify_apply, sat_ok, drop_prod, drop_dustCleaner, drop_postMutation]
          have hti : s₂.totalIssuance = s.totalIssuance := hw₂.totalIssuance.trans hw₁.totalIssuance
          refine ⟨hs.moved hed (Ne.symm hne) value hw₁ hw₂ (by simp only [AccountData.balance]; omega)
            (by simp only [AccountData.balance]; omega) h₃, ?_⟩
          show s₂.totalIssuance - _ - _ ≤ s.totalIssuance
          omega
      · exact rfl

theorem transfer_kept (hs : Clean ed s) (hed : ed ≤ balanceMax) (transactor dest : A) (value : Nat)
    (existenceRequirement : ExistenceRequirement) :
    Kept ed s (transfer ed transactor dest value existenceRequirement s) :=
  (kept_iff_sat _).mpr
    ((transfer_sat hs hed transactor dest value existenceRequirement).imp (fun _ _ h => h.1) (fun _ _ h => h))

theorem doTransferReserved_kept (hs : Clean ed s) (hed : ed ≤ balanceMax) (slashed beneficiary : A)
    (value : Nat) (bestEffort : Bool) (status : Status) :
    Kept ed s (doTransferReserved ed slashed beneficiary value bestEffort status s) := by
  unfold doTransferReserved
  split_ifs with h0 hself
  · exact hs.kept_self _ rfl rfl
  · -- to oneself: `unreserve`, or nothing
    cases status with
    | free => exact unreserve_kept hs hed slashed value
    | reserved =>
      simp only [bind_apply, get_apply, pure_apply]
      exact hs.kept_self _ rfl rfl
  · rw [kept_iff_sat, sat_bind]
    apply tryMutateAccountWithDust_sat ed
    cases hp : isProviding (s.accountData beneficiary)
    · -- the beneficiary must exist
      exact rfl
    · have hedT := hs.ed_le hp
      simp only [Bool.not_true, Bool.false_eq_true, ↓reduceIte]
      rw [sat_bind]
      apply tryMutateAccountWithDust_sat ed
      -- the closure on `slashed`: what it takes is what `beneficiary` gets
      have hsrc : ({ s.accountData slashed with
          reserved := (s.accountData slashed).reserved - min (s.accountData slashed).reserved value } :
          AccountData).balance + min (s.accountData slashed).reserved value = (s.accountData slashed).balance := by
        simp only [AccountData.balance]
        omega
      have hgrow : ∀ b : AccountData, b.balance = (s.accountData beneficiary).balance +
          min (s.accountData slashed).reserved value → ¬ b.total < ed := by
        intro b hb
        have := AccountData.total_eq_balance (d := b)
        unfold AccountData.total saturatingAdd at this ⊢
        unfold AccountData.balance at hb hedT this
        omega
      split_ifs with hbest
      · exact rfl
      · cases status with
        | free =>
          simp only [checkedAdd]
          by_cases hadd : (s.accountData beneficiary).free + min (s.accountData slashed).reserved value ≤ balanceMax
          swap
          · simp only [hadd, ↓reduceIte]
            exact rfl
          simp only [hadd, ↓reduceIte, bind_apply, pure_apply]
          refine ⟨rfl, hs.noConsumers, fun s₁ hw₁ => ?_⟩
          refine ⟨hw₁.frame beneficiary (Ne.symm hself), hw₁.noConsumers, fun s₂ hw₂ => ?_⟩
          dsimp only at hw₁ hw₂
          simp only [dropValue, modify_apply, sat_ok, drop_prod, drop_dustCleaner, drop_postMutation,
            positive_nat, negative_nat]
          have hdst : ({ s.accountData beneficiary with
              free := (s.accountData beneficiary).free + min (s.accountData slashed).reserved value } :
              AccountData).balance = (s.accountData beneficiary).balance + min (s.accountData slashed).reserved value := by
            simp only [AccountData.balance]
            omega
          exact hs.moved hed (Ne.symm hself) _ hw₁ hw₂ hsrc hdst (hgrow _ hdst)
        | reserved =>
          simp only [checkedAdd]
          by_cases hadd : (s.accountData beneficiary).reserved + min (s.accountData slashed).reserved value ≤ balanceMax
          swap
          · simp only [hadd, ↓reduceIte]
            exact rfl
          simp only [hadd, ↓reduceIte, bind_apply, pure_apply]
          refine ⟨rfl, hs.noConsumers, fun s₁ hw₁ => ?_⟩
          refine ⟨hw₁.frame beneficiary (Ne.symm hself), hw₁.noConsumers, fun s₂ hw₂ => ?_⟩
          dsimp only at hw₁ hw₂
          simp only [dropValue, modify_apply, sat_ok, drop_prod, drop_dustCleaner, drop_postMutation,
            positive_nat, negative_nat]
          have hdst : ({ s.accountData beneficiary with
              reserved := (s.accountData beneficiary).reserved + min (s.accountData slashed).reserved value } :
              AccountData).balance = (s.accountData beneficiary).balance + min (s.accountData slashed).reserved value := by
            simp only [AccountData.balance]
            omega
          exact hs.moved hed (Ne.symm hself) _ hw₁ hw₂ hsrc hdst (hgrow _ hdst)

theorem repatriateReserved_kept (hs : Clean ed s) (hed : ed ≤ balanceMax) (slashed beneficiary : A)
    (value : Nat) (status : Status) :
    Kept ed s (repatriateReserved ed slashed beneficiary value status s) := by
  unfold repatriateReserved
  rw [kept_iff_sat, sat_bind]
  -- what could not be moved holds nothing, as what was moved did not
  exact ((kept_iff_sat _).mp (doTransferReserved_kept hs hed slashed beneficiary value true status)).imp
    (fun _ _ h => h) (fun _ _ h => h)

end Nested

end PalletBalances
