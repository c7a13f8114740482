import CherryNode.Balances.Issuance

/-!
# The `AccountStore` when it reaps on demand

`frame_system` refuses to reap an account only while it has consumers.  Over
states where no stored account has any (`NoConsumers`), every write of
`try_mutate_exists` goes through, and a mutation has a closed form: the
closure's account, through `post_mutation`, is stored or removed, the other
accounts are as the closure left them, and the dust is what `post_mutation`
cut off (`tryMutateAccountWithDust_ok`).  `Written s s' who d` is that form as
`TotalIssuance`, the counters and `accountsTotal` see it; `post_mutation`
splits `AccountData.balance` between the data and the dust
(`postMutation_balance`).
-/

namespace PalletBalances

open EStateRun

variable {A : Type} [LinearOrder A]
variable {e : DispatchError} {s s₁ : St A} {R : Type} {who : A} {d : AccountData}

/-- `free + reserved`: what an account adds to `accountsTotal`. -/
def AccountData.balance (d : AccountData) : Nat := d.free + d.reserved

@[simp] theorem AccountData.balance_default : (default : AccountData).balance = 0 := rfl

@[simp] theorem AccountData.free_default : (default : AccountData).free = 0 := rfl

@[simp] theorem AccountData.reserved_default : (default : AccountData).reserved = 0 := rfl

theorem AccountData.total_le_balance (d : AccountData) : d.total ≤ d.balance := by
  unfold AccountData.total saturatingAdd AccountData.balance
  omega

theorem AccountData.total_eq_balance (h : d.total < balanceMax) : d.total = d.balance := by
  unfold AccountData.total saturatingAdd at *
  unfold AccountData.balance
  omega

theorem isProviding_eq_false : isProviding d = false ↔ d = default := by
  simp [isProviding]

/-- No stored account has consumers: `dec_providers` never refuses. -/
def NoConsumers (s : St A) : Prop :=
  ∀ who info, s.account.get? who = some info → info.consumers = 0

instance (s : St A) : Decidable (NoConsumers s) :=
  decidable_of_iff' _ (s.account.forall_get?_iff fun _ info => info.consumers = 0)

/-! ## `accountsTotal` after a write -/

theorem accountsTotal_def (s : St A) :
    accountsTotal s = (s.account.toList.map fun e => (fun i : AccountInfo => i.data.balance) e.2).sum :=
  rfl

theorem getD_balance (s : St A) (who : A) :
    ((s.account.get? who).map fun i : AccountInfo => i.data.balance).getD 0 = (s.accountData who).balance := by
  unfold St.accountData St.get
  cases s.account.get? who <;> rfl

theorem accountsTotal_erase (s : St A) (t : Nat) (who : A) :
    accountsTotal (⟨s.account.erase who, t⟩ : St A) + (s.accountData who).balance = accountsTotal s := by
  have h := OrdMap.sum_values_erase s.account who fun i : AccountInfo => i.data.balance
  rw [getD_balance] at h
  rw [accountsTotal_def, accountsTotal_def]
  exact h

theorem accountsTotal_insert (s : St A) (t : Nat) (who : A) (info : AccountInfo) :
    accountsTotal (⟨s.account.insert who info, t⟩ : St A) + (s.accountData who).balance =
      accountsTotal s + info.data.balance := by
  have h := OrdMap.sum_values_erase s.account who fun i : AccountInfo => i.data.balance
  have hins := OrdMap.sum_values_insert s.account who info fun i : AccountInfo => i.data.balance
  rw [getD_balance] at h
  simp only [accountsTotal_def]
  omega

theorem balance_le_accountsTotal (s : St A) (who : A) : (s.accountData who).balance ≤ accountsTotal s := by
  have := accountsTotal_erase s 0 who
  omega

/-! ## Reads after a write -/

@[simp] theorem accountData_insert_self (s : St A) (t : Nat) (who : A) (info : AccountInfo) :
    St.accountData (⟨s.account.insert who info, t⟩ : St A) who = info.data := by
  simp [St.accountData, St.get]

@[simp] theorem accountData_erase_self (s : St A) (t : Nat) (who : A) :
    St.accountData (⟨s.account.erase who, t⟩ : St A) who = default := by
  simp [St.accountData, St.get]; rfl

theorem NoConsumers.get (h : NoConsumers s) (who : A) : (s.get who).consumers = 0 := by
  unfold St.get
  cases hw : s.account.get? who with
  | none => rfl
  | some info => exact h who info hw

variable {info : AccountInfo}

theorem NoConsumers.insert (h : NoConsumers s) (hc : info.consumers = 0)
    (t : Nat) (who : A) : NoConsumers (⟨s.account.insert who info, t⟩ : St A) := by
  intro k i hk
  rw [OrdMap.get?_insert] at hk
  split_ifs at hk
  · cases hk; exact hc
  · exact h k i hk

theorem NoConsumers.erase (h : NoConsumers s) (t : Nat) (who : A) :
    NoConsumers (⟨s.account.erase who, t⟩ : St A) := by
  intro k i hk
  rw [OrdMap.get?_erase] at hk
  split_ifs at hk
  exact h k i hk

/-! ## A write, as the books see it -/

/-- `s'` is `s` with the data of `who` replaced by `d`. -/
structure Written (s s' : St A) (who : A) (d : AccountData) : Prop where
  totalIssuance : s'.totalIssuance = s.totalIssuance
  noConsumers : NoConsumers s'
  frame : ∀ k, k ≠ who → s'.account.get? k = s.account.get? k
  data : s'.accountData who = d
  total : accountsTotal s' + (s.accountData who).balance = accountsTotal s + d.balance

theorem Written.insert (h : NoConsumers s) (who : A) (info : AccountInfo)
    (hc : info.consumers = 0) :
    Written s ⟨s.account.insert who info, s.totalIssuance⟩ who info.data where
  totalIssuance := rfl
  noConsumers := h.insert hc _ who
  frame _ hk := OrdMap.get?_insert_of_ne _ _ (Ne.symm hk)
  data := accountData_insert_self s _ who info
  total := accountsTotal_insert s _ who info

theorem Written.erase (h : NoConsumers s) (who : A) :
    Written s ⟨s.account.erase who, s.totalIssuance⟩ who default where
  totalIssuance := rfl
  noConsumers := h.erase _ who
  frame _ hk := by simp [Ne.symm hk]
  data := accountData_erase_self s _ who
  total := accountsTotal_erase s _ who

theorem Written.trans {s₁ s₂ s₃ : St A} {d₁ d₂ : AccountData} (h₁ : Written s₁ s₂ who d₁)
    (h₂ : Written s₂ s₃ who d₂) : Written s₁ s₃ who d₂ where
  totalIssuance := h₂.totalIssuance.trans h₁.totalIssuance
  noConsumers := h₂.noConsumers
  frame k hk := (h₂.frame k hk).trans (h₁.frame k hk)
  data := h₂.data
  total := by
    have h₁t := h₁.total
    have h₂t := h₂.total
    rw [h₁.data] at h₂t
    omega

theorem Written.refl (h : NoConsumers s) (who : A) : Written s s who (s.accountData who) where
  totalIssuance := rfl
  noConsumers := h
  frame _ _ := rfl
  data := rfl
  total := rfl

/-! ## The store's counters -/

theorem decProviders_of_noConsumers (hno : NoConsumers s)
    (h : s.account.get? who = some info) :
    decProviders who s = .ok .reaped ⟨s.account.erase who, s.totalIssuance⟩ ∨
    ∃ info', info'.data = info.data ∧ info'.consumers = 0 ∧
      decProviders who s = .ok .stillExists ⟨s.account.insert who info', s.totalIssuance⟩ := by
  have hc := hno who info h
  unfold decProviders
  simp only [bind_apply, get_apply, h]
  -- the branch that throws needs consumers
  split_ifs <;>
    first
      | exact .inl rfl
      | (refine .inr ⟨_, ?_, ?_, rfl⟩ <;> first | rfl | exact hc)
      | (exfalso; omega)
      | (exfalso; dsimp only at *; omega)

theorem incProviders_written (h : NoConsumers s) (who : A) :
    ∃ s', incProviders who s = .ok () s' ∧ Written s s' who (s.accountData who) := by
  refine ⟨_, rfl, ?_⟩
  dsimp only
  split
  · exact Written.insert h who _ (h.get who)
  · exact Written.insert h who _ (h.get who)

theorem writeData_written (h : NoConsumers s) (who : A) (d : Option AccountData) :
    ∃ s', writeData who d s = .ok () s' ∧ Written s s' who (d.getD default) :=
  ⟨_, rfl, Written.insert h who { s.get who with data := d.getD default } (h.get who)⟩

theorem tryMutateExists_ok [Drop R]
    {f : Option AccountData → M A (R × Option AccountData)} {r : R} {y : Option AccountData}
    (hf : f (if isProviding (s.accountData who) then some (s.accountData who) else none) s = .ok (r, y) s₁)
    (hwho : s₁.account.get? who = s.account.get? who) (hno : NoConsumers s₁) :
    ∃ s', tryMutateExists who f s = .ok r s' ∧ Written s₁ s' who (y.getD default) := by
  have hacc : s₁.accountData who = s.accountData who := by simp [St.accountData, St.get, hwho]
  unfold St.accountData at hf
  unfold tryMutateExists
  simp only [bind_apply, get_apply, hf]
  cases hp : isProviding (s.get who).data with
  | false =>
    cases y with
    | none =>
      -- nothing was stored and nothing is
      have hd : s₁.accountData who = default := by
        rw [hacc]; exact isProviding_eq_false.mp hp
      refine ⟨s₁, by simp, ?_⟩
      simpa [hd] using Written.refl hno who
    | some d =>
      obtain ⟨s₂, h₂, hw₂⟩ := incProviders_written hno who
      obtain ⟨s₃, h₃, hw₃⟩ := writeData_written hw₂.noConsumers who (some d)
      exact ⟨s₃, by simp [h₂, h₃], hw₂.trans hw₃⟩
  | true =>
    cases y with
    | none =>
      -- the account was stored: `dec_providers` reaps it or keeps it with default data
      obtain ⟨info, hinfo⟩ : ∃ info, s₁.account.get? who = some info := by
        cases hg : s₁.account.get? who with
        | some info => exact ⟨info, rfl⟩
        | none =>
          have : s₁.accountData who = default := by simp [St.accountData, St.get, hg]; rfl
          rw [hacc] at this
          unfold St.accountData at this
          simp [this, isProviding] at hp
      rcases decProviders_of_noConsumers hno hinfo with hdec | ⟨info', hdata, hc, hdec⟩
      · exact ⟨_, by simp [hdec], Written.erase hno who⟩
      · obtain ⟨s₃, h₃, hw₃⟩ := writeData_written (hno.insert hc s₁.totalIssuance who) who none
        refine ⟨s₃, by simp [hdec, h₃], ?_⟩
        have hd : info'.data = s₁.accountData who := by simp [St.accountData, St.get, hinfo, hdata]
        exact (hd ▸ Written.insert hno who info' hc).trans hw₃
    | some d =>
      obtain ⟨s₂, h₂, hw₂⟩ := writeData_written hno who (some d)
      exact ⟨s₂, by simp [h₂], hw₂⟩

theorem tryMutateExists_eq [Drop R]
    {f : Option AccountData → M A (R × Option AccountData)} {res : EStateM.Result DispatchError (St A) R}
    (h : tryMutateExists who f s = res) (r : R) (y : Option AccountData)
    (hf : f (if isProviding (s.accountData who) then some (s.accountData who) else none) s = .ok (r, y) s₁)
    (hwho : s₁.account.get? who = s.account.get? who) (hno : NoConsumers s₁) :
    ∃ s', res = .ok r s' ∧ Written s₁ s' who (y.getD default) := by
  obtain ⟨s', h', hw⟩ := tryMutateExists_ok hf hwho hno
  exact ⟨s', h.symm.trans h', hw⟩

theorem tryMutateExists_error [Drop R]
    {f : Option AccountData → M A (R × Option AccountData)}
    (hf : f (if isProviding (s.accountData who) then some (s.accountData who) else none) s = .error e s₁) :
    tryMutateExists who f s = .error e s₁ := by
  unfold St.accountData at hf
  unfold tryMutateExists
  simp only [bind_apply, get_apply, hf]

/-! ## `post_mutation` and the existential deposit -/

section PostMutation

variable (ed : Nat)

theorem drop_postMutation (a : AccountData) (t : Nat) :
    Drop.drop (postMutation ed a).2 t = t - if a.total < ed then a.total else 0 := by
  unfold postMutation
  split_ifs with h₁ h₂
  · simp [Drop.drop, h₂]
  · rfl
  · rfl

/-- What `post_mutation` keeps and what it cuts off make up the account. -/
theorem postMutation_balance (hed : ed ≤ balanceMax) (a : AccountData) :
    ((postMutation ed a).1.getD default).balance + (if a.total < ed then a.total else 0) = a.balance := by
  unfold postMutation
  split_ifs with h₁ h₂
  · -- below `ed`, hence below the maximum: `total` is the whole balance
    have := AccountData.total_eq_balance (lt_of_lt_of_le h₁ hed)
    simp only [Option.getD_none, AccountData.balance_default]
    omega
  · have := AccountData.total_eq_balance (lt_of_lt_of_le h₁ hed)
    simp only [Option.getD_none, AccountData.balance_default]
    omega
  · simp

theorem postMutation_existential (a : AccountData) :
    isProviding ((postMutation ed a).1.getD default) = true → ed ≤ ((postMutation ed a).1.getD default).balance := by
  unfold postMutation
  split_ifs with h₁
  · simp [isProviding]
  · simp [isProviding]
  · intro
    have := AccountData.total_le_balance a
    simp only [Option.getD_some]
    omega

/-! ## `try_mutate_account_with_dust` and `try_mutate_account` -/

section Mutate

variable {R : Type} [Drop R] {s s₁ : St A} {who : A} {g : AccountData → Bool → M A (R × AccountData)}

theorem mutate_closure_view {β : Type} (k : AccountData → Bool → β) (s : St A) (who : A) :
    k ((if isProviding (s.accountData who) then some (s.accountData who) else none).getD default)
      (if isProviding (s.accountData who) then some (s.accountData who) else none).isNone =
    k (s.accountData who) (!isProviding (s.accountData who)) := by
  cases hp : isProviding (s.accountData who)
  · simp [isProviding_eq_false.mp hp]
  · simp

variable {a : AccountData}

/-- When the store never refuses, the closure's account goes through
`post_mutation` into the store, and the cleaner holds the dust. -/
theorem tryMutateAccountWithDust_ok {r : R}
    (hg : g (s.accountData who) (!isProviding (s.accountData who)) s = .ok (r, a) s₁)
    (hwho : s₁.account.get? who = s.account.get? who) (hno : NoConsumers s₁) :
    ∃ s', tryMutateAccountWithDust ed who g s = .ok (r, ⟨(postMutation ed a).2.map (who, ·)⟩) s' ∧
      Written s₁ s' who ((postMutation ed a).1.getD default) := by
  have hclosure := mutate_closure_view (fun d isNew => g d isNew s) s who
  simp only [hg] at hclosure
  unfold tryMutateAccountWithDust
  rw [bind_apply]
  split
  next x s' heq =>
    obtain ⟨s'', hres, hw⟩ := tryMutateExists_eq heq
      (if (if isProviding (s.accountData who) then some (s.accountData who) else none).isNone then
        some a.free else none, (postMutation ed a).2, r) (postMutation ed a).1
      (by simp only [bind_apply, hclosure]; rfl) hwho hno
    cases hres
    exact ⟨_, rfl, hw⟩
  next e s' heq =>
    obtain ⟨s'', hres, _⟩ := tryMutateExists_eq heq
      (if (if isProviding (s.accountData who) then some (s.accountData who) else none).isNone then
        some a.free else none, (postMutation ed a).2, r) (postMutation ed a).1
      (by simp only [bind_apply, hclosure]; rfl) hwho hno
    cases hres

theorem tryMutateAccount_ok {r : R}
    (hg : g (s.accountData who) (!isProviding (s.accountData who)) s = .ok (r, a) s₁)
    (hwho : s₁.account.get? who = s.account.get? who) (hno : NoConsumers s₁) :
    ∃ s', tryMutateAccount ed who g s =
        .ok r ⟨s'.account, s'.totalIssuance - if a.total < ed then a.total else 0⟩ ∧
      Written s₁ s' who ((postMutation ed a).1.getD default) := by
  obtain ⟨s', h', hw⟩ := tryMutateAccountWithDust_ok ed hg hwho hno
  refine ⟨s', ?_, hw⟩
  unfold tryMutateAccount dropValue
  simp only [bind_apply, h', modify_apply, pure_apply, drop_dustCleaner, drop_postMutation]

theorem tryMutateAccountWithDust_error
    (hg : g (s.accountData who) (!isProviding (s.accountData who)) s = .error e s₁) :
    tryMutateAccountWithDust ed who g s = .error e s₁ := by
  have hclosure := mutate_closure_view (fun d isNew => g d isNew s) s who
  simp only [hg] at hclosure
  unfold tryMutateAccountWithDust
  rw [bind_apply, tryMutateExists_error ?_]
  simp only [bind_apply, hclosure]

theorem tryMutateAccount_error
    (hg : g (s.accountData who) (!isProviding (s.accountData who)) s = .error e s₁) :
    tryMutateAccount ed who g s = .error e s₁ := by
  unfold tryMutateAccount
  rw [bind_apply, tryMutateAccountWithDust_error ed hg]

theorem tryMutateAccountWithDust_sat {F : R × DustCleaner A → St A → Prop} {E : DispatchError → St A → Prop}
    (hg : Sat (g (s.accountData who) (!isProviding (s.accountData who)) s)
      (fun ra s₁ => s₁.account.get? who = s.account.get? who ∧ NoConsumers s₁ ∧
        ∀ s', Written s₁ s' who ((postMutation ed ra.2).1.getD default) →
          F (ra.1, ⟨(postMutation ed ra.2).2.map (who, ·)⟩) s')
      E) :
    Sat (tryMutateAccountWithDust ed who g s) F E := by
  cases hres : g (s.accountData who) (!isProviding (s.accountData who)) s with
  | ok ra s₁ =>
    rw [hres] at hg
    obtain ⟨r, a⟩ := ra
    obtain ⟨hwho, hno, hF⟩ := hg
    obtain ⟨s', h', hw⟩ := tryMutateAccountWithDust_ok ed hres hwho hno
    rw [h']
    exact hF s' hw
  | error e s₁ =>
    rw [hres] at hg
    rw [tryMutateAccountWithDust_error ed hres]
    exact hg

end Mutate

end PostMutation

theorem AboveExistential.written {ed : Nat} {s s' : St A} (h : AboveExistential ed s)
    (hw : Written s s' who d) (hd : isProviding d = true → ed ≤ d.balance) : AboveExistential ed s' := by
  intro k info hk hp
  by_cases hkw : k = who
  · subst hkw
    have hdata := hw.data
    simp only [St.accountData, St.get, hk, Option.getD_some] at hdata
    subst hdata
    exact hd hp
  · rw [hw.frame k hkw] at hk
    exact h k info hk hp

end PalletBalances
