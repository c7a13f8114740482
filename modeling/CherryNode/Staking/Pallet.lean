import CherryNode.Staking.Ledger
import CherryNode.Support.Dispatch
import CherryNode.Lib.EStateRun
import CherryNode.Lib.Run
import CherryNode.Lib.IntType

/-!
# pallet-staking: the calls that move a ledger's funds

`bond_extra`, `unbond`, `withdraw_unbonded`, `rebond` and `do_slash`, over
`Bonded` and `Ledger` and what they read: `CurrentEra`, the nominator and
validator sets, and the spans `kill_stash` clears.  Each call checks before it
writes, so an `Err` leaves the storage (`*_sat`) and an `Ok` stores good
ledgers: from ledgers with all funds active, every run with `CurrentEra`
non-decreasing keeps every ledger good (`ledgers_stay_consistent`).

`T::Currency` is the stash's free balance and the existential deposit.  Locks,
events, the voter list and `Payee` are never read here and are left out;
`MinNominatorBond` and `MinValidatorBond` are fixed over a run.
-/

namespace PalletStaking

open Frame EStateRun

/-- The constants the calls read. -/
structure Config where
  bondingDuration : Nat
  minimumBalance : Nat
  minNominatorBond : Nat
  minValidatorBond : Nat

/-- `Error<T>`, as far as these calls return it. -/
inductive Error
  | notStash
  | notController
  | insufficientBond
  | noMoreChunks
  | noUnlockChunk
  | incorrectSlashingSpans
  | alreadyBonded
  | alreadyPaired
  | badState
  | invalidEraToReward
  | alreadyClaimed
  deriving DecidableEq, Repr

/-- The staking storage these calls read and write; `slashingSpans` is the
number of spans of `SlashingSpans[stash]`. -/
structure St (Acc : Type) where
  bonded : Acc → Option Acc
  ledger : Acc → Option (StakingLedger Acc)
  currentEra : Option Nat
  nominators : Acc → Bool
  validators : Acc → Bool
  slashingSpans : Acc → Option Nat

variable {Acc : Type} [DecidableEq Acc]
variable {s : St Acc} {l : StakingLedger Acc}

/-- `Ledger::insert`. -/
def St.setLedger (s : St Acc) (controller : Acc) (l : StakingLedger Acc) : St Acc :=
  { s with ledger := Function.update s.ledger controller (some l) }

@[simp] theorem St.setLedger_ledger (s : St Acc) (c : Acc) (l : StakingLedger Acc) :
    (s.setLedger c l).ledger = Function.update s.ledger c (some l) := rfl

@[simp] theorem St.setLedger_bonded (s : St Acc) (c : Acc) (l : StakingLedger Acc) :
    (s.setLedger c l).bonded = s.bonded := rfl

abbrev M (Acc : Type) := Call (St Acc) Error

section Calls

variable (cfg : Config)

/-- `update_ledger`: the lock is set to `total` and the ledger stored. -/
def updateLedger (controller : Acc) (ledger : StakingLedger Acc) : M Acc Unit :=
  modify (·.setLedger controller ledger)

/-- `bond_extra`: up to `max_additional` of the stash's free balance not yet
bonded is bonded; `stashBalance` is the free balance at the call. -/
def bondExtra (origin : Origin Acc) (maxAdditional stashBalance : Nat) : M Acc Unit := do
  let stash ← ensureSigned origin
  let s ← get
  let controller ← okOr (s.bonded stash) .notStash
  let ledger ← okOr (s.ledger controller) .notController
  -- `stash_balance.checked_sub(&ledger.total)`
  if ledger.total ≤ stashBalance then
    let extra := min (stashBalance - ledger.total) maxAdditional
    let ledger := { ledger with total := ledger.total + extra, active := ledger.active + extra }
    ensure (ledger.active ≥ cfg.minimumBalance) .insufficientBond
    updateLedger controller ledger

/-- `unbond`: a new chunk of at most `active`, and of all of it if the rest
would be dust, unlocking `BondingDuration` eras after the current one. -/
def unbond (origin : Origin Acc) (value : Nat) : M Acc Unit := do
  let controller ← ensureSigned origin
  let s ← get
  let ledger ← okOr (s.ledger controller) .notController
  ensure (ledger.unlocking.length < maxUnlockingChunks) .noMoreChunks
  let value := min value ledger.active
  if value ≠ 0 then
    let active := ledger.active - value
    let (value, active) := if active < cfg.minimumBalance then (value + active, 0) else (value, active)
    let minActiveBond :=
      if s.nominators ledger.stash then cfg.minNominatorBond
      else if s.validators ledger.stash then cfg.minValidatorBond
      else 0
    ensure (active ≥ minActiveBond) .insufficientBond
    -- `EraIndex` is `u32`: the sum wraps
    let era := U32.wrappingAdd (s.currentEra.getD 0) cfg.bondingDuration
    updateLedger controller { ledger with active, unlocking := ledger.unlocking ++ [⟨value, era⟩] }

/-- `slashing::clear_stash_metadata`: the spans given must cover the stash's. -/
def clearStashMetadata (stash : Acc) (numSlashingSpans : Nat) : M Acc Unit := do
  match (← get).slashingSpans stash with
  | none => pure ()
  | some spans => do
    ensure (numSlashingSpans ≥ spans) .incorrectSlashingSpans
    modify fun s => { s with slashingSpans := Function.update s.slashingSpans stash none }

/-- `kill_stash`: the stash's bond, ledger and roles are removed. -/
def killStash (stash : Acc) (numSlashingSpans : Nat) : M Acc Unit := do
  let controller ← okOr ((← get).bonded stash) .notStash
  clearStashMetadata stash numSlashingSpans
  modify fun s => { s with
    bonded := Function.update s.bonded stash none
    ledger := Function.update s.ledger controller none
    nominators := Function.update s.nominators stash false
    validators := Function.update s.validators stash false }

/-- `withdraw_unbonded`: the matured chunks leave the ledger; a ledger left
with no chunks and a dust `active` is removed with its stash. -/
def withdrawUnbonded (origin : Origin Acc) (numSlashingSpans : Nat) : M Acc Unit := do
  let controller ← ensureSigned origin
  let s ← get
  let ledger ← okOr (s.ledger controller) .notController
  let ledger := match s.currentEra with
    | some currentEra => ledger.consolidateUnlocked currentEra
    | none => ledger
  if ledger.unlocking.isEmpty ∧ ledger.active < cfg.minimumBalance then
    killStash ledger.stash numSlashingSpans
  else
    updateLedger controller ledger

/-- `rebond`: chunks taken back into `active`, newest first. -/
def rebond (origin : Origin Acc) (value : Nat) : M Acc Unit := do
  let controller ← ensureSigned origin
  let ledger ← okOr ((← get).ledger controller) .notController
  ensure (¬ ledger.unlocking.isEmpty) .noUnlockChunk
  let (ledger, _) := ledger.rebond value
  ensure (ledger.active ≥ cfg.minimumBalance) .insufficientBond
  updateLedger controller ledger

/-- `slashing::do_slash`: the stash's ledger is slashed and stored if anything
was slashed.  The currency slash and the reward payout are not modelled. -/
def doSlash (stash : Acc) (value : Nat) (s : St Acc) : St Acc :=
  match s.bonded stash with
  | none => s
  | some controller =>
    match s.ledger controller with
    | none => s
    | some ledger =>
      let (ledger, value) := ledger.slash value cfg.minimumBalance
      if value ≠ 0 then s.setLedger controller ledger else s

end Calls

/-- A call, or `CurrentEra` set by the era rotation. -/
inductive Op (Acc : Type)
  | bondExtra (origin : Origin Acc) (maxAdditional stashBalance : Nat)
  | unbond (origin : Origin Acc) (value : Nat)
  | withdrawUnbonded (origin : Origin Acc) (numSlashingSpans : Nat)
  | rebond (origin : Origin Acc) (value : Nat)
  | doSlash (stash : Acc) (value : Nat)
  | setCurrentEra (era : Nat)

/-- The storage after one step. -/
def Op.apply (cfg : Config) (s : St Acc) : Op Acc → St Acc
  | .bondExtra origin maxAdditional stashBalance =>
    applyCall (PalletStaking.bondExtra cfg origin maxAdditional stashBalance) s
  | .unbond origin value => applyCall (PalletStaking.unbond cfg origin value) s
  | .withdrawUnbonded origin numSlashingSpans =>
    applyCall (PalletStaking.withdrawUnbonded cfg origin numSlashingSpans) s
  | .rebond origin value => applyCall (PalletStaking.rebond cfg origin value) s
  | .doSlash stash value => PalletStaking.doSlash cfg stash value s
  | .setCurrentEra era => { s with currentEra := some era }

omit [DecidableEq Acc] in
/-- `CurrentEra` never decreases. -/
def EraMonotone : St Acc → Op Acc → Prop
  | s, .setCurrentEra era => ∀ c ∈ s.currentEra, c ≤ era
  | _, _ => True

omit [DecidableEq Acc] in
instance instDecidableEraMonotone : ∀ (s : St Acc) (op : Op Acc), Decidable (EraMonotone s op)
  | s, .setCurrentEra era => inferInstanceAs (Decidable (∀ c ∈ s.currentEra, c ≤ era))
  | _, .bondExtra .. => inferInstanceAs (Decidable True)
  | _, .unbond .. => inferInstanceAs (Decidable True)
  | _, .withdrawUnbonded .. => inferInstanceAs (Decidable True)
  | _, .rebond .. => inferInstanceAs (Decidable True)
  | _, .doSlash .. => inferInstanceAs (Decidable True)

/-- No `unbond` computes an era past `u32::MAX`. -/
def UnbondEraFits (cfg : Config) : St Acc → Op Acc → Prop
  | s, .unbond .. => s.currentEra.getD 0 + cfg.bondingDuration < 2 ^ 32
  | _, _ => True

omit [DecidableEq Acc] in
instance instDecidableUnbondEraFits (cfg : Config) : ∀ (s : St Acc) (op : Op Acc), Decidable (UnbondEraFits cfg s op)
  | s, .unbond .. => inferInstanceAs (Decidable (s.currentEra.getD 0 + cfg.bondingDuration < 2 ^ 32))
  | _, .setCurrentEra .. => inferInstanceAs (Decidable True)
  | _, .bondExtra .. => inferInstanceAs (Decidable True)
  | _, .withdrawUnbonded .. => inferInstanceAs (Decidable True)
  | _, .rebond .. => inferInstanceAs (Decidable True)
  | _, .doSlash .. => inferInstanceAs (Decidable True)

/-! ## Every stored ledger stays good -/

section Invariant

variable {cfg : Config}

/-- Every stored ledger is good, a chunk unbonded now getting the bound as its era. -/
def Inv (cfg : Config) (s : St Acc) : Prop :=
  ∀ c l, s.ledger c = some l → LedgerOk (s.currentEra.getD 0 + cfg.bondingDuration) l

theorem Inv.setLedger (hs : Inv cfg s) {c : Acc}
    (hl : LedgerOk (s.currentEra.getD 0 + cfg.bondingDuration) l) : Inv cfg (s.setLedger c l) := by
  intro c' l' h
  by_cases hc : c' = c
  · subst hc
    simp only [St.setLedger_ledger, Function.update_self, Option.some.injEq] at h
    exact h ▸ hl
  · rw [St.setLedger_ledger, Function.update_of_ne hc] at h
    exact hs c' l' h

omit [DecidableEq Acc] in
theorem LedgerOk.bondExtra {b : Nat} (h : LedgerOk b l) (extra : Nat) :
    LedgerOk b { l with total := l.total + extra, active := l.active + extra } :=
  ⟨by simp only; rw [h.total_eq]; omega, h.value_pos, h.eras_sorted, h.length_le, h.era_le⟩

omit [DecidableEq Acc] in
/-- `unbond`'s ledger: a positive chunk at the bound, paid out of `active`. -/
theorem LedgerOk.push {b : Nat} (h : LedgerOk b l)
    (hlen : l.unlocking.length < maxUnlockingChunks) {active value : Nat} (hsum : active + value = l.active)
    (hv : 0 < value) : LedgerOk b { l with active, unlocking := l.unlocking ++ [⟨value, b⟩] } where
  total_eq := by
    simp only [chunkSum_append, chunkSum_cons, chunkSum_nil]
    rw [h.total_eq]
    omega
  value_pos := by
    intro c hc
    rcases List.mem_append.mp hc with hc | hc
    · exact h.value_pos c hc
    · rw [List.mem_singleton.mp hc]
      exact hv
  eras_sorted := by
    refine List.pairwise_append.mpr ⟨h.eras_sorted, List.pairwise_singleton _ _, ?_⟩
    intro a ha c hc
    rw [List.mem_singleton.mp hc]
    exact h.era_le a ha
  length_le := by
    simp only [List.length_append, List.length_singleton]
    omega
  era_le := by
    intro c hc
    rcases List.mem_append.mp hc with hc | hc
    · exact h.era_le c hc
    · obtain rfl := List.mem_singleton.mp hc
      exact Nat.le_refl _

theorem unbond_sat (hs : Inv cfg s) (hfits : s.currentEra.getD 0 + cfg.bondingDuration < 2 ^ 32)
    (origin : Origin Acc) (value : Nat) :
    Sat (PalletStaking.unbond cfg origin value s) (fun _ s' => Inv cfg s') (fun _ s' => s' = s) := by
  cases origin with
  | root => simp [PalletStaking.unbond]
  | none => simp [PalletStaking.unbond]
  | signed controller =>
    cases hl : s.ledger controller with
    | none => simp [PalletStaking.unbond, hl]
    | some ledger =>
      have hok := hs controller ledger hl
      simp only [PalletStaking.unbond, U32.wrappingAdd_of_lt hfits, updateLedger, sat_bind, ensureSigned_signed,
        Frame.get_apply, hl, okOr_some,
        ensure_apply, sat_ok, sat_if, sat_ite, Frame.modify_apply, Frame.pure_apply, sat_error, implies_true,
        and_true]
      -- with a new chunk: `value`, and the dust rule
      refine fun hlen => ⟨fun hv _ => hs.setLedger (hok.push hlen ?_ ?_), fun _ => hs⟩
      · split_ifs <;> simp only <;> omega
      · split_ifs <;> simp only <;> omega

theorem bondExtra_sat (hs : Inv cfg s) (origin : Origin Acc) (maxAdditional stashBalance : Nat) :
    Sat (PalletStaking.bondExtra cfg origin maxAdditional stashBalance s) (fun _ s' => Inv cfg s')
      (fun _ s' => s' = s) := by
  cases origin with
  | root => simp [PalletStaking.bondExtra]
  | none => simp [PalletStaking.bondExtra]
  | signed stash =>
    cases hb : s.bonded stash with
    | none => simp [PalletStaking.bondExtra, hb]
    | some controller =>
      cases hl : s.ledger controller with
      | none => simp [PalletStaking.bondExtra, hb, hl]
      | some ledger =>
        simp only [PalletStaking.bondExtra, updateLedger, sat_bind, ensureSigned_signed, Frame.get_apply, hb, hl,
          okOr_some, ensure_apply, sat_ok, sat_if, sat_ite, Frame.modify_apply, Frame.pure_apply, sat_error,
          implies_true, and_true]
        exact ⟨fun _ _ => hs.setLedger ((hs controller ledger hl).bondExtra _), fun _ => hs⟩

theorem rebond_sat (hs : Inv cfg s) (origin : Origin Acc) (value : Nat) :
    Sat (PalletStaking.rebond cfg origin value s) (fun _ s' => Inv cfg s') (fun _ s' => s' = s) := by
  cases origin with
  | root => simp [PalletStaking.rebond]
  | none => simp [PalletStaking.rebond]
  | signed controller =>
    cases hl : s.ledger controller with
    | none => simp [PalletStaking.rebond, hl]
    | some ledger =>
      simp only [PalletStaking.rebond, updateLedger, sat_bind, ensureSigned_signed, Frame.get_apply, hl,
        okOr_some, ensure_apply, sat_ok, sat_if, Frame.modify_apply, sat_error, implies_true, and_true]
      exact fun _ _ => hs.setLedger (StakingLedger.rebond_ok (hs controller ledger hl) value)

theorem killStash_sat (hs : Inv cfg s) (stash : Acc) (numSlashingSpans : Nat) :
    Sat (killStash stash numSlashingSpans s) (fun _ s' => Inv cfg s') (fun _ s' => s' = s) := by
  cases hb : s.bonded stash with
  | none => simp [killStash, hb]
  | some controller =>
    -- the ledgers left are ledgers of `s`, and `CurrentEra` is as it was
    have hkill : ∀ s' : St Acc, s'.ledger = s.ledger → s'.currentEra = s.currentEra →
        Inv cfg { s' with ledger := Function.update s'.ledger controller none } := by
      intro s' hledger hera c l hc
      dsimp only at hc ⊢
      by_cases hcc : c = controller
      · subst hcc
        simp at hc
      · rw [Function.update_of_ne hcc, hledger] at hc
        rw [hera]
        exact hs c l hc
    cases hspans : s.slashingSpans stash with
    | none =>
      simp only [killStash, clearStashMetadata, sat_bind, Frame.get_apply, hb, okOr_some, hspans, sat_ok,
        Frame.pure_apply, Frame.modify_apply]
      exact hkill s rfl rfl
    | some spans =>
      simp only [killStash, clearStashMetadata, sat_bind, Frame.get_apply, hb, okOr_some, hspans, sat_ok,
        ensure_apply, sat_if, Frame.modify_apply, sat_error, implies_true, and_true]
      exact fun _ => hkill _ rfl rfl

theorem withdrawUnbonded_sat (hs : Inv cfg s) (origin : Origin Acc) (numSlashingSpans : Nat) :
    Sat (PalletStaking.withdrawUnbonded cfg origin numSlashingSpans s) (fun _ s' => Inv cfg s')
      (fun _ s' => s' = s) := by
  cases origin with
  | root => simp [PalletStaking.withdrawUnbonded]
  | none => simp [PalletStaking.withdrawUnbonded]
  | signed controller =>
    cases hl : s.ledger controller with
    | none => simp [PalletStaking.withdrawUnbonded, hl]
    | some ledger =>
      have hok := hs controller ledger hl
      cases he : s.currentEra with
      | none =>
        simp only [PalletStaking.withdrawUnbonded, updateLedger, sat_bind, ensureSigned_signed, Frame.get_apply,
          hl, okOr_some, he, sat_ok, sat_ite, Frame.modify_apply]
        exact ⟨fun _ => killStash_sat hs _ _, fun _ => hs.setLedger hok⟩
      | some currentEra =>
        simp only [PalletStaking.withdrawUnbonded, updateLedger, sat_bind, ensureSigned_signed, Frame.get_apply,
          hl, okOr_some, he, sat_ok, sat_ite, Frame.modify_apply]
        have hok' := StakingLedger.consolidateUnlocked_ok hok currentEra
        exact ⟨fun _ => killStash_sat hs _ _, fun _ => hs.setLedger hok'⟩

theorem doSlash_inv (hs : Inv cfg s) (stash : Acc) (value : Nat) :
    Inv cfg (PalletStaking.doSlash cfg stash value s) := by
  cases hb : s.bonded stash with
  | none => simpa [PalletStaking.doSlash, hb] using hs
  | some controller =>
    cases hl : s.ledger controller with
    | none => simpa [PalletStaking.doSlash, hb, hl] using hs
    | some ledger =>
      simp only [PalletStaking.doSlash, hb, hl]
      split_ifs
      · exact hs.setLedger (StakingLedger.slash_ok (hs controller ledger hl) value cfg.minimumBalance)
      · exact hs

omit [DecidableEq Acc] in
/-- A later `CurrentEra` only raises the bound. -/
theorem setCurrentEra_inv (hs : Inv cfg s) {era : Nat} (hera : ∀ c ∈ s.currentEra, c ≤ era) :
    Inv cfg { s with currentEra := some era } := by
  intro c l hc
  have hle : s.currentEra.getD 0 ≤ era := by
    cases he : s.currentEra with
    | none => exact Nat.zero_le _
    | some c => exact hera c he
  exact (hs c l hc).mono (by simp only [Option.getD_some]; omega)

/-- **Step.**  Every call whose era fits in `u32`, and a `CurrentEra` that
does not decrease, keeps every stored ledger good. -/
theorem Op.apply_inv (hs : Inv cfg s) (op : Op Acc) (hop : EraMonotone s op ∧ UnbondEraFits cfg s op) :
    Inv cfg (op.apply cfg s) := by
  cases op with
  | bondExtra origin maxAdditional stashBalance =>
    exact applyCall_of_sat hs (bondExtra_sat hs origin maxAdditional stashBalance)
  | unbond origin value => exact applyCall_of_sat hs (unbond_sat hs hop.2 origin value)
  | withdrawUnbonded origin numSlashingSpans =>
    exact applyCall_of_sat hs (withdrawUnbonded_sat hs origin numSlashingSpans)
  | rebond origin value => exact applyCall_of_sat hs (rebond_sat hs origin value)
  | doSlash stash value => exact doSlash_inv hs stash value
  | setCurrentEra era => exact setCurrentEra_inv hs hop.1

end Invariant

/-- **Run.**  From ledgers with all funds active, every run in which
`CurrentEra` never decreases and no unbonding era passes `u32::MAX` keeps every
stored ledger good. -/
theorem ledgers_stay_consistent (cfg : Config) (s₀ : St Acc) (ops : List (Op Acc))
    (h₀ : ∀ c l, s₀.ledger c = some l → l.total = l.active ∧ l.unlocking = [])
    (heras : StepRun.Guarded (Op.apply cfg) (fun s op => EraMonotone s op ∧ UnbondEraFits cfg s op) s₀ ops) :
    ∀ c l, (ops.foldl (Op.apply cfg) s₀).ledger c = some l →
      l.total = l.active + (l.unlocking.map (·.value)).sum ∧ (∀ chunk ∈ l.unlocking, 0 < chunk.value) ∧
        l.unlocking.Pairwise (fun a b => a.era ≤ b.era) ∧ l.unlocking.length ≤ maxUnlockingChunks := by
  -- a ledger with no chunks is good for any bound
  have hinit : Inv cfg s₀ := by
    intro c l hc
    obtain ⟨htotal, hchunks⟩ := h₀ c l hc
    exact ⟨by rw [hchunks, htotal]; rfl, by simp [hchunks], by simp [hchunks], by simp [hchunks],
      by simp [hchunks]⟩
  have hrun := StepRun.foldl_invariant (Inv cfg) _ (fun s op hs hop => Op.apply_inv hs op hop) ops s₀ hinit heras
  intro c l hc
  have hok := hrun c l hc
  exact ⟨hok.total_eq, hok.value_pos, hok.eras_sorted, hok.length_le⟩


/-- An existential deposit of 5, a bonding duration of 3, no minimum bonds. -/
def smallConfig : Config := ⟨3, 5, 0, 0⟩

/-- Stash 1 bonded to controller 2 with 100 active, in era 0. -/
def bondedOnce : St Nat :=
  ⟨fun a => if a = 1 then some 2 else none, fun c => if c = 2 then some ⟨1, 100, 100, [], []⟩ else none, some 0,
    fun _ => false, fun _ => false, fun _ => none⟩

/-- Two chunks unbonded, a slash that takes `active`, the older chunk as dust
and none of the newer, a partial rebond, the withdrawal of the last chunk and
a top-up. -/
def unbondSlashRebond : List (Op Nat) :=
  [.unbond (.signed 2) 30, .setCurrentEra 1, .unbond (.signed 2) 20, .doSlash 1 75, .rebond (.signed 2) 5,
    .setCurrentEra 4, .withdrawUnbonded (.signed 2) 0, .bondExtra (.signed 1) 10 200]

theorem ledgers_stay_consistent_unbondSlashRebond :
    (∀ c l, bondedOnce.ledger c = some l → l.total = l.active ∧ l.unlocking = []) ∧
      StepRun.Guarded (Op.apply smallConfig) (fun s op => EraMonotone s op ∧ UnbondEraFits smallConfig s op)
        bondedOnce unbondSlashRebond ∧
      ∀ c l, (unbondSlashRebond.foldl (Op.apply smallConfig) bondedOnce).ledger c = some l →
        l.total = l.active + (l.unlocking.map (·.value)).sum ∧ (∀ chunk ∈ l.unlocking, 0 < chunk.value) ∧
          l.unlocking.Pairwise (fun a b => a.era ≤ b.era) ∧ l.unlocking.length ≤ maxUnlockingChunks := by
  have h₀ : ∀ c l, bondedOnce.ledger c = some l → l.total = l.active ∧ l.unlocking = [] := by
    intro c l h
    simp only [bondedOnce] at h
    split_ifs at h
    cases h
    exact ⟨rfl, rfl⟩
  have heras : StepRun.Guarded (Op.apply smallConfig) (fun s op => EraMonotone s op ∧ UnbondEraFits smallConfig s op)
      bondedOnce unbondSlashRebond := by decide
  exact ⟨h₀, heras, ledgers_stay_consistent smallConfig bondedOnce unbondSlashRebond h₀ heras⟩

/-- The run ends with the slashed, rebonded, withdrawn and topped-up ledger. -/
example : (unbondSlashRebond.foldl (Op.apply smallConfig) bondedOnce).ledger 2 = some ⟨1, 15, 15, [], []⟩ := by
  decide

/-- Two unbonds late in the `u32` eras: `CurrentEra` only grows, but the second
chunk's era `u32::MAX - 2 + 3` wraps to `0`, below the first chunk's. -/
def eraWrapRun : List (Op Nat) :=
  [.setCurrentEra (2 ^ 32 - 4), .unbond (.signed 2) 10, .setCurrentEra (2 ^ 32 - 3), .unbond (.signed 2) 10]

theorem unbond_era_wraps :
    StepRun.Guarded (Op.apply smallConfig) EraMonotone bondedOnce eraWrapRun ∧
      ((eraWrapRun.foldl (Op.apply smallConfig) bondedOnce).ledger 2).map (fun l => l.unlocking.map (·.era)) =
        some [2 ^ 32 - 1, 0] := by
  constructor
  · decide
  · decide

end PalletStaking
