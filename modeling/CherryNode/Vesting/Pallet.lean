import CherryNode.Vesting.VestingInfo
import CherryNode.Support.Dispatch
import CherryNode.Lib.EStateRun
import CherryNode.Lib.Run
import CherryNode.Lib.Vec

/-!
# pallet-vesting: the schedules of an account and its `VESTING_ID` lock

`Vesting[who]` holds at most `MAX_VESTING_SCHEDULES` schedules, and the
`VESTING_ID` lock of `who` is to lock what they still lock.  Every call that
writes ends alike: `exec_action` drops the schedules removed or fully vested
and sums what the others lock (`lockedSum`), `write_vesting` stores the rest
and `write_lock` sets the lock to the sum.  So the entry and the lock agree at
the current block (`WrittenAt`).  Two calls return `Ok` without writing:
`merge_schedules` of an index with itself and `add_vesting_schedule` of a zero
amount.  Every failing call fails before it writes.

`T::Currency` is a parameter: `transfer` over the currency's storage, which
may read the `VESTING_ID` locks; `set_lock` and `remove_lock` are their effect
on `Locks`.  `T::Lookup` is the identity.  The `debug_assert!`s are not in the
release build; their conditions are proved (`mergeVestingInfo_valid`,
`addVestingSchedule_sat`).
-/

namespace PalletVesting

open Frame EStateRun VestingInfo
open PalletBalances (balanceMax saturatingAdd saturatingAdd_pos ExistenceRequirement)

/-- `Error<T>`. -/
inductive Error
  | notVesting
  | atMaxVestingSchedules
  | amountLow
  | scheduleIndexOutOfBounds
  | invalidScheduleParams
  deriving DecidableEq, Repr

/-- `Event<T>`. -/
inductive Event (A : Type)
  | vestingUpdated (account : A) (unvested : Nat)
  | vestingCompleted (account : A)
  deriving DecidableEq, Repr

/-- `MinVestedTransfer`, and `T::Currency::transfer` over the currency's
storage `Cur`: it reads the `VESTING_ID` locks, and fails with an error of the
currency or returns its new storage. -/
structure Config (A Cur CurErr : Type) where
  minVestedTransfer : Nat
  transfer : (A → Option Nat) → A → A → Nat → ExistenceRequirement → Cur → Except CurErr Cur

/-- `Vesting`, the `VESTING_ID` entry of each account's locks, the currency's
storage, the system block number and the events. -/
structure St (A Cur : Type) (maxSchedules : Nat) where
  vesting : A → Option (BoundedVec VestingInfo maxSchedules)
  locks : A → Option Nat
  currency : Cur
  blockNumber : Nat
  events : List (Event A)

variable {A Cur CurErr : Type} {maxSchedules now : Nat} {schedules : List VestingInfo} {s s' : St A Cur maxSchedules}
    {who : A}

namespace St

def empty (currency : Cur) : St A Cur maxSchedules := ⟨fun _ => none, fun _ => none, currency, 0, []⟩

def deposit (s : St A Cur maxSchedules) (e : Event A) : St A Cur maxSchedules := { s with events := s.events ++ [e] }

@[simp] theorem deposit_vesting (s : St A Cur maxSchedules) (e : Event A) : (s.deposit e).vesting = s.vesting := rfl
@[simp] theorem deposit_locks (s : St A Cur maxSchedules) (e : Event A) : (s.deposit e).locks = s.locks := rfl
variable [DecidableEq A]

/-- `Vesting::<T>::insert(who, ..)`, or `remove(who)` for `none`. -/
def setVesting (s : St A Cur maxSchedules) (who : A) (v : Option (BoundedVec VestingInfo maxSchedules)) :
    St A Cur maxSchedules :=
  { s with vesting := Function.update s.vesting who v }

/-- `set_lock(VESTING_ID, who, ..)`, or `remove_lock(VESTING_ID, who)` for `none`. -/
def setLock (s : St A Cur maxSchedules) (who : A) (l : Option Nat) : St A Cur maxSchedules :=
  { s with locks := Function.update s.locks who l }

@[simp] theorem setVesting_vesting (s : St A Cur maxSchedules) (who : A) (v : Option (BoundedVec VestingInfo maxSchedules)) :
    (s.setVesting who v).vesting = Function.update s.vesting who v := rfl
@[simp] theorem setVesting_locks (s : St A Cur maxSchedules) (who : A) (v : Option (BoundedVec VestingInfo maxSchedules)) :
    (s.setVesting who v).locks = s.locks := rfl
@[simp] theorem setLock_vesting (s : St A Cur maxSchedules) (who : A) (l : Option Nat) :
    (s.setLock who l).vesting = s.vesting := rfl
@[simp] theorem setLock_locks (s : St A Cur maxSchedules) (who : A) (l : Option Nat) :
    (s.setLock who l).locks = Function.update s.locks who l := rfl
end St

/-- `VestingAction`. -/
inductive VestingAction
  | passive
  | remove (index : Nat)
  | merge (index1 index2 : Nat)
  deriving DecidableEq, Repr

namespace VestingAction

/-- `should_remove`. -/
def shouldRemove : VestingAction → Nat → Bool
  | .passive, _ => false
  | .remove index1, index => index1 == index
  | .merge index1 index2, index => index1 == index || index2 == index

/-- `pick_schedules`: the schedules whose index the action does not remove. -/
def pickSchedules (action : VestingAction) (schedules : List VestingInfo) : List VestingInfo :=
  schedules.zipIdx.filterMap fun (schedule, index) => if action.shouldRemove index then none else some schedule

end VestingAction

/-- What `schedules` lock at `now`, added up in order with `saturating_add`,
as `report_schedule_updates` and `exec_action` add them. -/
def lockedSum (now : Nat) (schedules : List VestingInfo) : Nat :=
  schedules.foldl (fun totalLockedNow schedule => saturatingAdd totalLockedNow (schedule.lockedAt now)) 0

/-- `report_schedule_updates`, at the current block `now`: the schedules the
action keeps that still lock something, and what they lock. -/
def reportScheduleUpdates (now : Nat) (schedules : List VestingInfo) (action : VestingAction) :
    List VestingInfo × Nat :=
  -- the closure of `filter_map` drops what locks nothing and adds up the rest
  let filteredSchedules := (action.pickSchedules schedules).filter fun schedule => schedule.lockedAt now != 0
  (filteredSchedules, lockedSum now filteredSchedules)

abbrev M (A Cur CurErr : Type) (maxSchedules : Nat) := Call (St A Cur maxSchedules) (Error ⊕ CurErr)

variable [DecidableEq A]

section Calls

variable (cfg : Config A Cur CurErr)

/-- `exec_action`. -/
def execAction (schedules : List VestingInfo) (action : VestingAction) :
    M A Cur CurErr maxSchedules (List VestingInfo × Nat) := do
  let now := (← get).blockNumber
  match action with
  | .merge idx1 idx2 =>
    -- the indices are those of the schedules before any is filtered out
    let schedule1 ← okOr schedules[idx1]? (.inl .scheduleIndexOutOfBounds)
    let schedule2 ← okOr schedules[idx2]? (.inl .scheduleIndexOutOfBounds)
    let (schedules, lockedNow) := reportScheduleUpdates now schedules action
    match mergeVestingInfo now schedule1 schedule2 with
    | some newSchedule => pure (schedules ++ [newSchedule], saturatingAdd lockedNow (newSchedule.lockedAt now))
    | none => pure (schedules, lockedNow)
  | _ => pure (reportScheduleUpdates now schedules action)

/-- `write_lock`. -/
def writeLock (who : A) (totalLockedNow : Nat) : M A Cur CurErr maxSchedules Unit :=
  if totalLockedNow = 0 then modify fun s => (s.setLock who none).deposit (.vestingCompleted who)
  else modify fun s => (s.setLock who (some totalLockedNow)).deposit (.vestingUpdated who totalLockedNow)

/-- `write_vesting`. -/
def writeVesting (who : A) (schedules : List VestingInfo) : M A Cur CurErr maxSchedules Unit := do
  let schedules ← okOr (BoundedVec.tryFrom schedules) (.inl .atMaxVestingSchedules)
  if schedules.val.length = 0 then modify (·.setVesting who none)
  else modify (·.setVesting who (some schedules))

/-- `do_vest`. -/
def doVest (who : A) : M A Cur CurErr maxSchedules Unit := do
  let schedules ← okOr ((← get).vesting who) (.inl .notVesting)
  let (schedules, lockedNow) ← execAction schedules.val .passive
  writeVesting who schedules
  writeLock who lockedNow

/-- `vest`. -/
def vest (origin : Origin A) : M A Cur CurErr maxSchedules Unit := do
  let who ← ensureSigned origin
  doVest who

/-- `vest_other`. -/
def vestOther (origin : Origin A) (target : A) : M A Cur CurErr maxSchedules Unit := do
  let _ ← ensureSigned origin
  doVest target

/-- `add_vesting_schedule` of `VestingSchedule`: a zero amount is not added. -/
def addVestingSchedule (who : A) (locked perBlock startingBlock : Nat) : M A Cur CurErr maxSchedules Unit := do
  if locked = 0 then return ()
  let vestingSchedule : VestingInfo := ⟨locked, perBlock, startingBlock⟩
  if !vestingSchedule.isValid then throw (.module (.inl .invalidScheduleParams))
  let schedules := ((← get).vesting who).getD BoundedVec.empty
  -- the new schedule is pushed first, so that `exec_action` counts what it locks
  let schedules ← okOr (schedules.tryPush vestingSchedule) (.inl .atMaxVestingSchedules)
  let (schedules, lockedNow) ← execAction schedules.val .passive
  writeVesting who schedules
  writeLock who lockedNow

/-- `can_add_vesting_schedule`: what `add_vesting_schedule` checks, without a
write. -/
def canAddVestingSchedule (who : A) (locked perBlock startingBlock : Nat) : M A Cur CurErr maxSchedules Unit := do
  if !(VestingInfo.mk locked perBlock startingBlock).isValid then throw (.module (.inl .invalidScheduleParams))
  -- `decode_len`: the length of the stored vector, 0 if there is none
  ensure ((((← get).vesting who).map (·.val.length)).getD 0 < maxSchedules) (.inl .atMaxVestingSchedules)

/-- `remove_vesting_schedule` of `VestingSchedule`. -/
def removeVestingSchedule (who : A) (scheduleIndex : Nat) : M A Cur CurErr maxSchedules Unit := do
  let schedules ← okOr ((← get).vesting who) (.inl .notVesting)
  let (schedules, lockedNow) ← execAction schedules.val (.remove scheduleIndex)
  writeVesting who schedules
  writeLock who lockedNow

/-- `do_vested_transfer`. -/
def doVestedTransfer (source target : A) (schedule : VestingInfo) : M A Cur CurErr maxSchedules Unit := do
  ensure (schedule.locked ≥ cfg.minVestedTransfer) (.inl .amountLow)
  if !schedule.isValid then throw (.module (.inl .invalidScheduleParams))
  -- every check is made before the transfer
  canAddVestingSchedule target schedule.locked schedule.perBlock schedule.startingBlock
  let s ← get
  match cfg.transfer s.locks source target schedule.locked .allowDeath s.currency with
  | .error e => throw (.module (.inr e))
  | .ok currency => set { s with currency }
  -- the funds have moved: the result of `add_vesting_schedule` is only `debug_assert!`ed
  let _ ← toResult (addVestingSchedule target schedule.locked schedule.perBlock schedule.startingBlock)
  pure ()

/-- `vested_transfer`. -/
def vestedTransfer (origin : Origin A) (target : A) (schedule : VestingInfo) : M A Cur CurErr maxSchedules Unit := do
  let transactor ← ensureSigned origin
  doVestedTransfer cfg transactor target schedule

/-- `force_vested_transfer`. -/
def forceVestedTransfer (origin : Origin A) (source target : A) (schedule : VestingInfo) :
    M A Cur CurErr maxSchedules Unit := do
  ensureRoot origin
  doVestedTransfer cfg source target schedule

/-- `merge_schedules`: the same index twice is a no-op. -/
def mergeSchedules (origin : Origin A) (schedule1Index schedule2Index : Nat) : M A Cur CurErr maxSchedules Unit := do
  let who ← ensureSigned origin
  if schedule1Index = schedule2Index then return ()
  let schedules ← okOr ((← get).vesting who) (.inl .notVesting)
  let (schedules, lockedNow) ← execAction schedules.val (.merge schedule1Index schedule2Index)
  writeVesting who schedules
  writeLock who lockedNow

end Calls

/-- An entry of `Vesting` and a lock as a write at `now` leaves them: no entry
and no lock, or schedules that are valid and still lock something, and a lock
of what they lock together. -/
def WrittenAt (now : Nat) : Option (BoundedVec VestingInfo maxSchedules) → Option Nat → Prop
  | none, lock => lock = none
  | some v, lock => v.val ≠ [] ∧ (∀ x ∈ v.val, 0 < x.locked ∧ 0 < x.rawPerBlock ∧ 0 < x.lockedAt now) ∧
      lock = some (lockedSum now v.val)

/-! ## The entry points, one block after another -/

/-- The pallet's calls, and the functions of `VestingSchedule` other pallets call. -/
inductive Op (A : Type)
  | vest (origin : Origin A)
  | vestOther (origin : Origin A) (target : A)
  | vestedTransfer (origin : Origin A) (target : A) (schedule : VestingInfo)
  | forceVestedTransfer (origin : Origin A) (source target : A) (schedule : VestingInfo)
  | mergeSchedules (origin : Origin A) (schedule1Index schedule2Index : Nat)
  | addVestingSchedule (who : A) (locked perBlock startingBlock : Nat)
  | removeVestingSchedule (who : A) (scheduleIndex : Nat)

/-- What an entry point runs. -/
def Op.run (cfg : Config A Cur CurErr) : Op A → M A Cur CurErr maxSchedules Unit
  | .vest origin => PalletVesting.vest origin
  | .vestOther origin target => PalletVesting.vestOther origin target
  | .vestedTransfer origin target schedule => PalletVesting.vestedTransfer cfg origin target schedule
  | .forceVestedTransfer origin source target schedule =>
    PalletVesting.forceVestedTransfer cfg origin source target schedule
  | .mergeSchedules origin schedule1Index schedule2Index =>
    PalletVesting.mergeSchedules origin schedule1Index schedule2Index
  | .addVestingSchedule who locked perBlock startingBlock =>
    PalletVesting.addVestingSchedule who locked perBlock startingBlock
  | .removeVestingSchedule who scheduleIndex => PalletVesting.removeVestingSchedule who scheduleIndex

/-- The amounts an entry point is given are `u128` values. -/
def Op.Fits : Op A → Prop
  | .vestedTransfer _ _ schedule => schedule.locked ≤ balanceMax
  | .forceVestedTransfer _ _ _ schedule => schedule.locked ≤ balanceMax
  | .addVestingSchedule _ locked _ _ => locked ≤ balanceMax
  | _ => True

instance (op : Op A) : Decidable op.Fits :=
  match op with
  | .vest _ => inferInstanceAs (Decidable True)
  | .vestOther _ _ => inferInstanceAs (Decidable True)
  | .vestedTransfer _ _ schedule => inferInstanceAs (Decidable (schedule.locked ≤ balanceMax))
  | .forceVestedTransfer _ _ _ schedule => inferInstanceAs (Decidable (schedule.locked ≤ balanceMax))
  | .mergeSchedules _ _ _ => inferInstanceAs (Decidable True)
  | .addVestingSchedule _ locked _ _ => inferInstanceAs (Decidable (locked ≤ balanceMax))
  | .removeVestingSchedule _ _ => inferInstanceAs (Decidable True)

/-- The account whose entry and lock an entry point writes. -/
def Op.account : Op A → Option A
  | .vest (.signed who) => some who
  | .vest _ => none
  | .vestOther _ target => some target
  | .vestedTransfer _ target _ => some target
  | .forceVestedTransfer _ _ target _ => some target
  | .mergeSchedules (.signed who) _ _ => some who
  | .mergeSchedules _ _ _ => none
  | .addVestingSchedule who _ _ _ => some who
  | .removeVestingSchedule who _ => some who

/-- The two entry points that return `Ok` without a write: the merge of an
index with itself, and a zero amount added. -/
def Op.isNoop : Op A → Bool
  | .mergeSchedules _ schedule1Index schedule2Index => schedule1Index == schedule2Index
  | .addVestingSchedule _ locked _ _ => locked == 0
  | _ => false

/-- The transfer a vested transfer makes: from whom, to whom, and with which
schedule. -/
def Op.transferred : Op A → Option (A × A × VestingInfo)
  | .vestedTransfer (.signed transactor) target schedule => some (transactor, target, schedule)
  | .forceVestedTransfer .root source target schedule => some (source, target, schedule)
  | _ => none

/-- What happens between and within the blocks: an entry point, the next
block, or another pallet writing the currency's storage. -/
inductive Step (A Cur : Type)
  | op (o : Op A)
  | newBlock
  | currency (c : Cur)

/-- The storage after a step; an entry point keeps its writes, as FRAME does. -/
def Step.apply (cfg : Config A Cur CurErr) (s : St A Cur maxSchedules) : Step A Cur → St A Cur maxSchedules
  | .op o => applyCall (o.run cfg) s
  | .newBlock => { s with blockNumber := s.blockNumber + 1 }
  | .currency c => { s with currency := c }

def Step.Fits : Step A Cur → Prop
  | .op o => o.Fits
  | _ => True

instance (st : Step A Cur) : Decidable st.Fits :=
  match st with
  | .op o => inferInstanceAs (Decidable o.Fits)
  | .newBlock => inferInstanceAs (Decidable True)
  | .currency _ => inferInstanceAs (Decidable True)

/-- What an entry point's `Ok` leaves: one of the two no-ops, or the entry and
lock as a write at the current block leaves them. -/
def OkOutcome (cfg : Config A Cur CurErr) (s : St A Cur maxSchedules) (op : Op A) (s' : St A Cur maxSchedules) :
    Prop :=
  (op.isNoop = true ∧ s' = s) ∨
    ((∀ who, op.account = some who → WrittenAt s.blockNumber (s'.vesting who) (s'.locks who)) ∧
      ∀ source target schedule, op.transferred = some (source, target, schedule) →
        cfg.transfer s.locks source target schedule.locked .allowDeath s.currency = .ok s'.currency ∧
        (schedule.lockedAt s.blockNumber = 0 ∨ ∃ v, s'.vesting target = some v ∧ schedule ∈ v.val))

/-- **What an entry point does** at `s`: `OkOutcome` on `Ok`, and the storage as
it was on `Err`. -/
def Outcome (cfg : Config A Cur CurErr) (s : St A Cur maxSchedules) (op : Op A) : Prop :=
  Sat ((op.run cfg : M A Cur CurErr maxSchedules Unit) s) (fun _ s' => OkOutcome cfg s op s') (fun _ s' => s' = s)

/-! ## What `exec_action` keeps -/

namespace VestingAction

theorem filterMap_zipIdx_sublist (action : VestingAction) :
    ∀ (schedules : List VestingInfo) (k : Nat),
      ((schedules.zipIdx k).filterMap fun (schedule, index) =>
        if action.shouldRemove index then none else some schedule).Sublist schedules
  | [], _ => List.Sublist.slnil
  | schedule :: schedules, k => by
    simp only [List.zipIdx_cons, List.filterMap_cons]
    split_ifs
    · exact (filterMap_zipIdx_sublist action schedules (k + 1)).cons schedule
    · exact (filterMap_zipIdx_sublist action schedules (k + 1)).cons_cons schedule

theorem pickSchedules_sublist (action : VestingAction) (schedules : List VestingInfo) :
    (action.pickSchedules schedules).Sublist schedules :=
  filterMap_zipIdx_sublist action schedules 0

theorem pickSchedules_passive (schedules : List VestingInfo) : passive.pickSchedules schedules = schedules := by
  suffices h : ∀ k, ((schedules.zipIdx k).filterMap fun (schedule, index) =>
      if passive.shouldRemove index then none else some schedule) = schedules from h 0
  induction schedules with
  | nil => intro k; rfl
  | cons schedule schedules ih =>
    intro k
    simp only [List.zipIdx_cons, List.filterMap_cons, shouldRemove, Bool.false_eq_true, ↓reduceIte] at ih ⊢
    rw [ih]

end VestingAction

theorem foldl_saturatingAdd_pos (now : Nat) :
    ∀ (schedules : List VestingInfo) {total : Nat}, 0 < total →
      0 < schedules.foldl (fun totalLockedNow schedule => saturatingAdd totalLockedNow (schedule.lockedAt now)) total
  | [], _, h => h
  | _ :: schedules, _, h => foldl_saturatingAdd_pos now schedules (saturatingAdd_pos (.inl h))

theorem lockedSum_pos {now : Nat} {schedules : List VestingInfo} (hne : schedules ≠ [])
    (hpos : ∀ x ∈ schedules, 0 < x.lockedAt now) : 0 < lockedSum now schedules := by
  obtain ⟨x, rest, rfl⟩ := List.exists_cons_of_ne_nil hne
  exact foldl_saturatingAdd_pos now rest (saturatingAdd_pos (.inr (hpos x List.mem_cons_self)))

theorem lockedSum_append_singleton (now : Nat) (schedules : List VestingInfo) (x : VestingInfo) :
    lockedSum now (schedules ++ [x]) = saturatingAdd (lockedSum now schedules) (x.lockedAt now) := by
  simp only [lockedSum, List.foldl_append, List.foldl_cons, List.foldl_nil]

theorem mem_reportScheduleUpdates {action : VestingAction}
    {x : VestingInfo} (hx : x ∈ (reportScheduleUpdates now schedules action).1) :
    x ∈ schedules ∧ 0 < x.lockedAt now := by
  simp only [reportScheduleUpdates, List.mem_filter, bne_iff_ne, ne_eq] at hx
  exact ⟨(action.pickSchedules_sublist schedules).subset hx.1, Nat.pos_of_ne_zero hx.2⟩

omit [DecidableEq A] in
/-- **What `exec_action` keeps.**  From schedules fit to be stored it returns,
without a write, schedules fit to be stored that lock something at the
current block, and their sum. -/
theorem execAction_sat (s : St A Cur maxSchedules) (hvalid : ∀ x ∈ schedules, x.Valid)
    (action : VestingAction) :
    Sat ((execAction schedules action : M A Cur CurErr maxSchedules _) s)
      (fun r s' => s' = s ∧ (∀ x ∈ r.1, x.Valid ∧ 0 < x.lockedAt s.blockNumber) ∧ r.2 = lockedSum s.blockNumber r.1)
      (fun _ s' => s' = s) := by
  have hkept : ∀ a, ∀ x ∈ (reportScheduleUpdates s.blockNumber schedules a).1,
      x.Valid ∧ 0 < x.lockedAt s.blockNumber := fun a x hx =>
    ⟨hvalid x (mem_reportScheduleUpdates hx).1, (mem_reportScheduleUpdates hx).2⟩
  cases action with
  | passive => exact ⟨rfl, hkept _, rfl⟩
  | remove index => exact ⟨rfl, hkept _, rfl⟩
  | merge idx1 idx2 =>
    simp only [execAction, Frame.bind_apply, Frame.get_apply]
    cases h₁ : schedules[idx1]? with
    | none => rfl
    | some schedule1 =>
      cases h₂ : schedules[idx2]? with
      | none => rfl
      | some schedule2 =>
        simp only [okOr_some]
        cases hm : mergeVestingInfo s.blockNumber schedule1 schedule2 with
        | none => exact ⟨rfl, hkept _, rfl⟩
        | some newSchedule =>
          -- the merged schedule is pushed last, and counted last
          have hnew := mergeVestingInfo_valid (hvalid _ (List.mem_of_getElem? h₁)) (hvalid _ (List.mem_of_getElem? h₂)) hm
          refine ⟨rfl, fun x hx => ?_, (lockedSum_append_singleton _ _ _).symm⟩
          rcases List.mem_append.mp hx with hx | hx
          · exact hkept _ x hx
          · rw [List.mem_singleton.mp hx]
            exact hnew

/-! ## The writes that end a call -/

/-- What `write_vesting` and then `write_lock` leave for `who` when `L` is
kept at `now`: the entry and the lock of `who` written, all else as in `s`. -/
structure Wrote (now : Nat) (s : St A Cur maxSchedules) (who : A) (L : List VestingInfo) (s' : St A Cur maxSchedules) :
    Prop where
  vesting : (s'.vesting who).map (·.val) = if L = [] then none else some L
  lock : s'.locks who = if L = [] then none else some (lockedSum now L)
  vesting_ne : ∀ a, a ≠ who → s'.vesting a = s.vesting a
  locks_ne : ∀ a, a ≠ who → s'.locks a = s.locks a
  currency : s'.currency = s.currency
  blockNumber : s'.blockNumber = s.blockNumber

/-- **The writes.**  `write_vesting` fails only past `MAX_VESTING_SCHEDULES`,
before it writes; otherwise the schedules and their sum are written. -/
theorem write_sat (s : St A Cur maxSchedules) (who : A) {L : List VestingInfo}
    (hpos : ∀ x ∈ L, 0 < x.lockedAt now) :
    Sat ((do writeVesting who L; writeLock who (lockedSum now L) : M A Cur CurErr maxSchedules Unit) s)
      (fun _ s' => Wrote now s who L s') (fun _ s' => s' = s ∧ maxSchedules < L.length) := by
  simp only [writeVesting, writeLock, Frame.bind_apply]
  cases hv : BoundedVec.tryFrom L with
  | none => exact ⟨rfl, BoundedVec.tryFrom_eq_none_iff.mp hv⟩
  | some v =>
    have hval := BoundedVec.tryFrom_eq_some_iff.mp hv
    simp only [okOr_some, List.length_eq_zero_iff, hval]
    by_cases hL : L = []
    · subst hL
      simp only [↓reduceIte, Frame.modify_apply, lockedSum, List.foldl_nil]
      refine ⟨by simp, by simp, fun a ha => ?_, fun a ha => ?_, rfl, rfl⟩ <;> simp [Function.update_of_ne ha]
    · have hsum := lockedSum_pos hL hpos
      simp only [hL, ↓reduceIte, Frame.modify_apply, Nat.pos_iff_ne_zero.mp hsum]
      refine ⟨by simp [hval, hL], by simp [hL], fun a ha => ?_, fun a ha => ?_, rfl, rfl⟩ <;> simp [Function.update_of_ne ha]

/-- A call that ended in the writes for `who`: it kept, at the current block,
schedules fit to be stored that lock something, and wrote them. -/
def Committed (s : St A Cur maxSchedules) (who : A) (s' : St A Cur maxSchedules) : Prop :=
  ∃ L, (∀ x ∈ L, x.Valid ∧ 0 < x.lockedAt s.blockNumber) ∧ Wrote s.blockNumber s who L s'

/-- **The end of a call.**  `exec_action` of stored schedules, then the writes. -/
theorem commit_sat (s : St A Cur maxSchedules) (who : A)
    (hvalid : ∀ x ∈ schedules, x.Valid) (action : VestingAction) :
    Sat ((do
        let (schedules, lockedNow) ← execAction schedules action
        writeVesting who schedules
        writeLock who lockedNow : M A Cur CurErr maxSchedules Unit) s)
      (fun _ s' => Committed s who s') (fun _ s' => s' = s) := by
  rw [sat_bind]
  refine (execAction_sat s hvalid action).imp ?_ (fun _ _ h => h)
  rintro ⟨L, lockedNow⟩ s' ⟨rfl, hL, hsum⟩
  dsimp only at hL hsum ⊢
  subst hsum
  exact (write_sat s' who fun x hx => (hL x hx).2).imp (fun _ s'' h => ⟨L, hL, h⟩) (fun _ _ h => h.1)

theorem commit_passive_sat (s : St A Cur maxSchedules) (who : A) (schedules : List VestingInfo) :
    Sat ((do
        let (schedules, lockedNow) ← execAction schedules .passive
        writeVesting who schedules
        writeLock who lockedNow : M A Cur CurErr maxSchedules Unit) s)
      (fun _ s' => Wrote s.blockNumber s who (schedules.filter fun x => x.lockedAt s.blockNumber != 0) s')
      (fun _ s' => s' = s ∧ maxSchedules < (schedules.filter fun x => x.lockedAt s.blockNumber != 0).length) := by
  have hpos : ∀ x ∈ schedules.filter (fun x => x.lockedAt s.blockNumber != 0), 0 < x.lockedAt s.blockNumber := by
    intro x hx
    simp only [List.mem_filter, bne_iff_ne, ne_eq] at hx
    exact Nat.pos_of_ne_zero hx.2
  rw [sat_bind]
  have hexec : (execAction schedules .passive : M A Cur CurErr maxSchedules _) s =
      .ok (reportScheduleUpdates s.blockNumber schedules .passive) s := rfl
  rw [hexec, sat_ok]
  simp only [reportScheduleUpdates, VestingAction.pickSchedules_passive]
  exact write_sat s who hpos

/-! ## The invariant, and what a write leaves -/

/-- What every state keeps, whatever the block: each entry of `Vesting` holds
schedules fit to be stored, at least one, and an account has a `VESTING_ID`
lock exactly when it has an entry. -/
structure Inv (s : St A Cur maxSchedules) : Prop where
  valid : ∀ who v, s.vesting who = some v → v.val ≠ [] ∧ ∀ x ∈ v.val, x.Valid
  lock_isSome : ∀ who, (s.locks who).isSome = (s.vesting who).isSome

omit [DecidableEq A] in
theorem Inv.empty (currency : Cur) : Inv (St.empty currency : St A Cur maxSchedules) :=
  ⟨fun _ _ h => (nomatch h), fun _ => rfl⟩

namespace Wrote

variable {now : Nat} {s s' : St A Cur maxSchedules} {who : A} {L : List VestingInfo}

omit [DecidableEq A] in
theorem vesting_eq (h : Wrote now s who L s') :
    (L = [] ∧ s'.vesting who = none) ∨ (L ≠ [] ∧ ∃ v, s'.vesting who = some v ∧ v.val = L) := by
  have hmap := h.vesting
  by_cases hL : L = []
  · rw [if_pos hL, Option.map_eq_none_iff] at hmap
    exact .inl ⟨hL, hmap⟩
  · rw [if_neg hL, Option.map_eq_some_iff] at hmap
    exact .inr ⟨hL, hmap⟩

/-- **A write keeps the invariant.** -/
theorem inv (h : Wrote now s who L s') (hs : Inv s) (hL : ∀ x ∈ L, x.Valid) : Inv s' where
  valid := by
    intro a v hv
    by_cases ha : a = who
    · subst ha
      rcases h.vesting_eq with ⟨-, hnone⟩ | ⟨hne, v', hv', hval⟩
      · rw [hnone] at hv
        cases hv
      · rw [hv'] at hv
        cases hv
        exact ⟨hval ▸ hne, hval ▸ hL⟩
    · rw [h.vesting_ne a ha] at hv
      exact hs.valid a v hv
  lock_isSome := by
    intro a
    by_cases ha : a = who
    · subst ha
      rw [h.lock]
      rcases h.vesting_eq with ⟨hL', hnone⟩ | ⟨hne, v', hv', -⟩
      · rw [hnone, if_pos hL']
        rfl
      · rw [hv', if_neg hne]
        rfl
    · rw [h.vesting_ne a ha, h.locks_ne a ha]
      exact hs.lock_isSome a

omit [DecidableEq A] in
/-- **A write leaves the entry and the lock agreeing at `now`.** -/
theorem writtenAt (h : Wrote now s who L s') (hL : ∀ x ∈ L, x.Valid ∧ 0 < x.lockedAt now) :
    WrittenAt now (s'.vesting who) (s'.locks who) := by
  rcases h.vesting_eq with ⟨hL', hnone⟩ | ⟨hne, v, hv, hval⟩
  · rw [hnone, h.lock, if_pos hL']
    rfl
  · rw [hv, h.lock, if_neg hne]
    subst hval
    exact ⟨hne, fun x hx => ⟨(hL x hx).1.locked_pos, (hL x hx).1.rawPerBlock_pos, (hL x hx).2⟩, rfl⟩

end Wrote

theorem Committed.inv (h : Committed s who s') (hs : Inv s) : Inv s' := by
  obtain ⟨L, hL, hw⟩ := h
  exact hw.inv hs fun x hx => (hL x hx).1

omit [DecidableEq A] in
theorem Committed.writtenAt (h : Committed s who s') :
    WrittenAt s.blockNumber (s'.vesting who) (s'.locks who) := by
  obtain ⟨L, hL, hw⟩ := h
  exact hw.writtenAt hL

/-! ## The calls -/

section CallSpecs

variable {s : St A Cur maxSchedules}

theorem doVest_sat (hs : Inv s) (who : A) :
    Sat ((doVest who : M A Cur CurErr maxSchedules Unit) s) (fun _ s' => Committed s who s') (fun _ s' => s' = s) := by
  cases hv : s.vesting who with
  | none => simp [doVest, hv]
  | some v =>
    rw [doVest, sat_bind, Frame.get_apply, sat_ok]
    dsimp only
    rw [sat_bind, hv, okOr_some, sat_ok]
    exact commit_sat s who (hs.valid who v hv).2 .passive

theorem vest_sat (hs : Inv s) (origin : Origin A) :
    Sat ((vest origin : M A Cur CurErr maxSchedules Unit) s)
      (fun _ s' => ∃ who, origin = .signed who ∧ Committed s who s') (fun _ s' => s' = s) := by
  cases origin with
  | signed who =>
    rw [vest, sat_bind, ensureSigned_signed, sat_ok]
    exact (doVest_sat hs who).imp (fun _ _ h => ⟨who, rfl, h⟩) (fun _ _ h => h)
  | root => rfl
  | none => rfl

theorem vestOther_sat (hs : Inv s) (origin : Origin A) (target : A) :
    Sat ((vestOther origin target : M A Cur CurErr maxSchedules Unit) s) (fun _ s' => Committed s target s')
      (fun _ s' => s' = s) := by
  cases origin with
  | signed who =>
    rw [vestOther, sat_bind, ensureSigned_signed, sat_ok]
    exact doVest_sat hs target
  | root => rfl
  | none => rfl

theorem removeVestingSchedule_sat (hs : Inv s) (who : A) (scheduleIndex : Nat) :
    Sat ((removeVestingSchedule who scheduleIndex : M A Cur CurErr maxSchedules Unit) s)
      (fun _ s' => Committed s who s') (fun _ s' => s' = s) := by
  cases hv : s.vesting who with
  | none => simp [removeVestingSchedule, hv]
  | some v =>
    rw [removeVestingSchedule, sat_bind, Frame.get_apply, sat_ok]
    dsimp only
    rw [sat_bind, hv, okOr_some, sat_ok]
    exact commit_sat s who (hs.valid who v hv).2 (.remove scheduleIndex)

theorem mergeSchedules_sat (hs : Inv s) (origin : Origin A) (schedule1Index schedule2Index : Nat) :
    Sat ((mergeSchedules origin schedule1Index schedule2Index : M A Cur CurErr maxSchedules Unit) s)
      (fun _ s' => (schedule1Index = schedule2Index ∧ s' = s) ∨ ∃ who, origin = .signed who ∧ Committed s who s')
      (fun _ s' => s' = s) := by
  cases origin with
  | signed who =>
    rw [mergeSchedules, sat_bind, ensureSigned_signed, sat_ok]
    dsimp only
    by_cases hij : schedule1Index = schedule2Index
    · -- the no-op
      rw [if_pos hij]
      exact .inl ⟨hij, rfl⟩
    · rw [if_neg hij]
      cases hv : s.vesting who with
      | none => simp [hv]
      | some v =>
        rw [sat_bind, Frame.get_apply, sat_ok]
        rw [sat_bind, hv, okOr_some, sat_ok]
        exact (commit_sat s who (hs.valid who v hv).2 (.merge schedule1Index schedule2Index)).imp
          (fun _ _ h => .inr ⟨who, rfl, h⟩) (fun _ _ h => h)
  | root => rfl
  | none => rfl

omit [DecidableEq A] in
theorem canAddVestingSchedule_sat (who : A) (locked perBlock startingBlock : Nat) :
    Sat ((canAddVestingSchedule who locked perBlock startingBlock : M A Cur CurErr maxSchedules Unit) s)
      (fun _ s' => s' = s ∧ (VestingInfo.mk locked perBlock startingBlock).isValid = true ∧
        ((s.vesting who).map (·.val.length)).getD 0 < maxSchedules)
      (fun _ s' => s' = s) := by
  unfold canAddVestingSchedule
  dsimp only
  by_cases hvalid : (VestingInfo.mk locked perBlock startingBlock).isValid = true
  · rw [if_neg (by simp [hvalid]), sat_bind, Frame.get_apply, sat_ok]
    rw [ensure_apply]
    split_ifs with hlen
    · exact ⟨rfl, hvalid, hlen⟩
    · rfl
  · rw [if_pos (by simpa using hvalid)]
    rfl

omit [DecidableEq A] in
theorem Inv.valid_getD {s : St A Cur maxSchedules} (hs : Inv s) (who : A) :
    ∀ x ∈ ((s.vesting who).getD BoundedVec.empty).val, x.Valid := by
  cases hv : s.vesting who with
  | none => simp
  | some v => exact (hs.valid who v hv).2

/-- **`add_vesting_schedule`.**  A zero amount is not added.  Otherwise the
call fails, before it writes, on invalid parameters or a full vector; or it
keeps the schedules not fully vested, the new one among them unless it has
fully vested itself. -/
theorem addVestingSchedule_sat (hs : Inv s) (who : A) (locked perBlock startingBlock : Nat)
    (hle : locked ≤ balanceMax) :
    Sat ((addVestingSchedule who locked perBlock startingBlock : M A Cur CurErr maxSchedules Unit) s)
      (fun _ s' => (locked = 0 ∧ s' = s) ∨
        (Committed s who s' ∧ ((VestingInfo.mk locked perBlock startingBlock).lockedAt s.blockNumber = 0 ∨
          ∃ v, s'.vesting who = some v ∧ VestingInfo.mk locked perBlock startingBlock ∈ v.val)))
      (fun _ s' => s' = s ∧ ((VestingInfo.mk locked perBlock startingBlock).isValid = false ∨
        maxSchedules ≤ ((s.vesting who).map (·.val.length)).getD 0)) := by
  unfold addVestingSchedule
  by_cases hzero : locked = 0
  · -- `locked.is_zero()`: nothing is added
    rw [if_pos hzero]
    exact .inl ⟨hzero, rfl⟩
  rw [if_neg hzero]
  dsimp only
  by_cases hvalid : (VestingInfo.mk locked perBlock startingBlock).isValid = true
  swap
  · rw [if_pos (by simpa using hvalid)]
    exact ⟨rfl, .inl (by simpa using hvalid)⟩
  rw [if_neg (by simp [hvalid]), sat_bind, Frame.get_apply, sat_ok]
  have hnew : (VestingInfo.mk locked perBlock startingBlock).Valid :=
    ⟨(isValid_iff.mp hvalid).1, (isValid_iff.mp hvalid).2, hle⟩
  cases hp : ((s.vesting who).getD BoundedVec.empty).tryPush (VestingInfo.mk locked perBlock startingBlock) with
  | none =>
    -- the vector is full
    rw [sat_bind, okOr_none, sat_error]
    refine ⟨rfl, .inr ?_⟩
    have hfull := BoundedVec.tryPush_eq_none_iff.mp hp
    cases hv : s.vesting who <;> simp_all
  | some w =>
    obtain ⟨-, hw⟩ := BoundedVec.tryPush_eq_some_iff.mp hp
    rw [sat_bind, okOr_some, sat_ok]
    -- every schedule of the pushed vector is fit to be stored
    have hvalidw : ∀ x ∈ w.val, x.Valid := by
      intro x hx
      rw [hw] at hx
      rcases List.mem_append.mp hx with hx | hx
      · exact hs.valid_getD who x hx
      · rw [List.mem_singleton.mp hx]
        exact hnew
    refine (commit_passive_sat s who w.val).imp (fun _ s' h => .inr ⟨⟨_, fun x hx => ?_, h⟩, ?_⟩) ?_
    · simp only [List.mem_filter, bne_iff_ne, ne_eq] at hx
      exact ⟨hvalidw x hx.1, Nat.pos_of_ne_zero hx.2⟩
    · -- the new schedule is kept unless it has fully vested
      by_cases hvested : (VestingInfo.mk locked perBlock startingBlock).lockedAt s.blockNumber = 0
      · exact .inl hvested
      · have hmem : VestingInfo.mk locked perBlock startingBlock ∈
            w.val.filter fun x => x.lockedAt s.blockNumber != 0 := by
          simp only [List.mem_filter, hw, List.mem_append, List.mem_singleton, or_true, true_and, bne_iff_ne, ne_eq]
          exact hvested
        rcases h.vesting_eq with ⟨hnil, -⟩ | ⟨-, v, hv, hval⟩
        · rw [hnil] at hmem
          cases hmem
        · exact .inr ⟨v, hv, hval ▸ hmem⟩
    · -- `write_vesting` cannot fail: what is kept fits the bound of the vector
      intro _ s' ⟨_, hlong⟩
      exact absurd (Nat.le_trans (List.length_filter_le _ _) w.length_le) (Nat.not_le.mpr hlong)

theorem VestingInfo.mk_perBlock {schedule : VestingInfo} (h : schedule.isValid = true) :
    VestingInfo.mk schedule.locked schedule.perBlock schedule.startingBlock = schedule := by
  rw [perBlock_of_pos (isValid_iff.mp h).2]

/-- **`do_vested_transfer`** checks before it transfers, so it fails with the
storage as it was or makes the transfer and writes the target's schedules. -/
theorem doVestedTransfer_sat (cfg : Config A Cur CurErr) (hs : Inv s) (source target : A) (schedule : VestingInfo)
    (hle : schedule.locked ≤ balanceMax) :
    Sat ((doVestedTransfer cfg source target schedule : M A Cur CurErr maxSchedules Unit) s)
      (fun _ s' => ∃ currency, cfg.transfer s.locks source target schedule.locked .allowDeath s.currency = .ok currency ∧
        Committed { s with currency } target s' ∧
        (schedule.lockedAt s.blockNumber = 0 ∨ ∃ v, s'.vesting target = some v ∧ schedule ∈ v.val))
      (fun _ s' => s' = s) := by
  unfold doVestedTransfer
  rw [sat_bind, ensure_apply]
  by_cases hmin : schedule.locked ≥ cfg.minVestedTransfer
  swap
  · rw [if_neg hmin]
    rfl
  rw [if_pos hmin, sat_ok]
  dsimp only
  by_cases hvalid : schedule.isValid = true
  swap
  · rw [if_pos (by simpa using hvalid)]
    rfl
  rw [if_neg (by simp [hvalid]), sat_bind]
  refine (canAddVestingSchedule_sat target _ _ _).imp ?_ (fun _ _ h => h)
  rintro _ s₁ ⟨hs₁, -, hlen⟩
  rw [hs₁, sat_bind, Frame.get_apply, sat_ok]
  cases ht : cfg.transfer s.locks source target schedule.locked .allowDeath s.currency with
  | error e => rfl
  | ok currency =>
    -- the funds have moved
    rw [sat_bind, Frame.set_apply, sat_ok, sat_bind, sat_toResult]
    have hs' : Inv ({ s with currency } : St A Cur maxSchedules) := ⟨hs.valid, hs.lock_isSome⟩
    refine (addVestingSchedule_sat hs' target _ _ _ hle).imp ?_ ?_
    · rintro _ s' (⟨hzero, -⟩ | ⟨hcommit, hrecorded⟩)
      · exact absurd hzero (Nat.pos_iff_ne_zero.mp (isValid_iff.mp hvalid).1)
      · rw [VestingInfo.mk_perBlock hvalid] at hrecorded
        exact ⟨currency, rfl, hcommit, hrecorded⟩
    · -- `add_vesting_schedule` has nothing to refuse
      rintro _ _ ⟨-, hno | hno⟩
      · rw [VestingInfo.mk_perBlock hvalid, hvalid] at hno
        cases hno
      · exact absurd hlen (Nat.not_lt.mpr hno)

end CallSpecs

/-! ## Every entry point, and every run -/

section Runs

variable (cfg : Config A Cur CurErr) {s : St A Cur maxSchedules}

variable {op : Op A} {s' : St A Cur maxSchedules}

omit [DecidableEq A] in
theorem okOutcome_of_committed (hacc : op.account = some who)
    (htr : op.transferred = none) (h : Committed s who s') : OkOutcome cfg s op s' := by
  refine .inr ⟨fun who' hwho' => ?_, fun _ _ _ htr' => ?_⟩
  · rw [hacc, Option.some.injEq] at hwho'
    exact hwho' ▸ h.writtenAt
  · rw [htr] at htr'
    cases htr'

omit [DecidableEq A] in
theorem okOutcome_of_transfer {source target : A} {schedule : VestingInfo}
    (hacc : op.account = some target) (htr : op.transferred = some (source, target, schedule))
    (h : ∃ currency, cfg.transfer s.locks source target schedule.locked .allowDeath s.currency = .ok currency ∧
      Committed { s with currency } target s' ∧
      (schedule.lockedAt s.blockNumber = 0 ∨ ∃ v, s'.vesting target = some v ∧ schedule ∈ v.val)) :
    OkOutcome cfg s op s' := by
  obtain ⟨currency, ht, hc, hrecorded⟩ := h
  have hcurrency : s'.currency = currency := by
    obtain ⟨L, -, hw⟩ := hc
    exact hw.currency
  refine .inr ⟨fun who hwho => ?_, fun source' target' schedule' htr' => ?_⟩
  · rw [hacc, Option.some.injEq] at hwho
    exact hwho ▸ hc.writtenAt
  · rw [htr, Option.some.injEq, Prod.mk.injEq, Prod.mk.injEq] at htr'
    obtain ⟨rfl, rfl, rfl⟩ := htr'
    exact ⟨hcurrency ▸ ht, hrecorded⟩

theorem Committed.inv_with {currency : Cur}
    (h : Committed { s with currency } who s') (hs : Inv s) : Inv s' :=
  h.inv ⟨hs.valid, hs.lock_isSome⟩

/-- **One entry point.**  From a state that keeps the invariant, an entry
point given `u128` amounts fails with the storage as it was, or succeeds with
`OkOutcome` and the invariant kept. -/
theorem Op.run_sat (hs : Inv s) (op : Op A) (hop : op.Fits) :
    Sat ((op.run cfg : M A Cur CurErr maxSchedules Unit) s) (fun _ s' => Inv s' ∧ OkOutcome cfg s op s')
      (fun _ s' => s' = s) := by
  cases op with
  | vest origin =>
    refine (vest_sat hs origin).imp (fun _ s' ⟨who, horigin, hc⟩ => ?_) (fun _ _ h => h)
    subst horigin
    exact ⟨hc.inv hs, okOutcome_of_committed cfg rfl rfl hc⟩
  | vestOther origin target =>
    exact (vestOther_sat hs origin target).imp
      (fun _ _ hc => ⟨hc.inv hs, okOutcome_of_committed cfg rfl rfl hc⟩) (fun _ _ h => h)
  | vestedTransfer origin target schedule =>
    cases origin with
    | signed transactor =>
      refine (doVestedTransfer_sat cfg hs transactor target schedule hop).imp
        (fun _ s' h => ⟨?_, okOutcome_of_transfer cfg rfl rfl h⟩) (fun _ _ h => h)
      obtain ⟨_, -, hc, -⟩ := h
      exact hc.inv_with hs
    | root => rfl
    | none => rfl
  | forceVestedTransfer origin source target schedule =>
    cases origin with
    | root =>
      refine (doVestedTransfer_sat cfg hs source target schedule hop).imp
        (fun _ s' h => ⟨?_, okOutcome_of_transfer cfg rfl rfl h⟩) (fun _ _ h => h)
      obtain ⟨_, -, hc, -⟩ := h
      exact hc.inv_with hs
    | signed _ => rfl
    | none => rfl
  | mergeSchedules origin schedule1Index schedule2Index =>
    refine (mergeSchedules_sat hs origin schedule1Index schedule2Index).imp
      (fun _ s' h => ?_) (fun _ _ h => h)
    rcases h with ⟨hij, rfl⟩ | ⟨who, rfl, hc⟩
    · -- the merge of an index with itself
      exact ⟨hs, .inl ⟨beq_iff_eq.mpr hij, rfl⟩⟩
    · exact ⟨hc.inv hs, okOutcome_of_committed cfg rfl rfl hc⟩
  | addVestingSchedule who locked perBlock startingBlock =>
    refine (addVestingSchedule_sat hs who locked perBlock startingBlock hop).imp
      (fun _ s' h => ?_) (fun _ _ h => h.1)
    rcases h with ⟨hzero, rfl⟩ | ⟨hc, -⟩
    · -- a zero amount
      exact ⟨hs, .inl ⟨beq_iff_eq.mpr hzero, rfl⟩⟩
    · exact ⟨hc.inv hs, okOutcome_of_committed cfg rfl rfl hc⟩
  | removeVestingSchedule who scheduleIndex =>
    exact (removeVestingSchedule_sat hs who scheduleIndex).imp
      (fun _ _ hc => ⟨hc.inv hs, okOutcome_of_committed cfg rfl rfl hc⟩) (fun _ _ h => h)

/-- **Step.**  An entry point, the next block, or a write of the currency keeps
the invariant. -/
theorem Step.apply_inv (hs : Inv s) (st : Step A Cur) (hst : st.Fits) : Inv (st.apply cfg s) := by
  cases st with
  | op o => exact applyCall_of_sat hs ((Op.run_sat cfg hs o hst).imp (fun _ _ h => h.1) (fun _ _ h => h))
  | newBlock => exact ⟨hs.valid, hs.lock_isSome⟩
  | currency c => exact ⟨hs.valid, hs.lock_isSome⟩

/-- **Run.**  Every run of steps with `u128` amounts keeps the invariant. -/
theorem run_inv {s₀ : St A Cur maxSchedules} (h₀ : Inv s₀) (steps : List (Step A Cur))
    (hsteps : ∀ st ∈ steps, st.Fits) : Inv (steps.foldl (Step.apply cfg) s₀) :=
  StepRun.foldl_invariant Inv (fun _ st => st.Fits) (fun _ st hs hst => Step.apply_inv cfg hs st hst) steps s₀ h₀
    (StepRun.guarded_of_forall s₀ hsteps)

end Runs

/-- **After every run, every entry point writes an entry and a lock that
agree**: from a state that keeps the invariant, the invariant holds after any
run, and each entry point meets its `Outcome`. -/
theorem vesting_calls_keep_lock_consistent (cfg : Config A Cur CurErr) (s₀ : St A Cur maxSchedules) (h₀ : Inv s₀)
    (steps : List (Step A Cur)) (hsteps : ∀ st ∈ steps, st.Fits) (op : Op A) (hop : op.Fits) :
    Inv (steps.foldl (Step.apply cfg) s₀) ∧ Outcome cfg (steps.foldl (Step.apply cfg) s₀) op := by
  have hs := run_inv cfg h₀ steps hsteps
  exact ⟨hs, (Op.run_sat cfg hs op hop).imp (fun _ _ h => h.2) (fun _ _ h => h)⟩

/-- A currency without storage whose transfers all go through, and no minimum. -/
def freeTransfers : Config Nat Unit Unit := ⟨0, fun _ _ _ _ _ currency => .ok currency⟩

/-- Account 1 is given at block 0 a schedule of 10 that vests in one block;
two blocks pass. -/
def vestThenWait : List (Step Nat Unit) := [.op (.addVestingSchedule 1 10 10 0), .newBlock, .newBlock]

theorem vesting_calls_keep_lock_consistent_vestThenWait :
    Inv (St.empty () : St Nat Unit 28) ∧ (∀ st ∈ vestThenWait, st.Fits) ∧ (Op.vest (.signed 1) : Op Nat).Fits ∧
      Inv (vestThenWait.foldl (Step.apply freeTransfers) (St.empty () : St Nat Unit 28)) ∧
      Outcome freeTransfers (vestThenWait.foldl (Step.apply freeTransfers) (St.empty () : St Nat Unit 28))
        (.vest (.signed 1)) :=
  ⟨Inv.empty (), by decide, trivial,
    vesting_calls_keep_lock_consistent freeTransfers _ (Inv.empty ()) vestThenWait (by decide) _ trivial⟩

/-- Two blocks after it was written, the schedule of account 1 has fully
vested, and its lock still holds 10: `merge_schedules` of index 0 with itself
returns `Ok` and leaves both as they are. -/
theorem merge_same_index_keeps_vested_schedule :
    ∃ s : St Nat Unit 28, vestThenWait.foldl (Step.apply freeTransfers) (St.empty ()) = s ∧
      (Op.mergeSchedules (.signed 1) 0 0).run freeTransfers s = .ok () s ∧
      (s.vesting 1).map (·.val) = some [⟨10, 10, 0⟩] ∧ (VestingInfo.mk 10 10 0).lockedAt s.blockNumber = 0 ∧
      s.locks 1 = some 10 := by
  refine ⟨_, rfl, rfl, ?_, ?_, ?_⟩ <;> decide

end PalletVesting
