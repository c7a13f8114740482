import CherryNode.Balances.Types

/-!
# pallet-vesting: a vesting schedule

A `VestingInfo` locks `locked` and unlocks `per_block` of it each block from
`starting_block` on: `locked_at(n)` is what is still locked at `n`, and
`ending_block_as_balance` the first block at which nothing is.
`merge_vesting_info` makes one schedule of two at `now`: the one still running
if the other ended, else one locking what both lock, from `now` (or the later
start) to the later end.

A schedule not ended at `now` still locks something (`lockedAt_pos`), so a
merge of two stored schedules is fit to be stored and locks something
(`mergeVestingInfo_valid`): the two `debug_assert!`s hold.  Balances are
`u128`, `checked_mul` and `saturating_add` stopping at `balanceMax`; block
numbers are `Nat` and `BlockNumberToBalance` the identity.
-/

namespace PalletVesting

open PalletBalances (balanceMax checkedMul saturatingAdd checkedMul_of_le saturatingAdd_le saturatingAdd_pos)

/-- `VestingInfo`; `rawPerBlock` is the field `per_block`, which only
`raw_per_block()` reads as it is. -/
structure VestingInfo where
  locked : Nat
  rawPerBlock : Nat
  startingBlock : Nat
  deriving DecidableEq, Repr

namespace VestingInfo

/-- `is_valid`: neither `locked` nor the raw `per_block` is zero. -/
def isValid (v : VestingInfo) : Bool := v.locked != 0 && v.rawPerBlock != 0

/-- `per_block()`: the raw `per_block`, but at least 1. -/
def perBlock (v : VestingInfo) : Nat := max v.rawPerBlock 1

/-- `locked_at(n)`. -/
def lockedAt (v : VestingInfo) (n : Nat) : Nat :=
  -- the blocks that count toward vesting, none before `starting_block`
  let vestedBlockCount := n - v.startingBlock
  match checkedMul vestedBlockCount v.perBlock with
  | some toUnlock => v.locked - toUnlock
  | none => 0

/-- `ending_block_as_balance`. -/
def endingBlockAsBalance (v : VestingInfo) : Nat :=
  let duration :=
    if v.perBlock ≥ v.locked then 1
    else v.locked / v.perBlock + if v.locked % v.perBlock = 0 then 0 else 1
  saturatingAdd v.startingBlock duration

end VestingInfo

/-- `merge_vesting_info`. -/
def mergeVestingInfo (now : Nat) (schedule1 schedule2 : VestingInfo) : Option VestingInfo :=
  let schedule1EndingBlock := schedule1.endingBlockAsBalance
  let schedule2EndingBlock := schedule2.endingBlockAsBalance
  match decide (schedule1EndingBlock ≤ now), decide (schedule2EndingBlock ≤ now) with
  | true, true => none
  | true, false => some schedule2
  | false, true => some schedule1
  | false, false =>
    let locked := saturatingAdd (schedule1.lockedAt now) (schedule2.lockedAt now)
    let endingBlock := max schedule1EndingBlock schedule2EndingBlock
    let startingBlock := max (max now schedule1.startingBlock) schedule2.startingBlock
    let perBlock :=
      let duration := max (endingBlock - startingBlock) 1
      max (locked / duration) 1
    some ⟨locked, perBlock, startingBlock⟩

namespace VestingInfo

variable {v : VestingInfo} {n : Nat}

/-- A schedule as storage keeps it: `is_valid`, and `locked` a `u128`. -/
structure Valid (v : VestingInfo) : Prop where
  locked_pos : 0 < v.locked
  rawPerBlock_pos : 0 < v.rawPerBlock
  locked_le : v.locked ≤ balanceMax

instance : DecidablePred Valid := fun v =>
  decidable_of_iff (0 < v.locked ∧ 0 < v.rawPerBlock ∧ v.locked ≤ balanceMax)
    ⟨fun ⟨h₁, h₂, h₃⟩ => ⟨h₁, h₂, h₃⟩, fun h => ⟨h.locked_pos, h.rawPerBlock_pos, h.locked_le⟩⟩

theorem isValid_iff : v.isValid = true ↔ 0 < v.locked ∧ 0 < v.rawPerBlock := by
  simp [isValid, Nat.pos_iff_ne_zero]

theorem one_le_perBlock : 1 ≤ v.perBlock := Nat.le_max_right _ _

theorem perBlock_of_pos (h : 0 < v.rawPerBlock) : v.perBlock = v.rawPerBlock := Nat.max_eq_left h

theorem lockedAt_of_le (h : n ≤ v.startingBlock) : v.lockedAt n = v.locked := by
  have hzero : n - v.startingBlock = 0 := Nat.sub_eq_zero_of_le h
  have hmul : checkedMul 0 v.perBlock = some 0 := by simp [checkedMul]
  simp only [lockedAt, hzero, hmul, Nat.sub_zero]

theorem mul_perBlock_lt_locked (hpos : 0 < v.locked) (hend : ¬ v.endingBlockAsBalance ≤ n) :
    (n - v.startingBlock) * v.perBlock < v.locked := by
  have hp := one_le_perBlock (v := v)
  simp only [endingBlockAsBalance, saturatingAdd] at hend
  split_ifs at hend with hge hmod
  · -- the schedule ends one block after its start: no block has counted yet
    rw [show n - v.startingBlock = 0 by omega, Nat.zero_mul]
    exact hpos
  · -- `per_block` divides `locked`: one block more would still unlock at most `locked`
    have hdiv := Nat.div_pos (Nat.le_of_lt (Nat.lt_of_not_le hge)) hp
    have h : (n - v.startingBlock + 1) * v.perBlock ≤ v.locked := (Nat.le_div_iff_mul_le hp).mp (by omega)
    rw [Nat.succ_mul] at h
    omega
  · -- the blocks counted unlock at most `locked`, and not all of it, since the division leaves a rest
    have hdiv := Nat.div_pos (Nat.le_of_lt (Nat.lt_of_not_le hge)) hp
    have h : (n - v.startingBlock) * v.perBlock ≤ v.locked := (Nat.le_div_iff_mul_le hp).mp (by omega)
    refine Nat.lt_of_le_of_ne h fun heq => hmod ?_
    rw [← heq]
    exact Nat.mul_mod_left _ v.perBlock

/-- **A schedule that has not ended still locks something.** -/
theorem lockedAt_pos (hpos : 0 < v.locked) (hle : v.locked ≤ balanceMax) (hend : ¬ v.endingBlockAsBalance ≤ n) :
    0 < v.lockedAt n := by
  have hc := mul_perBlock_lt_locked hpos hend
  simp only [lockedAt, checkedMul_of_le (Nat.le_trans (Nat.le_of_lt hc) hle)]
  omega

end VestingInfo

open VestingInfo

/-- **A merge of two stored schedules can be stored.**  What
`merge_vesting_info` returns is valid, a `u128` amount, and locks something at
`now`. -/
theorem mergeVestingInfo_valid {now : Nat} {schedule1 schedule2 r : VestingInfo} (h₁ : schedule1.Valid)
    (h₂ : schedule2.Valid) (h : mergeVestingInfo now schedule1 schedule2 = some r) : r.Valid ∧ 0 < r.lockedAt now := by
  simp only [mergeVestingInfo] at h
  -- the four cases of which schedules have ended
  split at h
  · cases h
  · rename_i hend₂
    cases h
    exact ⟨h₂, lockedAt_pos h₂.locked_pos h₂.locked_le (of_decide_eq_false hend₂)⟩
  · rename_i hend₁ _
    cases h
    exact ⟨h₁, lockedAt_pos h₁.locked_pos h₁.locked_le (of_decide_eq_false hend₁)⟩
  · rename_i hend₁ hend₂
    cases h
    -- the merged schedule starts at `now` or later, so all of it is locked now
    have hlocked : 0 < saturatingAdd (schedule1.lockedAt now) (schedule2.lockedAt now) :=
      saturatingAdd_pos (.inl (lockedAt_pos h₁.locked_pos h₁.locked_le (of_decide_eq_false hend₁)))
    refine ⟨⟨hlocked, Nat.lt_of_lt_of_le Nat.zero_lt_one (Nat.le_max_right _ _), saturatingAdd_le _ _⟩, ?_⟩
    rw [lockedAt_of_le (by dsimp only; omega)]
    exact hlocked

end PalletVesting
