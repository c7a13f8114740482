import CherryNode.Vesting.VestingInfo

/-!
# pallet-vesting: a merge never unlocks earlier

When both schedules still run at `now`, `merge_vesting_info` replaces them by
one that locks `L = s1.locked_at(now) + s2.locked_at(now)` from
`S = max(now, start1, start2)` on and unlocks `L / (E - S)` a block, with
`E = max(e1, e2)`.  The floor division and the clamp of `per_block` to at least
1 could make it unlock faster than the two did, and `S` may lie after `now`.

Neither happens.  Each `locked_at` is a line clipped at zero (`lockedAt_eq`),
so from a block `S` after its start it stays below the chord from its value at
`S` to zero after its end (`mul_lockedAt_le`); the merged line starts at `L`
and loses at most `L / (E - S)` a block, staying above the sum of the chords
(`sum_lockedAt_le_merged`).  The clamp is never reached, since the blocks left
to a schedule's end are at most what it locks (`sub_le_lockedAt`), and the
merged end is at least `E` (`le_endingBlockAsBalance_merged`).  All this holds
when neither `ending_block_as_balance` nor the sum at `now` saturates.
-/

namespace PalletVesting

open PalletBalances (balanceMax checkedMul saturatingAdd saturatingAdd_le)

/-! ## Two bounds on lines -/

section Chord

variable {a p t D L P : Nat}

theorem mul_sub_mul_le (ha : a ≤ D * p) : D * (a - t * p) ≤ a * (D - t) := by
  rcases Nat.le_total a (t * p) with h | h
  · rw [Nat.sub_eq_zero_of_le h, Nat.mul_zero]
    exact Nat.zero_le _
  · -- `D * (t * p) = t * (D * p) ≥ t * a`
    have hta : t * a ≤ t * (D * p) := Nat.mul_le_mul_left t ha
    have hcomm : D * (t * p) = t * (D * p) := Nat.mul_left_comm D t p
    rw [Nat.mul_sub, Nat.mul_sub, Nat.mul_comm a D, Nat.mul_comm a t]
    omega

theorem mul_sub_le_mul_sub (hP : P * D ≤ L) : L * (D - t) ≤ D * (L - t * P) := by
  -- `D * (t * P) = t * (P * D) ≤ t * L ≤ D * L`
  have htP : t * (P * D) ≤ t * L := Nat.mul_le_mul_left t hP
  have hcomm : D * (t * P) = t * (P * D) := by rw [Nat.mul_comm P D, Nat.mul_left_comm]
  rw [Nat.mul_sub, Nat.mul_sub, Nat.mul_comm L D, Nat.mul_comm L t]
  omega

end Chord

namespace VestingInfo

variable {v : VestingInfo} {n S E : Nat}

/-- The `duration` of `ending_block_as_balance`. -/
def duration (v : VestingInfo) : Nat :=
  if v.perBlock ≥ v.locked then 1
  else v.locked / v.perBlock + if v.locked % v.perBlock = 0 then 0 else 1

theorem endingBlockAsBalance_eq (v : VestingInfo) :
    v.endingBlockAsBalance = saturatingAdd v.startingBlock v.duration := rfl

/-! ## `duration` is `locked / per_block` rounded up -/

theorem locked_le_duration_mul : v.locked ≤ v.duration * v.perBlock := by
  have hp := one_le_perBlock (v := v)
  have hdiv := Nat.div_add_mod v.locked v.perBlock
  have hcomm : v.perBlock * (v.locked / v.perBlock) = v.locked / v.perBlock * v.perBlock :=
    Nat.mul_comm _ _
  unfold duration
  split_ifs with hge hmod
  · omega
  · -- `per_block` divides `locked`
    rw [Nat.add_zero]
    omega
  · -- one more block for the rest of the division
    have hrest := Nat.mod_lt v.locked hp
    rw [Nat.add_mul, Nat.one_mul]
    omega

theorem le_duration_of_mul_le {d : Nat} (h : d * v.perBlock ≤ v.locked) : d ≤ v.duration := by
  have hp := one_le_perBlock (v := v)
  have hd : d ≤ v.locked / v.perBlock := (Nat.le_div_iff_mul_le hp).mpr h
  unfold duration
  split_ifs with hge
  · -- `d * per_block ≤ locked ≤ 1 * per_block`
    exact Nat.le_of_mul_le_mul_right (by omega) hp
  · omega
  · omega

theorem one_le_duration : 1 ≤ v.duration := by
  unfold duration
  split_ifs with hge
  · exact Nat.le_refl 1
  all_goals
    -- `per_block < locked`, so at least one whole block
    have : 1 ≤ v.locked / v.perBlock := (Nat.le_div_iff_mul_le one_le_perBlock).mpr (by omega)
    omega

theorem endingBlockAsBalance_of_le (hsat : v.startingBlock + v.duration ≤ balanceMax) :
    v.endingBlockAsBalance = v.startingBlock + v.duration := by
  rw [endingBlockAsBalance_eq, saturatingAdd, Nat.min_eq_left hsat]

/-! ## `locked_at` is a line clipped at zero -/

/-- With `locked` a `u128`, `locked_at` is the truncated line: a `checked_mul`
that overflows would have unlocked everything anyway. -/
theorem lockedAt_eq (hle : v.locked ≤ balanceMax) (n : Nat) :
    v.lockedAt n = v.locked - (n - v.startingBlock) * v.perBlock := by
  unfold lockedAt checkedMul
  dsimp only
  split_ifs with h
  · rfl
  · -- an overflowing product is past everything `locked` can be
    show 0 = _
    omega

theorem lockedAt_antitone (hle : v.locked ≤ balanceMax) {n n' : Nat} (h : n ≤ n') :
    v.lockedAt n' ≤ v.lockedAt n := by
  have hmul : (n - v.startingBlock) * v.perBlock ≤ (n' - v.startingBlock) * v.perBlock :=
    Nat.mul_le_mul_right _ (by omega)
  rw [lockedAt_eq hle, lockedAt_eq hle]
  omega

theorem lockedAt_add (hle : v.locked ≤ balanceMax) (hS : v.startingBlock ≤ S) (t : Nat) :
    v.lockedAt (S + t) = v.lockedAt S - t * v.perBlock := by
  rw [lockedAt_eq hle, lockedAt_eq hle, show S + t - v.startingBlock = S - v.startingBlock + t by omega,
    Nat.add_mul, Nat.sub_add_eq]

/-- Without saturation, a schedule that has ended locks nothing. -/
theorem lockedAt_of_ended (hle : v.locked ≤ balanceMax) (hsat : v.startingBlock + v.duration ≤ balanceMax)
    (h : v.endingBlockAsBalance ≤ n) : v.lockedAt n = 0 := by
  rw [endingBlockAsBalance_of_le hsat] at h
  have hmul : v.duration * v.perBlock ≤ (n - v.startingBlock) * v.perBlock :=
    Nat.mul_le_mul_right _ (by omega)
  have := locked_le_duration_mul (v := v)
  rw [lockedAt_eq hle]
  omega

/-- **The blocks left to a schedule's end are at most what it still locks.** -/
theorem sub_le_lockedAt (hpos : 0 < v.locked) (hle : v.locked ≤ balanceMax) (hS : v.startingBlock ≤ S) :
    v.endingBlockAsBalance - S ≤ v.lockedAt S := by
  by_cases hend : v.endingBlockAsBalance ≤ S
  · rw [Nat.sub_eq_zero_of_le hend]
    exact Nat.zero_le _
  · -- the block before the end still locks something
    have hlast := mul_perBlock_lt_locked (n := v.endingBlockAsBalance - 1) hpos (by omega)
    have hsplit : (v.endingBlockAsBalance - 1 - v.startingBlock) * v.perBlock =
        (S - v.startingBlock) * v.perBlock + (v.endingBlockAsBalance - 1 - S) * v.perBlock := by
      rw [← Nat.add_mul]
      congr 1
      omega
    have hblocks : v.endingBlockAsBalance - 1 - S ≤ (v.endingBlockAsBalance - 1 - S) * v.perBlock :=
      Nat.le_mul_of_pos_right _ one_le_perBlock
    rw [lockedAt_eq hle]
    omega

theorem lockedAt_le_mul (hle : v.locked ≤ balanceMax) (hsat : v.startingBlock + v.duration ≤ balanceMax)
    (hS : v.startingBlock ≤ S) (hE : v.endingBlockAsBalance ≤ E) :
    v.lockedAt S ≤ (E - S) * v.perBlock := by
  by_cases hend : v.endingBlockAsBalance ≤ S
  · rw [lockedAt_of_ended hle hsat hend]
    exact Nat.zero_le _
  · -- at the end, `e - S` blocks after `S`, nothing is left
    have hzero := lockedAt_of_ended hle hsat (n := S + (v.endingBlockAsBalance - S)) (by omega)
    rw [lockedAt_add hle hS] at hzero
    have hmul : (v.endingBlockAsBalance - S) * v.perBlock ≤ (E - S) * v.perBlock :=
      Nat.mul_le_mul_right _ (by omega)
    omega

/-- **The chord bound.**  Seen from a block `S` after its start, a schedule
stays below the line from what it locks at `S` down to zero at `E`. -/
theorem mul_lockedAt_le (hle : v.locked ≤ balanceMax) (hsat : v.startingBlock + v.duration ≤ balanceMax)
    (hS : v.startingBlock ≤ S) (hE : v.endingBlockAsBalance ≤ E) (hn : S ≤ n) (hnE : n ≤ E) :
    (E - S) * v.lockedAt n ≤ v.lockedAt S * (E - n) := by
  have hline : v.lockedAt n = v.lockedAt S - (n - S) * v.perBlock := by
    rw [← lockedAt_add hle hS, Nat.add_sub_cancel' hn]
  rw [hline, show E - n = E - S - (n - S) by omega]
  exact mul_sub_mul_le (lockedAt_le_mul hle hsat hS hE)

end VestingInfo

open VestingInfo

/-! ## The merged schedule -/

section Merged

variable {v₁ v₂ : VestingInfo} {now S E L P : Nat}

/-- **A schedule that starts at `S` with everything the two lock at `now`, and
unlocks at most `L / (E - S)` a block, locks at least as much as the two at
every block from `now` on.** -/
theorem sum_lockedAt_le_merged (hv₁ : v₁.Valid) (hv₂ : v₂.Valid)
    (hsat₁ : v₁.startingBlock + v₁.duration ≤ balanceMax) (hsat₂ : v₂.startingBlock + v₂.duration ≤ balanceMax)
    (hS₁ : v₁.startingBlock ≤ S) (hS₂ : v₂.startingBlock ≤ S) (hnow : now ≤ S)
    (hE₁ : v₁.endingBlockAsBalance ≤ E) (hE₂ : v₂.endingBlockAsBalance ≤ E) (hSE : S < E)
    (hL : L = v₁.lockedAt now + v₂.lockedAt now) (hLmax : L ≤ balanceMax)
    (hP₁ : 1 ≤ P) (hP : P * (E - S) ≤ L) {n : Nat} (hn : now ≤ n) :
    v₁.lockedAt n + v₂.lockedAt n ≤ (⟨L, P, S⟩ : VestingInfo).lockedAt n := by
  have hmerged : (⟨L, P, S⟩ : VestingInfo).lockedAt n = L - (n - S) * P := by
    rw [lockedAt_eq hLmax]
    simp only [perBlock, Nat.max_eq_left hP₁]
  have hmono₁ := lockedAt_antitone hv₁.locked_le hnow
  have hmono₂ := lockedAt_antitone hv₂.locked_le hnow
  rcases Nat.le_total n S with hnS | hSn
  · -- up to `S` the merged schedule locks all of `L`
    rw [lockedAt_of_le (v := ⟨L, P, S⟩) hnS]
    dsimp only
    have := lockedAt_antitone hv₁.locked_le hn
    have := lockedAt_antitone hv₂.locked_le hn
    omega
  rcases Nat.le_total E n with hEn | hnE
  · -- from `E` on both schedules have ended
    rw [lockedAt_of_ended hv₁.locked_le hsat₁ (by omega), lockedAt_of_ended hv₂.locked_le hsat₂ (by omega)]
    exact Nat.zero_le _
  · -- between `S` and `E`: the sum of the chords, scaled by `E - S`
    have hc₁ := mul_lockedAt_le hv₁.locked_le hsat₁ hS₁ hE₁ hSn hnE
    have hc₂ := mul_lockedAt_le hv₂.locked_le hsat₂ hS₂ hE₂ hSn hnE
    have hchord : (E - S) * (v₁.lockedAt n + v₂.lockedAt n) ≤
        (v₁.lockedAt S + v₂.lockedAt S) * (E - S - (n - S)) := by
      rw [Nat.mul_add, Nat.add_mul, show E - S - (n - S) = E - n by omega]
      exact Nat.add_le_add hc₁ hc₂
    have hsum : (v₁.lockedAt S + v₂.lockedAt S) * (E - S - (n - S)) ≤ L * (E - S - (n - S)) :=
      Nat.mul_le_mul_right _ (by omega)
    have hline := mul_sub_le_mul_sub hP (t := n - S)
    rw [hmerged]
    exact Nat.le_of_mul_le_mul_left (Nat.le_trans hchord (Nat.le_trans hsum hline)) (by omega)

/-- The merged schedule ends no earlier than `E` when its `E - S` blocks unlock
at most `L`. -/
theorem le_endingBlockAsBalance_merged (hP₁ : 1 ≤ P) (hP : P * (E - S) ≤ L) (hSE : S ≤ E)
    (hE : E ≤ balanceMax) : E ≤ (⟨L, P, S⟩ : VestingInfo).endingBlockAsBalance := by
  have hd : E - S ≤ (⟨L, P, S⟩ : VestingInfo).duration := by
    apply le_duration_of_mul_le
    simp only [perBlock, Nat.max_eq_left hP₁]
    rw [Nat.mul_comm]
    exact hP
  rw [endingBlockAsBalance_eq, saturatingAdd]
  dsimp only
  omega

end Merged

/-! ## `merge_vesting_info` -/

section MergeVestingInfo

variable {now : Nat} {schedule1 schedule2 : VestingInfo}

theorem mergeVestingInfo_of_ended (h₁ : schedule1.endingBlockAsBalance ≤ now)
    (h₂ : schedule2.endingBlockAsBalance ≤ now) : mergeVestingInfo now schedule1 schedule2 = none := by
  simp [mergeVestingInfo, h₁, h₂]

theorem mergeVestingInfo_of_ended_left (h₁ : schedule1.endingBlockAsBalance ≤ now)
    (h₂ : ¬ schedule2.endingBlockAsBalance ≤ now) : mergeVestingInfo now schedule1 schedule2 = some schedule2 := by
  simp [mergeVestingInfo, h₁, h₂]

theorem mergeVestingInfo_of_ended_right (h₁ : ¬ schedule1.endingBlockAsBalance ≤ now)
    (h₂ : schedule2.endingBlockAsBalance ≤ now) : mergeVestingInfo now schedule1 schedule2 = some schedule1 := by
  simp [mergeVestingInfo, h₁, h₂]

theorem mergeVestingInfo_of_running (h₁ : ¬ schedule1.endingBlockAsBalance ≤ now)
    (h₂ : ¬ schedule2.endingBlockAsBalance ≤ now)
    (hsum : schedule1.lockedAt now + schedule2.lockedAt now ≤ balanceMax)
    (hD : 1 ≤ max schedule1.endingBlockAsBalance schedule2.endingBlockAsBalance -
      max (max now schedule1.startingBlock) schedule2.startingBlock) :
    mergeVestingInfo now schedule1 schedule2 =
      some ⟨schedule1.lockedAt now + schedule2.lockedAt now,
        max ((schedule1.lockedAt now + schedule2.lockedAt now) /
          (max schedule1.endingBlockAsBalance schedule2.endingBlockAsBalance -
            max (max now schedule1.startingBlock) schedule2.startingBlock)) 1,
        max (max now schedule1.startingBlock) schedule2.startingBlock⟩ := by
  simp only [mergeVestingInfo, h₁, h₂, decide_false, saturatingAdd, Nat.min_eq_left hsum,
    Nat.max_eq_left hD]

theorem kept_spec {v w : VestingInfo} (hv : v.Valid) (hw : w.Valid)
    (hsat : v.startingBlock + v.duration ≤ balanceMax) (hend : v.endingBlockAsBalance ≤ now)
    (hrun : ¬ w.endingBlockAsBalance ≤ now) :
    w.isValid = true ∧ (∀ n, now ≤ n → v.lockedAt n + w.lockedAt n = w.lockedAt n) ∧
      max v.endingBlockAsBalance w.endingBlockAsBalance ≤ w.endingBlockAsBalance := by
  refine ⟨isValid_iff.mpr ⟨hw.locked_pos, hw.rawPerBlock_pos⟩, fun n hn => ?_, by omega⟩
  rw [lockedAt_of_ended hv.locked_le hsat (by omega), Nat.zero_add]

theorem merged_spec (hv₁ : schedule1.Valid) (hv₂ : schedule2.Valid)
    (hsat₁ : schedule1.startingBlock + schedule1.duration ≤ balanceMax)
    (hsat₂ : schedule2.startingBlock + schedule2.duration ≤ balanceMax)
    (hsum : schedule1.lockedAt now + schedule2.lockedAt now ≤ balanceMax)
    (h₁ : ¬ schedule1.endingBlockAsBalance ≤ now) (h₂ : ¬ schedule2.endingBlockAsBalance ≤ now)
    {m : VestingInfo} (hm : mergeVestingInfo now schedule1 schedule2 = some m) :
    m.isValid = true ∧ m.lockedAt now = schedule1.lockedAt now + schedule2.lockedAt now ∧
      (∀ n, now ≤ n → schedule1.lockedAt n + schedule2.lockedAt n ≤ m.lockedAt n) ∧
      max schedule1.endingBlockAsBalance schedule2.endingBlockAsBalance ≤ m.endingBlockAsBalance := by
  have he₁ := endingBlockAsBalance_of_le hsat₁
  have he₂ := endingBlockAsBalance_of_le hsat₂
  have hd₁ := one_le_duration (v := schedule1)
  have hd₂ := one_le_duration (v := schedule2)
  -- the merged schedule runs from `S` to `E`, and `S < E`
  generalize hE : max schedule1.endingBlockAsBalance schedule2.endingBlockAsBalance = E
  generalize hS : max (max now schedule1.startingBlock) schedule2.startingBlock = S
  have hSE : S < E := by omega
  -- the clamp is never reached: `E - S` blocks are at most what the two lock
  have hES : E - S ≤ schedule1.lockedAt now + schedule2.lockedAt now := by
    have hl₁ := sub_le_lockedAt (S := S) hv₁.locked_pos hv₁.locked_le (by omega)
    have hl₂ := sub_le_lockedAt (S := S) hv₂.locked_pos hv₂.locked_le (by omega)
    have hm₁ := lockedAt_antitone hv₁.locked_le (show now ≤ S by omega)
    have hm₂ := lockedAt_antitone hv₂.locked_le (show now ≤ S by omega)
    omega
  have hP₁ : 1 ≤ (schedule1.lockedAt now + schedule2.lockedAt now) / (E - S) :=
    Nat.div_pos hES (by omega)
  have hP := Nat.div_mul_le_self (schedule1.lockedAt now + schedule2.lockedAt now) (E - S)
  rw [mergeVestingInfo_of_running h₁ h₂ hsum (by omega), hE, hS, Nat.max_eq_left hP₁,
    Option.some_inj] at hm
  subst hm
  refine ⟨isValid_iff.mpr ⟨by dsimp only; omega, by dsimp only; omega⟩,
    lockedAt_of_le (by dsimp only; omega), fun n hn => ?_, ?_⟩
  · exact sum_lockedAt_le_merged hv₁ hv₂ hsat₁ hsat₂ (by omega) (by omega) (by omega) (by omega)
      (by omega) hSE rfl (by omega) hP₁ hP hn
  · have hEmax : E ≤ balanceMax := by
      rw [← hE]
      exact Nat.max_le.mpr ⟨he₁ ▸ hsat₁, he₂ ▸ hsat₂⟩
    exact le_endingBlockAsBalance_merged hP₁ hP (Nat.le_of_lt hSE) hEmax

end MergeVestingInfo

theorem mergeVestingInfo_spec {now : Nat} {schedule1 schedule2 : VestingInfo}
    (h₁ : schedule1.Valid) (h₂ : schedule2.Valid)
    (hsat₁ : schedule1.startingBlock + schedule1.duration ≤ balanceMax)
    (hsat₂ : schedule2.startingBlock + schedule2.duration ≤ balanceMax)
    (hsum : schedule1.lockedAt now + schedule2.lockedAt now ≤ balanceMax) :
    (mergeVestingInfo now schedule1 schedule2 = none ↔
        schedule1.endingBlockAsBalance ≤ now ∧ schedule2.endingBlockAsBalance ≤ now) ∧
      (schedule1.endingBlockAsBalance ≤ now → ¬ schedule2.endingBlockAsBalance ≤ now →
        mergeVestingInfo now schedule1 schedule2 = some schedule2) ∧
      (¬ schedule1.endingBlockAsBalance ≤ now → schedule2.endingBlockAsBalance ≤ now →
        mergeVestingInfo now schedule1 schedule2 = some schedule1) ∧
      ∀ m, mergeVestingInfo now schedule1 schedule2 = some m →
        m.isValid = true ∧ m.lockedAt now = schedule1.lockedAt now + schedule2.lockedAt now ∧
        (∀ n, now ≤ n → schedule1.lockedAt n + schedule2.lockedAt n ≤ m.lockedAt n) ∧
        max schedule1.endingBlockAsBalance schedule2.endingBlockAsBalance ≤ m.endingBlockAsBalance := by
  refine ⟨?_, mergeVestingInfo_of_ended_left, mergeVestingInfo_of_ended_right, fun m hm => ?_⟩
  · constructor
    · intro hnone
      by_cases he₁ : schedule1.endingBlockAsBalance ≤ now <;>
        by_cases he₂ : schedule2.endingBlockAsBalance ≤ now
      · exact ⟨he₁, he₂⟩
      · simp [mergeVestingInfo_of_ended_left he₁ he₂] at hnone
      · simp [mergeVestingInfo_of_ended_right he₁ he₂] at hnone
      · simp [mergeVestingInfo, he₁, he₂] at hnone
    · rintro ⟨he₁, he₂⟩
      exact mergeVestingInfo_of_ended he₁ he₂
  · -- which schedules have ended decides what comes back
    by_cases he₁ : schedule1.endingBlockAsBalance ≤ now <;>
      by_cases he₂ : schedule2.endingBlockAsBalance ≤ now
    · rw [mergeVestingInfo_of_ended he₁ he₂] at hm
      cases hm
    · rw [mergeVestingInfo_of_ended_left he₁ he₂, Option.some_inj] at hm
      subst hm
      obtain ⟨hvalid, hsame, hend⟩ := kept_spec h₁ h₂ hsat₁ he₁ he₂
      exact ⟨hvalid, (hsame now (Nat.le_refl now)).symm, fun n hn => Nat.le_of_eq (hsame n hn), hend⟩
    · rw [mergeVestingInfo_of_ended_right he₁ he₂, Option.some_inj] at hm
      subst hm
      obtain ⟨hvalid, hsame, hend⟩ := kept_spec h₂ h₁ hsat₂ he₂ he₁
      refine ⟨hvalid, ?_, fun n hn => ?_, by rw [Nat.max_comm]; exact hend⟩
      · rw [Nat.add_comm]
        exact (hsame now (Nat.le_refl now)).symm
      · rw [Nat.add_comm]
        exact Nat.le_of_eq (hsame n hn)
    · exact merged_spec h₁ h₂ hsat₁ hsat₂ hsum he₁ he₂ hm

theorem mergeVestingInfo_spec_two_schedules :
    mergeVestingInfo 3 ⟨100, 10, 0⟩ ⟨50, 5, 5⟩ = some ⟨120, 12, 5⟩ ∧
      ∀ n, 3 ≤ n → (⟨100, 10, 0⟩ : VestingInfo).lockedAt n + (⟨50, 5, 5⟩ : VestingInfo).lockedAt n ≤
        (⟨120, 12, 5⟩ : VestingInfo).lockedAt n := by
  have hmerge : mergeVestingInfo 3 ⟨100, 10, 0⟩ ⟨50, 5, 5⟩ = some ⟨120, 12, 5⟩ := by decide
  exact ⟨hmerge, ((mergeVestingInfo_spec (by decide) (by decide) (by decide) (by decide) (by decide)).2.2.2
    _ hmerge).2.2.1⟩

end PalletVesting
