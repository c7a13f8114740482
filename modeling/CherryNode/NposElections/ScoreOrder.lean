import Mathlib
import CherryNode.NposElections.Basic

/-!
# sp-npos-elections: `is_score_better` is a strict order

`ThresholdOrd::tcmp(self, other, threshold)` says `Greater` above
`other + threshold` and `Less` below `other - threshold`, both saturating;
`is_score_better` compares the three components so, each with threshold
`epsilon.mul_ceil(that[i])`, lexicographically, minimizing the third.

Over `u128` a `Greater` is a strict increase and a `Less` a strict decrease
whatever the threshold (`lt_of_tcmp_eq_gt`, `lt_of_tcmp_eq_lt`), so
`is_score_better` only accepts a strictly better score in the order
`desirability` (`desirability_lt_of_isScoreBetter`), and is irreflexive and
asymmetric; with a zero `epsilon` it is that order (`isScoreBetter_zero`).
-/

namespace NposElections

open SpArithmetic

/-- Every component of the score is a `u128`. -/
def ElectionScore.IsU128 (s : ElectionScore) : Prop :=
  s.minimalStake ≤ u128Max ∧ s.sumStake ≤ u128Max ∧ s.sumStakeSquared ≤ u128Max

/-- How good a score is: more minimal stake, then more stake, then a smaller
sum of squares. -/
def ElectionScore.desirability (s : ElectionScore) : Lex (ℕ × Lex (ℕ × ℕᵒᵈ)) :=
  toLex (s.minimalStake, toLex (s.sumStake, OrderDual.toDual s.sumStakeSquared))

theorem ElectionScore.desirability_lt_iff (a b : ElectionScore) :
    a.desirability < b.desirability ↔
      a.minimalStake < b.minimalStake ∨ (a.minimalStake = b.minimalStake ∧
        (a.sumStake < b.sumStake ∨
          (a.sumStake = b.sumStake ∧ b.sumStakeSquared < a.sumStakeSquared))) := by
  simp only [ElectionScore.desirability, Prod.Lex.toLex_lt_toLex, OrderDual.toDual_lt_toDual]

/-! ## `tcmp` -/

section Tcmp

variable {x y t : Nat}

theorem tcmp_zero (x y : Nat) : tcmp x y 0 = compare x y := by
  simp [tcmp]

/-- `Greater` means above: the upper bound is at least `other` when `other`
is a `u128`. -/
theorem lt_of_tcmp_eq_gt (hy : y ≤ u128Max) (h : tcmp x y t = .gt) : y < x := by
  simp only [tcmp] at h
  split_ifs at h
  · exact compare_gt_iff_gt.mp h
  · exact compare_gt_iff_gt.mp h
  · -- only `(Greater, Greater)` gives `Greater`: `self` is above the upper bound
    have hup : compare x (u128SaturatingAdd y t) = .gt := by
      revert h
      cases compare x (y - t) <;> cases compare x (u128SaturatingAdd y t) <;> simp
    have := compare_gt_iff_gt.mp hup
    simp only [u128SaturatingAdd] at this
    omega

/-- `Less` means below: the lower bound is at most `other`. -/
theorem lt_of_tcmp_eq_lt (h : tcmp x y t = .lt) : x < y := by
  simp only [tcmp] at h
  split_ifs at h
  · exact compare_lt_iff_lt.mp h
  · exact compare_lt_iff_lt.mp h
  · -- only `(Less, Less)` gives `Less`: `self` is below the lower bound
    have hlow : compare x (y - t) = .lt := by
      revert h
      cases compare x (y - t) <;> cases compare x (u128SaturatingAdd y t) <;> simp
    have := compare_lt_iff_lt.mp hlow
    omega

end Tcmp

/-! ## `is_score_better` -/

section Better

variable {accuracy : Nat}

/-- The match of `is_score_better` as a formula over the three comparisons. -/
theorem isScoreBetter_iff (this that : ElectionScore) (epsilon : PerThing accuracy) :
    isScoreBetter this that epsilon = true ↔
      tcmp this.minimalStake that.minimalStake (epsilon.mulCeil that.minimalStake) = .gt ∨
      (that.minimalStake ≤ this.minimalStake ∧
        tcmp this.minimalStake that.minimalStake (epsilon.mulCeil that.minimalStake) = .eq ∧
        tcmp this.sumStake that.sumStake (epsilon.mulCeil that.sumStake) = .gt) ∨
      (that.minimalStake ≤ this.minimalStake ∧
        tcmp this.minimalStake that.minimalStake (epsilon.mulCeil that.minimalStake) = .eq ∧
        that.sumStake ≤ this.sumStake ∧
        tcmp this.sumStake that.sumStake (epsilon.mulCeil that.sumStake) = .eq ∧
        tcmp this.sumStakeSquared that.sumStakeSquared (epsilon.mulCeil that.sumStakeSquared) = .lt) := by
  unfold isScoreBetter
  dsimp only
  -- the nine outcomes of the three comparisons, and the two `ge` flags that matter
  cases tcmp this.minimalStake that.minimalStake (epsilon.mulCeil that.minimalStake) <;>
    cases tcmp this.sumStake that.sumStake (epsilon.mulCeil that.sumStake) <;>
    cases tcmp this.sumStakeSquared that.sumStakeSquared (epsilon.mulCeil that.sumStakeSquared) <;>
    by_cases h0 : that.minimalStake ≤ this.minimalStake <;>
    by_cases h1 : that.sumStake ≤ this.sumStake <;>
    simp [h0, h1]

/-- A score `is_score_better` accepts is strictly more desirable, when the one
it beats is made of `u128`s. -/
theorem desirability_lt_of_isScoreBetter {this that : ElectionScore} {epsilon : PerThing accuracy}
    (hthat : that.IsU128) (h : isScoreBetter this that epsilon = true) :
    that.desirability < this.desirability := by
  obtain ⟨h0, h1, h2⟩ := hthat
  rw [ElectionScore.desirability_lt_iff]
  rcases (isScoreBetter_iff this that epsilon).mp h with hgt | ⟨hge, -, hgt⟩ | ⟨hge, -, hge', -, hlt⟩
  · exact .inl (lt_of_tcmp_eq_gt h0 hgt)
  · -- equal within the threshold on the first, better on the second
    have := lt_of_tcmp_eq_gt h1 hgt
    rcases Nat.lt_or_eq_of_le hge with h | h
    · exact .inl h
    · exact .inr ⟨h, .inl this⟩
  · have := lt_of_tcmp_eq_lt hlt
    rcases Nat.lt_or_eq_of_le hge with h | h
    · exact .inl h
    · rcases Nat.lt_or_eq_of_le hge' with h' | h'
      · exact .inr ⟨h, .inl h'⟩
      · exact .inr ⟨h, .inr ⟨h', this⟩⟩

/-- With a zero `epsilon`, `is_score_better` is the lexicographic order. -/
theorem isScoreBetter_zero (this that : ElectionScore) :
    isScoreBetter this that (PerThing.zero : PerThing accuracy) = true ↔
      that.desirability < this.desirability := by
  rw [isScoreBetter_iff, ElectionScore.desirability_lt_iff]
  simp only [PerThing.zero_mulCeil, tcmp_zero, compare_gt_iff_gt, compare_eq_iff_eq,
    compare_lt_iff_lt]
  omega

end Better

theorem isScoreBetter_strict_order {accuracy : Nat} (epsilon : PerThing accuracy) (a b : ElectionScore)
    (ha : a.IsU128) (hb : b.IsU128) :
    isScoreBetter a a epsilon = false ∧
      ¬ (isScoreBetter a b epsilon = true ∧ isScoreBetter b a epsilon = true) ∧
      (isScoreBetter a b (PerThing.zero : PerThing accuracy) = true ↔
        b.minimalStake < a.minimalStake ∨ (b.minimalStake = a.minimalStake ∧
          (b.sumStake < a.sumStake ∨
            (b.sumStake = a.sumStake ∧ a.sumStakeSquared < b.sumStakeSquared)))) := by
  refine ⟨?_, ?_, by rw [isScoreBetter_zero, ElectionScore.desirability_lt_iff]⟩
  · cases h : isScoreBetter a a epsilon
    · rfl
    · exact absurd (desirability_lt_of_isScoreBetter ha h) (lt_irrefl _)
  · rintro ⟨hab, hba⟩
    exact lt_asymm (desirability_lt_of_isScoreBetter hb hab) (desirability_lt_of_isScoreBetter ha hba)

theorem isScoreBetter_strict_order_perbill :
    isScoreBetter ⟨10, 100, 1000⟩ ⟨10, 100, 1000⟩ (⟨50000000, by decide⟩ : PerThing 1000000000) = false ∧
      ¬ (isScoreBetter ⟨10, 100, 1000⟩ ⟨11, 90, 900⟩ (⟨50000000, by decide⟩ : PerThing 1000000000) = true ∧
        isScoreBetter ⟨11, 90, 900⟩ ⟨10, 100, 1000⟩ (⟨50000000, by decide⟩ : PerThing 1000000000) = true) :=
  let h := isScoreBetter_strict_order (⟨50000000, by decide⟩ : PerThing 1000000000) ⟨10, 100, 1000⟩
    ⟨11, 90, 900⟩ ⟨by decide, by decide, by decide⟩ ⟨by decide, by decide, by decide⟩
  ⟨h.1, h.2.1⟩

end NposElections
