import Mathlib

/-!
# Estimating one quotient digit

Long division in base `b` finds each digit of the quotient of a window `W` by
the divisor `V`, `W < V * b`, from leading digits only (Knuth, vol. 2, 4.3.1,
algorithm D, step D3).  With `D` a power of the base, `W / D = t2 * b + w2` and
`V / D = v1 * b + v2`.  The estimate starts at `t2 / v1` and is lowered while it
is at least `b` or fails `qhat * (v1 * b + v2) ≤ t2 * b + w2`.

The true digit `W / V` is never above the estimate (`div_le_estimate`), stays
at or below it when the test fires (`div_lt_of_test`), and is at most one below
once the test passes (`le_div_succ_of_test_pass`) or the remainder reaches `b`
(`le_div_succ_of_rhat`).  None needs the divisor normalised.
-/

namespace QuotientDigit

section

variable {b D W V t2 w2 v1 v2 : Nat}

theorem mul_le_of_div_eq (hV : V / D = v1 * b + v2) : (v1 * b + v2) * D ≤ V := by
  rw [← hV]
  exact Nat.div_mul_le_self V D

theorem lt_of_div_eq (hV : V / D = v1 * b + v2) (hD : 0 < D) : V < (v1 * b + v2 + 1) * D := by
  rw [← hV, Nat.add_mul, Nat.one_mul]
  exact Nat.lt_div_mul_add hD

theorem lt_succ_mul (hw2 : w2 < b) (hD : 0 < D) (hW : W / D = t2 * b + w2) : W < (t2 + 1) * (b * D) :=
  calc W < (t2 * b + w2 + 1) * D := lt_of_div_eq hW hD
    _ ≤ (t2 + 1) * (b * D) := by nlinarith

/-- The estimate `t2 / v1` from the leading digits is never below the digit. -/
theorem div_le_estimate (hv1 : 0 < v1) (hw2 : w2 < b) (hD : 0 < D)
    (hW : W / D = t2 * b + w2) (hV : V / D = v1 * b + v2) : W / V ≤ t2 / v1 := by
  have hbD : 0 < b * D := Nat.mul_pos (by omega) hD
  have hVlow : v1 * (b * D) ≤ V := by
    have := mul_le_of_div_eq hV
    nlinarith
  have htop : W / (b * D) ≤ t2 := Nat.lt_succ_iff.mp (Nat.div_lt_of_lt_mul (by
    have := lt_succ_mul hw2 hD hW
    linarith))
  calc W / V ≤ W / (v1 * (b * D)) := Nat.div_le_div_left hVlow (Nat.mul_pos hv1 hbD)
    _ = W / (b * D) / v1 := by rw [Nat.mul_comm v1, Nat.div_div_eq_div_mul]
    _ ≤ t2 / v1 := Nat.div_le_div_right htop

variable {qhat : Nat}

/-- When the test fires, the digit is below the estimate, so lowering the
estimate by one keeps it at or above the digit. -/
theorem div_lt_of_test (hD : 0 < D) (hW : W / D = t2 * b + w2) (hV : V / D = v1 * b + v2)
    (htest : t2 * b + w2 < qhat * (v1 * b + v2)) : W / V < qhat := by
  have hWlt : W < (t2 * b + w2 + 1) * D := lt_of_div_eq hW hD
  have hVlow := mul_le_of_div_eq hV
  have hmul : W < qhat * V :=
    calc W < (t2 * b + w2 + 1) * D := hWlt
      _ ≤ qhat * (v1 * b + v2) * D := Nat.mul_le_mul_right _ htest
      _ = qhat * ((v1 * b + v2) * D) := by ring
      _ ≤ qhat * V := Nat.mul_le_mul_left _ hVlow
  exact Nat.div_lt_of_lt_mul (by linarith)

/-- A digit of the base that passes the test is at most one above the true
digit. -/
theorem le_div_succ_of_test_pass (hv1 : 0 < v1) (hv2 : v2 < b) (hD : 0 < D)
    (hW : W / D = t2 * b + w2) (hV : V / D = v1 * b + v2)
    (hq : qhat < b) (hpass : qhat * (v1 * b + v2) ≤ t2 * b + w2) :
    qhat ≤ W / V + 1 := by
  have hWlow : (t2 * b + w2) * D ≤ W := mul_le_of_div_eq hW
  have hVhigh : V < (v1 * b + v2 + 1) * D := lt_of_div_eq hV hD
  have hVlow : b * D ≤ V := by
    have := mul_le_of_div_eq hV
    nlinarith
  -- `qhat * V` overshoots the window by less than `qhat * D ≤ b * D ≤ V`
  have hover : qhat * V < W + V := by
    have h1 : qhat * V ≤ qhat * ((v1 * b + v2) * D) + qhat * D := by
      have : V ≤ (v1 * b + v2) * D + D := by linarith
      calc qhat * V ≤ qhat * ((v1 * b + v2) * D + D) := Nat.mul_le_mul_left _ this
        _ = _ := by ring
    have h2 : qhat * ((v1 * b + v2) * D) ≤ W := by
      calc qhat * ((v1 * b + v2) * D) = qhat * (v1 * b + v2) * D := by ring
        _ ≤ (t2 * b + w2) * D := Nat.mul_le_mul_right _ hpass
        _ ≤ W := hWlow
    have h3 : qhat * D < b * D := Nat.mul_lt_mul_of_pos_right hq hD
    linarith
  have hdiv : W < (W / V + 1) * V := by
    have := Nat.lt_div_mul_add (a := W) (lt_of_lt_of_le (Nat.mul_pos (by omega) hD) hVlow)
    linarith
  by_contra hgt
  have : (W / V + 2) * V ≤ qhat * V := Nat.mul_le_mul_right _ (by omega)
  linarith

/-- When the remainder of the estimate has reached the base, the estimate is a
digit of the base and at most one above the true digit. -/
theorem le_div_succ_of_rhat (hv1 : 0 < v1) (hv2 : v2 < b) (hD : 0 < D)
    (hW : W / D = t2 * b + w2) (hV : V / D = v1 * b + v2) (hWV : W < V * b)
    {qhat rhat : Nat} (hqr : qhat * v1 + rhat = t2) (hr : b ≤ rhat) :
    qhat < b ∧ qhat ≤ W / V + 1 := by
  have hWlow : t2 * b * D ≤ W := by
    have := mul_le_of_div_eq hW
    nlinarith
  have hVhigh : V < (v1 + 1) * (b * D) := by
    have := lt_of_div_eq hV hD
    nlinarith
  -- the window is below `V * b`, so `t2 < (v1 + 1) * b`
  have hq : qhat < b := by
    have : qhat * v1 < b * v1 := by nlinarith
    exact Nat.lt_of_mul_lt_mul_right this
  refine ⟨hq, ?_⟩
  rcases Nat.eq_zero_or_pos qhat with rfl | hqpos
  · exact Nat.zero_le _
  -- `(qhat - 1) * V < (qhat - 1) * (v1 + 1) * b * D ≤ (qhat * v1 + b) * b * D ≤ W`
  have hstep : (qhat - 1) * V ≤ W := by
    have h1 : (qhat - 1) * V ≤ (qhat - 1) * ((v1 + 1) * (b * D)) := Nat.mul_le_mul_left _ hVhigh.le
    have h2 : (qhat - 1) * (v1 + 1) ≤ qhat * v1 + b := by
      have : (qhat - 1) * (v1 + 1) + v1 + 1 = qhat * v1 + qhat := by
        cases qhat with
        | zero => omega
        | succ k => simp only [Nat.add_sub_cancel]; ring
      omega
    have h3 : (qhat * v1 + b) * (b * D) ≤ t2 * b * D := by
      have : qhat * v1 + b ≤ t2 := by omega
      nlinarith
    calc (qhat - 1) * V ≤ (qhat - 1) * ((v1 + 1) * (b * D)) := h1
      _ = (qhat - 1) * (v1 + 1) * (b * D) := by ring
      _ ≤ (qhat * v1 + b) * (b * D) := Nat.mul_le_mul_right _ h2
      _ ≤ W := le_trans h3 hWlow
  have hV0 : 0 < V := by
    have := mul_le_of_div_eq hV
    nlinarith
  have := (Nat.le_div_iff_mul_le hV0).mpr hstep
  omega

end

end QuotientDigit
