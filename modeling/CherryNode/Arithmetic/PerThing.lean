import Mathlib

/-!
# sp-arithmetic: per-things and their multiplication

A per-thing of accuracy `accuracy` (`PerU16`: `65535`, `Perbill`: `10 ^ 9`) is
`parts / accuracy` with `parts ≤ accuracy`; decoding refuses more and
`from_parts` saturates.  Multiplying a balance by one is `overflow_prune_mul`:
`x / accuracy * parts` plus the rounded share of the remainder
(`rational_mul_correction`), exact in `Nat` since each intermediate value is
below its type's bound.  A product never exceeds the balance (`mul_le`), `one`
is neutral (`one_mul`) and `zero` gives zero (`zero_mul`, `zero_mulCeil`).
-/

namespace SpArithmetic

/-- `Rounding`. -/
inductive Rounding
  | up
  | down
  | nearest
  deriving DecidableEq, Repr

/-- A per-thing of accuracy `accuracy`. -/
structure PerThing (accuracy : Nat) where
  parts : Nat
  le_accuracy : parts ≤ accuracy

namespace PerThing

variable {accuracy : Nat}

@[ext] theorem ext {p q : PerThing accuracy} (h : p.parts = q.parts) : p = q := by
  cases p; cases q; cases h; rfl

instance : DecidableEq (PerThing accuracy) := fun p q =>
  decidable_of_iff (p.parts = q.parts) ⟨ext, fun h => h ▸ rfl⟩

/-- `from_parts`: saturates at `accuracy`. -/
def fromParts (x : Nat) : PerThing accuracy := ⟨min x accuracy, Nat.min_le_right _ _⟩

def one : PerThing accuracy := ⟨accuracy, Nat.le_refl _⟩

def zero : PerThing accuracy := ⟨0, Nat.zero_le _⟩

def isZero (p : PerThing accuracy) : Bool := p.parts == 0

def saturatingAdd (p q : PerThing accuracy) : PerThing accuracy := fromParts (p.parts + q.parts)

def saturatingSub (p q : PerThing accuracy) : PerThing accuracy := fromParts (p.parts - q.parts)

@[simp] theorem one_parts : (one : PerThing accuracy).parts = accuracy := rfl

@[simp] theorem zero_parts : (zero : PerThing accuracy).parts = 0 := rfl

@[simp] theorem fromParts_parts (x : Nat) : (fromParts x : PerThing accuracy).parts = min x accuracy :=
  rfl

@[simp] theorem isZero_iff (p : PerThing accuracy) : p.isZero = true ↔ p.parts = 0 := by
  simp [isZero]

end PerThing

/-- `rational_mul_correction(x, numer, denom, rounding)`: the share
`numer / denom` of the remainder `x % denom`, rounded. -/
def rationalMulCorrection (x numer denom : Nat) (rounding : Rounding) : Nat :=
  let rem := x % denom
  let remMulUpper := rem * numer
  let remMulDivInner := remMulUpper / denom
  match rounding with
  | .down => remMulDivInner
  | .up => if remMulUpper % denom > 0 then remMulDivInner + 1 else remMulDivInner
  | .nearest => if remMulUpper % denom > denom / 2 then remMulDivInner + 1 else remMulDivInner

/-- `overflow_prune_mul(x, part, rounding)` for a per-thing of accuracy `accuracy`. -/
def overflowPruneMul (accuracy x part : Nat) (rounding : Rounding) : Nat :=
  x / accuracy * part + rationalMulCorrection x part accuracy rounding

/-- `saturating_reciprocal_mul(x, part, rounding)` for a per-thing of accuracy
`accuracy`, on an `N` whose largest value is `maxN`: `x / part` times
`accuracy`, saturating, plus the share of the remainder, saturating; `none`
where `rational_mul_correction` takes `x % part` of a zero part, which panics. -/
def saturatingReciprocalMul (accuracy maxN x part : Nat) (rounding : Rounding) : Option Nat :=
  if part = 0 then none
  else
    let c := rationalMulCorrection x accuracy part rounding
    some (min (min (x / part * accuracy) maxN + c) maxN)

namespace PerThing

variable {accuracy : Nat}

/-- `p * x` on a balance (`impl Mul<N>`): rounds to the nearest. -/
def mul (p : PerThing accuracy) (x : Nat) : Nat := overflowPruneMul accuracy x p.parts .nearest

/-- `p.mul_ceil(x)`. -/
def mulCeil (p : PerThing accuracy) (x : Nat) : Nat := overflowPruneMul accuracy x p.parts .up

/-- `p.mul_floor(x)`. -/
def mulFloor (p : PerThing accuracy) (x : Nat) : Nat := overflowPruneMul accuracy x p.parts .down

/-- `p.saturating_reciprocal_mul(x)` on an `N` whose largest value is `maxN`. -/
def saturatingReciprocalMul (p : PerThing accuracy) (maxN x : Nat) : Option Nat :=
  SpArithmetic.saturatingReciprocalMul accuracy maxN x p.parts .nearest

/-- `p.saturating_reciprocal_mul_floor(x)`. -/
def saturatingReciprocalMulFloor (p : PerThing accuracy) (maxN x : Nat) : Option Nat :=
  SpArithmetic.saturatingReciprocalMul accuracy maxN x p.parts .down

/-- `p.saturating_reciprocal_mul_ceil(x)`. -/
def saturatingReciprocalMulCeil (p : PerThing accuracy) (maxN x : Nat) : Option Nat :=
  SpArithmetic.saturatingReciprocalMul accuracy maxN x p.parts .up

end PerThing

theorem rationalMulCorrection_le {x numer denom : Nat} (h : numer ≤ denom) (rounding : Rounding) :
    rationalMulCorrection x numer denom rounding ≤ x % denom := by
  have hdiv : x % denom * numer / denom ≤ x % denom :=
    Nat.div_le_of_le_mul (by rw [Nat.mul_comm denom]; exact Nat.mul_le_mul_left _ h)
  -- rounding up adds one only when `numer < denom` and the remainder is positive
  have hlt : x % denom * numer % denom > 0 → x % denom * numer / denom < x % denom := by
    intro hpos
    have hnumer : numer < denom := by
      rcases Nat.lt_or_eq_of_le h with hlt | rfl
      · exact hlt
      · simp at hpos
    have hrem : 0 < x % denom := by
      rcases Nat.eq_zero_or_pos (x % denom) with h0 | h0
      · rw [h0] at hpos; simp at hpos
      · exact h0
    have hden : 0 < denom := Nat.lt_of_le_of_lt (Nat.zero_le _) hnumer
    rw [Nat.div_lt_iff_lt_mul hden]
    exact Nat.mul_lt_mul_of_pos_left hnumer hrem
  unfold rationalMulCorrection
  cases rounding with
  | down => exact hdiv
  | up =>
    simp only
    split_ifs with hpos
    · exact hlt hpos
    · exact hdiv
  | nearest =>
    simp only
    split_ifs with hpos
    · exact hlt (Nat.lt_of_le_of_lt (Nat.zero_le _) hpos)
    · exact hdiv

namespace PerThing

variable {accuracy : Nat}

theorem overflowPruneMul_le (p : PerThing accuracy) (x : Nat) (rounding : Rounding) :
    overflowPruneMul accuracy x p.parts rounding ≤ x := by
  unfold overflowPruneMul
  have hc := rationalMulCorrection_le (x := x) p.le_accuracy rounding
  have hq : x / accuracy * p.parts ≤ x / accuracy * accuracy := Nat.mul_le_mul_left _ p.le_accuracy
  have hx := Nat.div_add_mod x accuracy
  rw [Nat.mul_comm accuracy] at hx
  omega

/-- A share of a balance is at most the balance. -/
theorem mul_le (p : PerThing accuracy) (x : Nat) : p.mul x ≤ x :=
  overflowPruneMul_le p x .nearest

/-- `one * x = x`: the correction is the whole remainder. -/
theorem one_mul (hpos : 0 < accuracy) (x : Nat) : (one : PerThing accuracy).mul x = x := by
  unfold mul overflowPruneMul rationalMulCorrection
  have hexact : x % accuracy * accuracy / accuracy = x % accuracy := Nat.mul_div_cancel _ hpos
  have hmod : x % accuracy * accuracy % accuracy = 0 := Nat.mul_mod_left _ _
  simp only [one_parts, hexact, hmod]
  have hx := Nat.div_add_mod x accuracy
  rw [Nat.mul_comm accuracy] at hx
  split_ifs with h
  · omega
  · exact hx

theorem overflowPruneMul_zero (x : Nat) (rounding : Rounding) :
    overflowPruneMul accuracy x 0 rounding = 0 := by
  cases rounding <;> simp [overflowPruneMul, rationalMulCorrection]

@[simp] theorem zero_mul (x : Nat) : (zero : PerThing accuracy).mul x = 0 :=
  overflowPruneMul_zero x .nearest

@[simp] theorem zero_mulCeil (x : Nat) : (zero : PerThing accuracy).mulCeil x = 0 :=
  overflowPruneMul_zero x .up

/-- Rounded to the nearest, a share is at most half a unit above the exact product. -/
theorem two_mul_accuracy_mul_le (p : PerThing accuracy) (x : Nat) :
    2 * (accuracy * p.mul x) ≤ 2 * (x * p.parts) + accuracy := by
  have hx := Nat.div_add_mod x accuracy
  have hu := Nat.div_add_mod (x % accuracy * p.parts) accuracy
  -- the exact product: the whole multiples of `accuracy`, then the remainder's share
  have hexact : accuracy * (x / accuracy * p.parts) + x % accuracy * p.parts = x * p.parts := by
    conv_rhs => rw [← hx]
    ring
  unfold mul overflowPruneMul rationalMulCorrection
  simp only
  split_ifs with hround
  · have hsplit : accuracy * (x / accuracy * p.parts + (x % accuracy * p.parts / accuracy + 1)) =
        accuracy * (x / accuracy * p.parts) + accuracy * (x % accuracy * p.parts / accuracy) + accuracy := by
      ring
    rw [hsplit]
    omega
  · rw [Nat.mul_add]
    omega

theorem two_mul_accuracy_sum_mul_le (ps : List (PerThing accuracy)) (x : Nat) :
    2 * (accuracy * (ps.map (·.mul x)).sum) ≤ 2 * (x * (ps.map (·.parts)).sum) + ps.length * accuracy := by
  induction ps with
  | nil => simp
  | cons p ps ih =>
    have hp := two_mul_accuracy_mul_le p x
    simp only [List.map_cons, List.sum_cons, List.length_cons, Nat.mul_add, Nat.add_mul, Nat.one_mul]
    omega

theorem two_mul_sum_mul_le (hpos : 0 < accuracy) (ps : List (PerThing accuracy))
    (hsum : (ps.map (·.parts)).sum ≤ accuracy) (x : Nat) :
    2 * (ps.map (·.mul x)).sum ≤ 2 * x + ps.length := by
  have h := two_mul_accuracy_sum_mul_le ps x
  have hparts : x * (ps.map (·.parts)).sum ≤ x * accuracy := Nat.mul_le_mul_left x hsum
  refine Nat.le_of_mul_le_mul_left ?_ hpos
  calc accuracy * (2 * (ps.map (·.mul x)).sum)
      = 2 * (accuracy * (ps.map (·.mul x)).sum) := by ring
    _ ≤ 2 * (x * (ps.map (·.parts)).sum) + ps.length * accuracy := h
    _ ≤ 2 * (x * accuracy) + ps.length * accuracy := by omega
    _ = accuracy * (2 * x + ps.length) := by ring

end PerThing

/-! ## Exactness -/

/-- `n / d` rounded down, up, or to the nearest with an exact half rounded
down: what the per-thing multiplications are held to. -/
def Rounding.div (rounding : Rounding) (n d : Nat) : Nat :=
  n / d + match rounding with
    | .down => 0
    | .up => if n % d > 0 then 1 else 0
    | .nearest => if 2 * (n % d) > d then 1 else 0

variable {accuracy denom : Nat}

/-- `x * numer / denom`, split as `overflow_prune_mul` and the reciprocal
multiplication compute it: the whole multiples of `denom` in `x`, scaled, and
the share of the remainder. -/
theorem mul_div_eq_add (hpos : 0 < denom) (x numer : Nat) :
    x * numer / denom = x / denom * numer + x % denom * numer / denom ∧
      x * numer % denom = x % denom * numer % denom := by
  have hsplit : x * numer = x % denom * numer + denom * (x / denom * numer) := by
    conv_lhs => rw [← Nat.mod_add_div x denom]
    ring
  rw [hsplit, Nat.add_mul_div_left _ _ hpos, Nat.add_mul_mod_self_left]
  exact ⟨Nat.add_comm _ _, rfl⟩

/-- The scaled whole multiples plus `rational_mul_correction` are
`x * numer / denom` rounded as asked; the test `> denom / 2` of the source is
"more than a half". -/
theorem div_mul_add_rationalMulCorrection (hpos : 0 < denom) (x numer : Nat)
    (rounding : Rounding) :
    x / denom * numer + rationalMulCorrection x numer denom rounding = rounding.div (x * numer) denom := by
  obtain ⟨hdiv, hmod⟩ := mul_div_eq_add hpos x numer
  unfold rationalMulCorrection Rounding.div
  rw [hdiv, hmod]
  cases rounding with
  | down => simp
  | up =>
    simp only
    split_ifs <;> omega
  | nearest =>
    simp only
    split_ifs <;> omega

theorem overflowPruneMul_eq (hpos : 0 < accuracy) (x part : Nat) (rounding : Rounding) :
    overflowPruneMul accuracy x part rounding = rounding.div (x * part) accuracy :=
  div_mul_add_rationalMulCorrection hpos x part rounding

namespace PerThing

variable {accuracy : Nat}

theorem mul_floor_ceil_nearest_exact (hpos : 0 < accuracy) (p : PerThing accuracy) (x : Nat) :
    p.mulFloor x = x * p.parts / accuracy ∧
      p.mulCeil x = x * p.parts / accuracy + (if x * p.parts % accuracy > 0 then 1 else 0) ∧
      p.mul x = x * p.parts / accuracy + (if 2 * (x * p.parts % accuracy) > accuracy then 1 else 0) ∧
      p.mulFloor x ≤ x ∧ p.mulCeil x ≤ x ∧ p.mul x ≤ x ∧
      x % accuracy * p.parts < accuracy * accuracy := by
  refine ⟨?_, ?_, ?_, overflowPruneMul_le p x .down, overflowPruneMul_le p x .up, mul_le p x, ?_⟩
  · rw [mulFloor, overflowPruneMul_eq hpos]
    simp [Rounding.div]
  · rw [mulCeil, overflowPruneMul_eq hpos]
    rfl
  · rw [mul, overflowPruneMul_eq hpos]
    rfl
  · -- the remainder is below `accuracy` and the part at most it: the product fits `Upper`
    calc x % accuracy * p.parts ≤ x % accuracy * accuracy := Nat.mul_le_mul_left _ p.le_accuracy
      _ < accuracy * accuracy := Nat.mul_lt_mul_of_pos_right (Nat.mod_lt x hpos) hpos

theorem mul_floor_ceil_nearest_exact_percent :
    0 < 100 ∧
      (fromParts 34 : PerThing 100).mulFloor 10 = 10 * (fromParts 34 : PerThing 100).parts / 100 ∧
      (fromParts 34 : PerThing 100).mulCeil 10 =
        10 * (fromParts 34 : PerThing 100).parts / 100 +
          (if 10 * (fromParts 34 : PerThing 100).parts % 100 > 0 then 1 else 0) ∧
      (fromParts 34 : PerThing 100).mul 10 =
        10 * (fromParts 34 : PerThing 100).parts / 100 +
          (if 2 * (10 * (fromParts 34 : PerThing 100).parts % 100) > 100 then 1 else 0) ∧
      (fromParts 34 : PerThing 100).mulFloor 10 ≤ 10 ∧ (fromParts 34 : PerThing 100).mulCeil 10 ≤ 10 ∧
      (fromParts 34 : PerThing 100).mul 10 ≤ 10 ∧
      10 % 100 * (fromParts 34 : PerThing 100).parts < 100 * 100 :=
  ⟨by decide, mul_floor_ceil_nearest_exact (by decide) (fromParts 34) 10⟩

end PerThing

/-- For a positive part, `saturating_reciprocal_mul` returns `x * accuracy / part`
rounded as asked, or `maxN` when that is larger: once `x / part * accuracy`
saturates, the exact value is past `maxN` too. -/
theorem saturatingReciprocalMul_eq {accuracy maxN x part : Nat} (hpart : 0 < part) (rounding : Rounding) :
    saturatingReciprocalMul accuracy maxN x part rounding = some (min (rounding.div (x * accuracy) part) maxN) := by
  have hsum := div_mul_add_rationalMulCorrection hpart x accuracy rounding
  unfold saturatingReciprocalMul
  rw [if_neg (Nat.pos_iff_ne_zero.mp hpart), Option.some.injEq]
  by_cases hsat : x / part * accuracy ≤ maxN
  · rw [Nat.min_eq_left hsat, hsum]
  · -- saturated: the exact quotient is at least the saturated term
    rw [Nat.min_eq_right (by omega), Nat.min_eq_right (by omega)]

theorem saturatingReciprocalMul_percent :
    saturatingReciprocalMul 100 255 3 7 .down = some (min (Rounding.down.div (3 * 100) 7) 255) :=
  saturatingReciprocalMul_eq (by decide) .down

namespace PerThing

theorem saturatingReciprocalMul_of_zero_part_panics :
    (zero : PerThing 100).saturatingReciprocalMul (2 ^ 64 - 1) 10 = none := rfl

end PerThing

/-! ## `from_rational` -/

/-- The `div_ceil` closure of `from_rational`. -/
def divCeil (x f : Nat) : Nat := if x % f > 0 then x / f + 1 else x / f

/-- The part `from_rational(p, q)` builds: `q` at least one and `p` at most
`q`, both divided by the `factor` that brings `q` within `accuracy`, and the
part `p_reduce * accuracy / q_reduce`. -/
def fromRationalParts (accuracy p q : Nat) : Nat :=
  let q := max q 1
  let p := min p q
  let factor := max (divCeil q accuracy) 1
  let qReduce := q / factor
  let pReduce := p / factor
  pReduce * accuracy / qReduce

@[simp] theorem fromRationalParts_zero (accuracy q : Nat) : fromRationalParts accuracy 0 q = 0 := by
  simp [fromRationalParts]

theorem fromRationalParts_le (accuracy p q : Nat) : fromRationalParts accuracy p q ≤ accuracy := by
  have hp : min p (max q 1) / max (divCeil (max q 1) accuracy) 1 ≤ max q 1 / max (divCeil (max q 1) accuracy) 1 :=
    Nat.div_le_div_right (Nat.min_le_right _ _)
  exact Nat.div_le_of_le_mul (Nat.mul_le_mul_right accuracy hp)

namespace PerThing

variable {accuracy : Nat}

/-- `from_rational(p, q)`: `p / q`, rounded down after the reduction. -/
def fromRational (p q : Nat) : PerThing accuracy := ⟨fromRationalParts accuracy p q, fromRationalParts_le _ p q⟩

@[simp] theorem fromRational_parts (p q : Nat) :
    (fromRational p q : PerThing accuracy).parts = fromRationalParts accuracy p q := rfl

/-- `Percent::from_rational(297, 299)`: the reduction divides both by `3` to
`99 / 99`, so the part is `100` where `297 * 100 / 299` is `99`. -/
theorem fromRational_rounds_up :
    (fromRational 297 299 : PerThing 100).parts = 100 ∧ min 297 (max 299 1) * 100 / max 299 1 = 99 := by
  decide

theorem mul_eq_zero_of_parts {p : PerThing accuracy} (h : p.parts = 0) (x : Nat) : p.mul x = 0 := by
  unfold mul
  rw [h]
  exact overflowPruneMul_zero x .nearest

end PerThing

theorem sum_map_div_le {β : Type} (l : List β) (g : β → Nat) (d : Nat) :
    (l.map fun b => g b / d).sum ≤ (l.map g).sum / d := by
  induction l with
  | nil => simp
  | cons b l ih =>
    simp only [List.map_cons, List.sum_cons]
    exact le_trans (Nat.add_le_add_left ih _) Nat.div_add_div_le_add_div

/-- Shares of one denominator whose numerators add up to at most it add up to
at most one: each numerator is reduced by the same factor and rounded down, and
rounding down the terms never rounds up their sum. -/
theorem sum_fromRationalParts_le (accuracy q : Nat) (ps : List Nat) (hsum : ps.sum ≤ q) :
    (ps.map fun p => fromRationalParts accuracy p q).sum ≤ accuracy := by
  have hterm : ∀ p, fromRationalParts accuracy p q =
      min p (max q 1) / max (divCeil (max q 1) accuracy) 1 * accuracy /
        (max q 1 / max (divCeil (max q 1) accuracy) 1) := fun p => rfl
  have hmin : (ps.map fun p => min p (max q 1)).sum ≤ max q 1 := by
    calc (ps.map fun p => min p (max q 1)).sum ≤ (ps.map id).sum :=
          List.sum_le_sum fun p _ => Nat.min_le_left p _
      _ = ps.sum := by rw [List.map_id]
      _ ≤ max q 1 := le_trans hsum (Nat.le_max_left q 1)
  -- the reduced numerators add up to at most the reduced denominator
  have hreduce : (ps.map fun p => min p (max q 1) / max (divCeil (max q 1) accuracy) 1).sum ≤
      max q 1 / max (divCeil (max q 1) accuracy) 1 :=
    le_trans (sum_map_div_le _ _ _) (Nat.div_le_div_right hmin)
  calc (ps.map fun p => fromRationalParts accuracy p q).sum
      = (ps.map fun p => min p (max q 1) / max (divCeil (max q 1) accuracy) 1 * accuracy /
          (max q 1 / max (divCeil (max q 1) accuracy) 1)).sum := by simp only [hterm]
    _ ≤ (ps.map fun p => min p (max q 1) / max (divCeil (max q 1) accuracy) 1 * accuracy).sum /
          (max q 1 / max (divCeil (max q 1) accuracy) 1) := sum_map_div_le _ _ _
    _ = (ps.map fun p => min p (max q 1) / max (divCeil (max q 1) accuracy) 1).sum * accuracy /
          (max q 1 / max (divCeil (max q 1) accuracy) 1) := by rw [List.sum_map_mul_right]
    _ ≤ (max q 1 / max (divCeil (max q 1) accuracy) 1) * accuracy /
          (max q 1 / max (divCeil (max q 1) accuracy) 1) := Nat.div_le_div_right (Nat.mul_le_mul_right _ hreduce)
    _ ≤ accuracy := Nat.div_le_of_le_mul (Nat.le_refl _)

end SpArithmetic
