import Mathlib
import CherryNode.Arithmetic.Helpers128

/-!
# sp-arithmetic: `Rational128`

A pair of `u128`s `n / d`.  `cmp` and `eq` compare the cross products as
`BigUint`s, so they cannot overflow.  `checked_add` and `checked_sub` bring
both to the lcm of the denominators, `multiply_by_rational(d1, d2, gcd(d1,
d2))`, through `to_den`, then add or subtract the numerators in `u128`: one
definition, `scaledOp`, applied to the operation and its message.
`scaledOp_eq` gives its result for `u128` inputs with positive denominators:
every division is exact, since `gcd` divides `d1` and `d` divides the lcm.
-/

namespace SpArithmetic

namespace U128

/-- `u128::checked_add`. -/
def checkedAdd (a b : Nat) : Option Nat := if a + b < 2 ^ 128 then some (a + b) else none

/-- `u128::checked_sub`. -/
def checkedSub (a b : Nat) : Option Nat := if b ≤ a then some (a - b) else none

end U128

open Helpers128bit BigUint

/-- `Rational128(n, d)`: a `u128` numerator and denominator. -/
structure Rational128 where
  n : Nat
  d : Nat
deriving DecidableEq, Repr

namespace Rational128

/-! ## Algorithm -/

/-- `Ord::cmp`: the numerators when the denominators agree, a zero denominator
as the largest, and otherwise the cross products as big numbers. -/
def cmp (self other : Rational128) : Ordering :=
  if self.d = other.d then compare self.n other.n
  else if self.d = 0 then .gt
  else if other.d = 0 then .lt
  else ((toBigUint self.n).mul (toBigUint other.d)).cmp ((toBigUint other.n).mul (toBigUint self.d))

/-- `PartialEq::eq`: the numerators when the denominators agree, else the
cross products. -/
def eq (self other : Rational128) : Bool :=
  if self.d = other.d then self.n == other.n
  else ((toBigUint self.n).mul (toBigUint other.d)).eq ((toBigUint other.n).mul (toBigUint self.d))

/-- `to_den(den)`: the same number over `den`, by `multiply_by_rational`. -/
def toDen (self : Rational128) (den : Nat) : Option (Except String Rational128) :=
  if den = self.d then some (.ok self)
  else (multiplyByRational self.n den self.d).map (Except.map fun n => ⟨n, den⟩)

/-- `lcm(other)`: the least common multiple of the denominators, as
`d1 * d2 / gcd(d1, d2)`. -/
def lcm (self other : Rational128) : Option (Except String Nat) :=
  if self.d = other.d then some (.ok self.d)
  else multiplyByRational self.d other.d (Helpers128bit.gcd self.d other.d)

/-- The body `checked_add` and `checked_sub` share: both numbers over the lcm
of the denominators, then `op` on the numerators, failing with `msg`. -/
def scaledOp (op : Nat → Nat → Option Nat) (msg : String) (self other : Rational128) :
    Option (Except String Rational128) :=
  ExceptT.run do
    let lcm ← ExceptT.adapt (fun _ => "failed to scale to denominator") (ExceptT.mk (self.lcm other))
    let selfScaled ← ExceptT.adapt (fun _ => "failed to scale to denominator") (ExceptT.mk (self.toDen lcm))
    let otherScaled ← ExceptT.adapt (fun _ => "failed to scale to denominator") (ExceptT.mk (other.toDen lcm))
    let n ← match op selfScaled.n otherScaled.n with
      | some n => pure n
      | none => throw msg
    pure ⟨n, selfScaled.d⟩

/-- `checked_add(other)`. -/
def checkedAdd (self other : Rational128) : Option (Except String Rational128) :=
  scaledOp U128.checkedAdd "overflow while adding numerators" self other

/-- `checked_sub(other)`. -/
def checkedSub (self other : Rational128) : Option (Except String Rational128) :=
  scaledOp U128.checkedSub "overflow while subtracting numerators" self other

example : (⟨1, 2⟩ : Rational128).checkedAdd ⟨1, 3⟩ = some (.ok ⟨5, 6⟩) := by
  decide +kernel

/-- `Rational128::zero()`. -/
def zero : Rational128 := ⟨0, 1⟩

/-- `Bounded::max_value()`: the largest numerator over one. -/
def maxValue : Rational128 := ⟨2 ^ 128 - 1, 1⟩

/-- `Rational128::from(n, d)`: a zero denominator becomes one. -/
def «from» (n d : Nat) : Rational128 := ⟨n, max d 1⟩

/-- `is_zero`: a zero numerator. -/
def isZero (self : Rational128) : Bool := self.n == 0

/-- `lazy_saturating_add`: the numerators added in `u128`, as if the
denominators were one. -/
def lazySaturatingAdd (self other : Rational128) : Rational128 :=
  if other.isZero then self else ⟨min (self.n + other.n) (2 ^ 128 - 1), self.d⟩

/-- `lazy_saturating_sub`: the numerators subtracted, as if the denominators
were one. -/
def lazySaturatingSub (self other : Rational128) : Rational128 :=
  if other.isZero then self else ⟨self.n - other.n, self.d⟩

/-! ## Lemmas -/

variable {α β : Type}

theorem run_adapt_ok (f : String → String) (x : α) (g : α → ExceptT String Option β) :
    (ExceptT.adapt f (ExceptT.mk (some (.ok x))) >>= g).run = (g x).run := by
  simp [ExceptT.run_bind, ExceptT.run_adapt, ExceptT.run_mk, Except.mapError]

theorem run_adapt_error (f : String → String) (e : String) (g : α → ExceptT String Option β) :
    (ExceptT.adapt f (ExceptT.mk (some (.error e))) >>= g).run = some (.error (f e)) := by
  simp [ExceptT.run_bind, ExceptT.run_adapt, ExceptT.run_mk, Except.mapError]

section Bounded

variable {a b : Rational128} {α β : Type}

/-- `lcm` is `Nat.lcm` when it fits in `u128`, else the `Err` of
`multiply_by_rational`. -/
theorem lcm_eq (hda : 0 < a.d) (hda' : a.d < 2 ^ 128) (hdb' : b.d < 2 ^ 128) :
    a.lcm b = some (if Nat.lcm a.d b.d < 2 ^ 128 then .ok (Nat.lcm a.d b.d)
      else .error "result cannot fit in u128") := by
  unfold lcm
  by_cases heq : a.d = b.d
  · rw [if_pos heq, ← heq, Nat.lcm_self, if_pos hda']
  have hg : 0 < Nat.gcd a.d b.d := Nat.gcd_pos_of_pos_left _ hda
  have hg' : Nat.gcd a.d b.d < 2 ^ 128 := lt_of_le_of_lt (Nat.gcd_le_left _ hda) hda'
  -- `gcd(d1, d2)` divides `d1`, so `multiply_by_rational` divides first and is exact
  have hdvd : max (Nat.gcd a.d b.d) 1 ∣ a.d := by
    rw [max_eq_left (show 1 ≤ Nat.gcd a.d b.d from hg)]
    exact Nat.gcd_dvd_left _ _
  rw [if_neg heq, Helpers128bit.gcd_eq, multiplyByRational_of_dvd hda' hdb' hg' (.inl hdvd),
    max_eq_left (show 1 ≤ Nat.gcd a.d b.d from hg)]
  rfl

/-- `to_den` to a multiple of the denominator is exact: the numerator scaled
by `den / d`, when that fits. -/
theorem toDen_eq {den : Nat} (hn : a.n < 2 ^ 128) (hd : 0 < a.d) (hd' : a.d < 2 ^ 128)
    (hden : den < 2 ^ 128) (hdvd : a.d ∣ den) :
    a.toDen den = some (if a.n * (den / a.d) < 2 ^ 128 then .ok ⟨a.n * (den / a.d), den⟩
      else .error "result cannot fit in u128") := by
  unfold toDen
  by_cases heq : den = a.d
  · rw [if_pos heq, heq, Nat.div_self hd, Nat.mul_one, if_pos hn]
  have hdvd' : max a.d 1 ∣ den := by
    rw [max_eq_left (show 1 ≤ a.d from hd)]
    exact hdvd
  rw [if_neg heq, multiplyByRational_of_dvd hn hden hd' (.inr hdvd'), max_eq_left (show 1 ≤ a.d from hd),
    ← Nat.mul_div_assoc _ hdvd]
  split_ifs <;> rfl

/-- `checked_add` and `checked_sub` scale both numbers to the lcm exactly and
fail only where a step does not fit in `u128` or `op` fails. -/
theorem scaledOp_eq (op : Nat → Nat → Option Nat) (msg : String) (hna : a.n < 2 ^ 128)
    (hnb : b.n < 2 ^ 128) (hda : 0 < a.d) (hdb : 0 < b.d) (hda' : a.d < 2 ^ 128) (hdb' : b.d < 2 ^ 128) :
    scaledOp op msg a b =
      some (if Nat.lcm a.d b.d < 2 ^ 128 ∧ a.n * (Nat.lcm a.d b.d / a.d) < 2 ^ 128 ∧
          b.n * (Nat.lcm a.d b.d / b.d) < 2 ^ 128 then
        match op (a.n * (Nat.lcm a.d b.d / a.d)) (b.n * (Nat.lcm a.d b.d / b.d)) with
        | some n => .ok ⟨n, Nat.lcm a.d b.d⟩
        | none => .error msg
      else .error "failed to scale to denominator") := by
  unfold scaledOp
  rw [lcm_eq hda hda' hdb']
  by_cases hL : 2 ^ 128 ≤ Nat.lcm a.d b.d
  · rw [if_neg (by omega), run_adapt_error, if_neg (by omega)]
  rw [if_pos (by omega), run_adapt_ok, toDen_eq hna hda hda' (by omega) (Nat.dvd_lcm_left _ _)]
  by_cases h1 : 2 ^ 128 ≤ a.n * (Nat.lcm a.d b.d / a.d)
  · rw [if_neg (by omega), run_adapt_error, if_neg (by omega)]
  rw [if_pos (by omega), run_adapt_ok, toDen_eq hnb hdb hdb' (by omega) (Nat.dvd_lcm_right _ _)]
  by_cases h2 : 2 ^ 128 ≤ b.n * (Nat.lcm a.d b.d / b.d)
  · rw [if_neg (by omega), run_adapt_error, if_neg (by omega)]
  rw [if_pos (by omega), run_adapt_ok, if_pos (by omega)]
  -- the numerators: `op`, or `msg` when it fails
  cases op (a.n * (Nat.lcm a.d b.d / a.d)) (b.n * (Nat.lcm a.d b.d / b.d)) <;> rfl

section Scaled

variable {op : Nat → Nat → Option Nat} {msg : String}
variable (hna : a.n < 2 ^ 128) (hnb : b.n < 2 ^ 128) (hda : 0 < a.d) (hdb : 0 < b.d)
  (hda' : a.d < 2 ^ 128) (hdb' : b.d < 2 ^ 128)
include hna hnb hda hdb hda' hdb'

theorem scaledOp_ok {c : Rational128} (h : scaledOp op msg a b = some (.ok c)) :
    c.d = Nat.lcm a.d b.d ∧ op (a.n * (Nat.lcm a.d b.d / a.d)) (b.n * (Nat.lcm a.d b.d / b.d)) = some c.n := by
  rw [scaledOp_eq op msg hna hnb hda hdb hda' hdb'] at h
  split_ifs at h
  · split at h
    · rename_i n hop
      cases h
      exact ⟨rfl, hop⟩
    · cases h
  · cases h

theorem scaledOp_error {e : String} (h : scaledOp op msg a b = some (.error e)) :
    2 ^ 128 ≤ Nat.lcm a.d b.d ∨ 2 ^ 128 ≤ a.n * (Nat.lcm a.d b.d / a.d) ∨
      2 ^ 128 ≤ b.n * (Nat.lcm a.d b.d / b.d) ∨
      op (a.n * (Nat.lcm a.d b.d / a.d)) (b.n * (Nat.lcm a.d b.d / b.d)) = none := by
  rw [scaledOp_eq op msg hna hnb hda hdb hda' hdb'] at h
  split_ifs at h with hfit
  · split at h
    · cases h
    · rename_i hop
      exact .inr (.inr (.inr hop))
  · omega

/-- On operands in range the scaled operation always returns a result. -/
theorem scaledOp_isSome : (scaledOp op msg a b).isSome := by
  rw [scaledOp_eq op msg hna hnb hda hdb hda' hdb']
  rfl

theorem scaledOp_ok_of_fits (hL : Nat.lcm a.d b.d < 2 ^ 128) (h1 : a.n * (Nat.lcm a.d b.d / a.d) < 2 ^ 128)
    (h2 : b.n * (Nat.lcm a.d b.d / b.d) < 2 ^ 128) {n : Nat}
    (hop : op (a.n * (Nat.lcm a.d b.d / a.d)) (b.n * (Nat.lcm a.d b.d / b.d)) = some n) :
    scaledOp op msg a b = some (.ok ⟨n, Nat.lcm a.d b.d⟩) := by
  rw [scaledOp_eq op msg hna hnb hda hdb hda' hdb', if_pos ⟨hL, h1, h2⟩, hop]

end Scaled

end Bounded

/-! ## The rationals the pairs stand for -/

theorem compare_eq_of_iff [LinearOrder α] [LinearOrder β] {x y : α} {x' y' : β}
    (hlt : x < y ↔ x' < y') (heq : x = y ↔ x' = y') : compare x y = compare x' y' := by
  rcases lt_trichotomy x y with h | h | h
  · rw [compare_lt_iff_lt.mpr h, compare_lt_iff_lt.mpr (hlt.mp h)]
  · rw [compare_eq_iff_eq.mpr h, compare_eq_iff_eq.mpr (heq.mp h)]
  · have hgt : y' < x' := by
      rcases lt_trichotomy x' y' with h' | h' | h'
      · exact absurd (hlt.mpr h') (not_lt.mpr h.le)
      · exact absurd (heq.mpr h') (ne_of_gt h)
      · exact h'
    rw [compare_gt_iff_gt.mpr h, compare_gt_iff_gt.mpr hgt]

theorem compare_div_div {n1 d1 n2 d2 : Nat} (hd1 : 0 < d1) (hd2 : 0 < d2) :
    compare (n1 * d2) (n2 * d1) = compare ((n1 : ℚ) / d1) ((n2 : ℚ) / d2) := by
  have hq1 : (0 : ℚ) < d1 := by exact_mod_cast hd1
  have hq2 : (0 : ℚ) < d2 := by exact_mod_cast hd2
  apply compare_eq_of_iff
  · rw [div_lt_div_iff₀ hq1 hq2]
    exact_mod_cast Iff.rfl
  · rw [div_eq_div_iff hq1.ne' hq2.ne']
    exact_mod_cast Iff.rfl

theorem scaled_div {n d L : Nat} (hd : 0 < d) (hdvd : d ∣ L) (hL : 0 < L) :
    ((n * (L / d) : Nat) : ℚ) / L = (n : ℚ) / d := by
  have hq : (d : ℚ) ≠ 0 := by exact_mod_cast hd.ne'
  rw [Nat.cast_mul, Nat.cast_div hdvd hq]
  field_simp

section Bounded

variable {a b : Rational128}

theorem crossProducts_val (hna : a.n < 2 ^ 128) (hnb : b.n < 2 ^ 128) (hda' : a.d < 2 ^ 128)
    (hdb' : b.d < 2 ^ 128) :
    ((toBigUint a.n).mul (toBigUint b.d)).val = a.n * b.d ∧
      ((toBigUint b.n).mul (toBigUint a.d)).val = b.n * a.d := by
  rw [(mul_val _ _).1, (mul_val _ _).1, toBigUint_val hna, toBigUint_val hnb, toBigUint_val hda',
    toBigUint_val hdb']
  exact ⟨rfl, rfl⟩

theorem cmp_eq_compare_div (hna : a.n < 2 ^ 128) (hnb : b.n < 2 ^ 128) (hda : 0 < a.d) (hdb : 0 < b.d)
    (hda' : a.d < 2 ^ 128) (hdb' : b.d < 2 ^ 128) :
    a.cmp b = compare ((a.n : ℚ) / a.d) ((b.n : ℚ) / b.d) := by
  rw [← compare_div_div hda hdb]
  unfold cmp
  by_cases heq : a.d = b.d
  · -- one denominator: the numerators decide
    rw [if_pos heq, heq]
    apply compare_eq_of_iff
    · exact (Nat.mul_lt_mul_right hdb).symm
    · exact (Nat.mul_left_inj hdb.ne').symm
  obtain ⟨hl, hr⟩ := crossProducts_val hna hnb hda' hdb'
  rw [if_neg heq, if_neg hda.ne', if_neg hdb.ne', cmp_eq_compare, hl, hr]

theorem eq_iff_div_eq (hna : a.n < 2 ^ 128) (hnb : b.n < 2 ^ 128) (hda : 0 < a.d) (hdb : 0 < b.d)
    (hda' : a.d < 2 ^ 128) (hdb' : b.d < 2 ^ 128) :
    a.eq b = true ↔ (a.n : ℚ) / a.d = (b.n : ℚ) / b.d := by
  rw [div_eq_div_iff (by exact_mod_cast hda.ne') (by exact_mod_cast hdb.ne')]
  unfold eq
  by_cases heq : a.d = b.d
  · rw [if_pos heq, heq, beq_iff_eq]
    constructor
    · intro h
      rw [h]
    · intro h
      exact_mod_cast mul_right_cancel₀ (by exact_mod_cast hdb.ne' : (b.d : ℚ) ≠ 0) h
  obtain ⟨hl, hr⟩ := crossProducts_val hna hnb hda' hdb'
  rw [if_neg heq, eq_iff_val, hl, hr]
  exact_mod_cast Iff.rfl

end Bounded

theorem rational128_exact (a b : Rational128) (hna : a.n < 2 ^ 128) (hnb : b.n < 2 ^ 128)
    (hda : 0 < a.d) (hdb : 0 < b.d) (hda' : a.d < 2 ^ 128) (hdb' : b.d < 2 ^ 128) :
    a.cmp b = compare ((a.n : ℚ) / a.d) ((b.n : ℚ) / b.d) ∧
    (a.eq b = true ↔ (a.n : ℚ) / a.d = (b.n : ℚ) / b.d) ∧
    (∀ c, a.checkedAdd b = some (.ok c) →
      c.d = Nat.lcm a.d b.d ∧ (c.n : ℚ) / c.d = (a.n : ℚ) / a.d + (b.n : ℚ) / b.d) ∧
    (∀ e, a.checkedAdd b = some (.error e) →
      2 ^ 128 ≤ Nat.lcm a.d b.d ∨ 2 ^ 128 ≤ a.n * (Nat.lcm a.d b.d / a.d) ∨
        2 ^ 128 ≤ b.n * (Nat.lcm a.d b.d / b.d) ∨
        2 ^ 128 ≤ a.n * (Nat.lcm a.d b.d / a.d) + b.n * (Nat.lcm a.d b.d / b.d)) ∧
    (∀ c, a.checkedSub b = some (.ok c) →
      c.d = Nat.lcm a.d b.d ∧ (c.n : ℚ) / c.d = (a.n : ℚ) / a.d - (b.n : ℚ) / b.d) ∧
    (∀ e, a.checkedSub b = some (.error e) →
      2 ^ 128 ≤ Nat.lcm a.d b.d ∨ 2 ^ 128 ≤ a.n * (Nat.lcm a.d b.d / a.d) ∨
        2 ^ 128 ≤ b.n * (Nat.lcm a.d b.d / b.d) ∨ (a.n : ℚ) / a.d < (b.n : ℚ) / b.d) ∧
    ((a.checkedAdd b).isSome ∧ (a.checkedSub b).isSome) ∧
    (Nat.lcm a.d b.d < 2 ^ 128 → a.n * (Nat.lcm a.d b.d / a.d) + b.n * (Nat.lcm a.d b.d / b.d) < 2 ^ 128 →
      ∃ c, a.checkedAdd b = some (.ok c)) ∧
    (Nat.lcm a.d b.d < 2 ^ 128 → a.n * (Nat.lcm a.d b.d / a.d) < 2 ^ 128 →
      b.n * (Nat.lcm a.d b.d / b.d) < 2 ^ 128 → (b.n : ℚ) / b.d ≤ (a.n : ℚ) / a.d →
      ∃ c, a.checkedSub b = some (.ok c)) := by
  have hL : 0 < Nat.lcm a.d b.d := Nat.lcm_pos hda hdb
  have hqL : (0 : ℚ) < Nat.lcm a.d b.d := by exact_mod_cast hL
  -- each fraction is its scaled numerator over the lcm
  have hsa := scaled_div (n := a.n) hda (Nat.dvd_lcm_left a.d b.d) hL
  have hsb := scaled_div (n := b.n) hdb (Nat.dvd_lcm_right a.d b.d) hL
  refine ⟨cmp_eq_compare_div hna hnb hda hdb hda' hdb', eq_iff_div_eq hna hnb hda hdb hda' hdb',
    ?_, ?_, ?_, ?_, ⟨scaledOp_isSome hna hnb hda hdb hda' hdb', scaledOp_isSome hna hnb hda hdb hda' hdb'⟩,
    fun hL hsum => ?_, fun hL h1 h2 hle => ?_⟩
  · intro c h
    obtain ⟨hd, hop⟩ := scaledOp_ok hna hnb hda hdb hda' hdb' h
    unfold U128.checkedAdd at hop
    split_ifs at hop
    rw [hd, ← Option.some.inj hop, ← hsa, ← hsb, Nat.cast_add, add_div]
    exact ⟨rfl, rfl⟩
  · intro e h
    rcases scaledOp_error hna hnb hda hdb hda' hdb' h with h | h | h | hop
    · exact .inl h
    · exact .inr (.inl h)
    · exact .inr (.inr (.inl h))
    · unfold U128.checkedAdd at hop
      split_ifs at hop with hfit
      exact .inr (.inr (.inr (Nat.le_of_not_lt hfit)))
  · intro c h
    obtain ⟨hd, hop⟩ := scaledOp_ok hna hnb hda hdb hda' hdb' h
    unfold U128.checkedSub at hop
    split_ifs at hop with hle
    rw [hd, ← Option.some.inj hop, ← hsa, ← hsb, Nat.cast_sub hle, sub_div]
    exact ⟨rfl, rfl⟩
  · intro e h
    rcases scaledOp_error hna hnb hda hdb hda' hdb' h with h | h | h | hop
    · exact .inl h
    · exact .inr (.inl h)
    · exact .inr (.inr (.inl h))
    · unfold U128.checkedSub at hop
      split_ifs at hop with hle
      refine .inr (.inr (.inr ?_))
      rw [← hsa, ← hsb]
      exact div_lt_div_of_pos_right (by exact_mod_cast Nat.lt_of_not_le hle) hqL
  · -- a sum that fits means both summands fit
    have hop : U128.checkedAdd (a.n * (Nat.lcm a.d b.d / a.d)) (b.n * (Nat.lcm a.d b.d / b.d)) =
        some (a.n * (Nat.lcm a.d b.d / a.d) + b.n * (Nat.lcm a.d b.d / b.d)) := if_pos hsum
    exact ⟨_, scaledOp_ok_of_fits hna hnb hda hdb hda' hdb' hL (by omega) (by omega) hop⟩
  · -- the order of the values is the order of the scaled numerators
    have hscaled : b.n * (Nat.lcm a.d b.d / b.d) ≤ a.n * (Nat.lcm a.d b.d / a.d) := by
      rw [← hsa, ← hsb] at hle
      exact_mod_cast (div_le_div_iff_of_pos_right hqL).mp hle
    exact ⟨_, scaledOp_ok_of_fits hna hnb hda hdb hda' hdb' hL h1 h2 (if_pos hscaled)⟩

theorem rational128_exact_half_third :
    let a : Rational128 := ⟨1, 2⟩
    let b : Rational128 := ⟨1, 3⟩
    (a.n < 2 ^ 128 ∧ b.n < 2 ^ 128 ∧ 0 < a.d ∧ 0 < b.d ∧ a.d < 2 ^ 128 ∧ b.d < 2 ^ 128) ∧
      a.cmp b = compare ((a.n : ℚ) / a.d) ((b.n : ℚ) / b.d) := by
  intro a b
  exact ⟨by decide, (rational128_exact a b (by decide) (by decide) (by decide) (by decide) (by decide)
    (by decide)).1⟩

end Rational128

end SpArithmetic
