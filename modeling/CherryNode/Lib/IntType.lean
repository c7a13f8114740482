import Mathlib

/-!
# Primitive integer types

A Rust primitive integer type (`i8` to `i128`, `u8` to `u128`) is its
signedness and its width.  A value is an `Int` in the type's range
(`IntType.Value`), so an out-of-range value cannot be built.  Every checked
operation is `tryFromInt` of the exact result: it is `None` exactly when the
result leaves the range, and for `checked_div` also on a zero divisor.  Every
saturating operation is `clamp` of the exact result.  Division truncates
toward zero (`Int.tdiv`), as Rust's `/` does.
-/

/-- A primitive integer type of `bits` bits, signed or not. -/
structure IntType where
  signed : Bool
  bits : Nat
  bits_ge : 8 ≤ bits
  bits_le : bits ≤ 128

namespace IntType

/-- `min_value()`. -/
def minValue (N : IntType) : Int := if N.signed then -2 ^ (N.bits - 1) else 0

/-- `max_value()`. -/
def maxValue (N : IntType) : Int := if N.signed then 2 ^ (N.bits - 1) - 1 else 2 ^ N.bits - 1

/-- The integers the type holds. -/
def InRange (N : IntType) (z : Int) : Prop := N.minValue ≤ z ∧ z ≤ N.maxValue

instance (N : IntType) : DecidablePred N.InRange := fun z =>
  inferInstanceAs (Decidable (N.minValue ≤ z ∧ z ≤ N.maxValue))

/-- A value of the type. -/
abbrev Value (N : IntType) := {z : Int // N.InRange z}

def i32 : IntType := ⟨true, 32, by decide, by decide⟩
def i64 : IntType := ⟨true, 64, by decide, by decide⟩
def i128 : IntType := ⟨true, 128, by decide, by decide⟩
def u128 : IntType := ⟨false, 128, by decide, by decide⟩

section Bounds

variable (N : IntType)

theorem minValue_le_zero : N.minValue ≤ 0 := by
  have : (0 : Int) ≤ 2 ^ (N.bits - 1) := by positivity
  unfold minValue
  split_ifs <;> omega

theorem one_le_maxValue : 1 ≤ N.maxValue := by
  have h8 : (2 : Int) ^ 7 ≤ 2 ^ (N.bits - 1) := pow_le_pow_right₀ (by norm_num) (by have := N.bits_ge; omega)
  have h8' : (2 : Int) ^ 8 ≤ 2 ^ N.bits := pow_le_pow_right₀ (by norm_num) N.bits_ge
  unfold maxValue
  split_ifs <;> omega

theorem maxValue_lt : N.maxValue < 2 ^ 128 := by
  have h1 : (2 : Int) ^ (N.bits - 1) ≤ 2 ^ 128 := pow_le_pow_right₀ (by norm_num) (by have := N.bits_le; omega)
  have h2 : (2 : Int) ^ N.bits ≤ 2 ^ 128 := pow_le_pow_right₀ (by norm_num) N.bits_le
  unfold maxValue
  split_ifs <;> omega

theorem minValue_eq : N.minValue = if N.signed then -(N.maxValue + 1) else 0 := by
  unfold minValue maxValue
  split_ifs <;> ring

theorem inRange_zero : N.InRange 0 := ⟨N.minValue_le_zero, le_trans (by norm_num) N.one_le_maxValue⟩

theorem inRange_minValue : N.InRange N.minValue :=
  ⟨le_refl _, le_trans N.minValue_le_zero (le_trans (by norm_num) N.one_le_maxValue)⟩

theorem inRange_maxValue : N.InRange N.maxValue :=
  ⟨le_trans N.minValue_le_zero (le_trans (by norm_num) N.one_le_maxValue), le_refl _⟩

theorem signed_of_neg {z : Int} (h : N.InRange z) (hz : z < 0) : N.signed = true := by
  by_contra hs
  have := h.1
  simp only [minValue, hs, ↓reduceIte] at this
  omega

theorem maxValue_lt_of_signed (hs : N.signed = true) : N.maxValue < 2 ^ 127 := by
  have h : (2 : Int) ^ (N.bits - 1) ≤ 2 ^ 127 := pow_le_pow_right₀ (by norm_num) (by have := N.bits_le; omega)
  simp only [maxValue, hs, ↓reduceIte]
  omega

theorem natAbs_lt {z : Int} (h : N.InRange z) : z.natAbs < 2 ^ 128 := by
  have hmax := N.maxValue_lt
  rcases lt_or_ge z 0 with hz | hz
  · have hs := N.signed_of_neg h hz
    have hmin := N.minValue_eq
    have := N.maxValue_lt_of_signed hs
    simp only [hs, ↓reduceIte] at hmin
    have := h.1
    omega
  · have := h.2
    omega

end Bounds

/-- `min_value()` as a value. -/
def minV (N : IntType) : N.Value := ⟨N.minValue, N.inRange_minValue⟩

/-- `max_value()` as a value. -/
def maxV (N : IntType) : N.Value := ⟨N.maxValue, N.inRange_maxValue⟩

/-- `zero()`. -/
def zeroV (N : IntType) : N.Value := ⟨0, N.inRange_zero⟩

/-- `TryFrom`: the integer when the type holds it. -/
def tryFromInt (N : IntType) (z : Int) : Option N.Value := if h : N.InRange z then some ⟨z, h⟩ else none

/-- The saturating result: the integer moved into the range. -/
def clamp (N : IntType) (z : Int) : N.Value :=
  ⟨max N.minValue (min z N.maxValue), by
    have := N.minValue_le_zero
    have := N.one_le_maxValue
    constructor <;> omega⟩

/-- `checked_neg`. -/
def checkedNeg (N : IntType) (x : N.Value) : Option N.Value := N.tryFromInt (-x.val)

/-- `checked_mul`. -/
def checkedMul (N : IntType) (x y : N.Value) : Option N.Value := N.tryFromInt (x.val * y.val)

/-- `checked_div`: `None` on a zero divisor or when the quotient overflows
(`MIN / -1`). -/
def checkedDiv (N : IntType) (x y : N.Value) : Option N.Value :=
  if y.val = 0 then none else N.tryFromInt (x.val.tdiv y.val)

/-- `saturating_add`. -/
def saturatingAdd (N : IntType) (x y : N.Value) : N.Value := N.clamp (x.val + y.val)

/-- `saturating_sub`. -/
def saturatingSub (N : IntType) (x y : N.Value) : N.Value := N.clamp (x.val - y.val)

/-! ## Lemmas -/

section Lemmas

variable {N : IntType}

variable {z : Int}

@[simp] theorem tryFromInt_of_inRange (h : N.InRange z) : N.tryFromInt z = some ⟨z, h⟩ := by
  simp [tryFromInt, h]

@[simp] theorem tryFromInt_of_not_inRange (h : ¬ N.InRange z) : N.tryFromInt z = none := by
  simp [tryFromInt, h]

theorem clamp_val (z : Int) : (N.clamp z).val = max N.minValue (min z N.maxValue) := rfl

theorem inRange_of_between {x z : Int} (hx : N.InRange x) (hz : min 0 x ≤ z ∧ z ≤ max 0 x) :
    N.InRange z := by
  have := N.minValue_le_zero
  have := N.one_le_maxValue
  obtain ⟨h1, h2⟩ := hx
  constructor <;> omega

theorem tdiv_between (x : Int) {d : Int} (hd : 0 < d) :
    (min 0 x ≤ x.tdiv d ∧ x.tdiv d ≤ max 0 x) ∧ (min 0 x ≤ x.tdiv d * d ∧ x.tdiv d * d ≤ max 0 x) := by
  rcases le_or_gt 0 x with hx | hx
  · rw [Int.tdiv_eq_ediv_of_nonneg hx]
    have h1 := Int.ediv_nonneg hx hd.le
    have h2 := Int.ediv_le_self d hx
    have h3 := Int.ediv_mul_le x hd.ne'
    have h4 : 0 ≤ x / d * d := Int.mul_nonneg h1 hd.le
    omega
  · -- a negative dividend: the mirror image of `-x`
    have hx' : 0 ≤ -x := by omega
    have hneg : x.tdiv d = -((-x) / d) := by rw [← Int.tdiv_eq_ediv_of_nonneg hx', Int.neg_tdiv, neg_neg]
    have h1 := Int.ediv_nonneg hx' hd.le
    have h2 := Int.ediv_le_self d hx'
    have h3 := Int.ediv_mul_le (-x) hd.ne'
    have h4 : 0 ≤ -x / d * d := Int.mul_nonneg h1 hd.le
    have h5 : -(-x / d) * d = -(-x / d * d) := by ring
    rw [hneg, h5]
    omega

end Lemmas

end IntType

/-! ## `u32` over `Nat`

Block numbers and era indices are `u32` values kept as `Nat` below `2 ^ 32`.
A release build checks no overflow, so `+` wraps; `saturating_add` stops at
`u32::MAX`. -/

namespace U32

/-- `u32::MAX`. -/
def maxValue : Nat := 2 ^ 32 - 1

/-- `a + b` on `u32` in a release build. -/
def wrappingAdd (a b : Nat) : Nat := (a + b) % 2 ^ 32

/-- `a.saturating_add(b)` on `u32`. -/
def saturatingAdd (a b : Nat) : Nat := min (a + b) maxValue

variable {a b : Nat}

theorem wrappingAdd_of_lt (h : a + b < 2 ^ 32) : wrappingAdd a b = a + b := Nat.mod_eq_of_lt h

theorem wrappingAdd_lt (a b : Nat) : wrappingAdd a b < 2 ^ 32 := Nat.mod_lt _ (by norm_num)

theorem wrappingAdd_le (a b : Nat) : wrappingAdd a b ≤ a + b := Nat.mod_le _ _

/-- A sum past `u32::MAX` wraps to the part above `2 ^ 32`. -/
theorem wrappingAdd_of_ge (ha : a < 2 ^ 32) (hb : b < 2 ^ 32) (h : 2 ^ 32 ≤ a + b) :
    wrappingAdd a b = a + b - 2 ^ 32 := by
  unfold wrappingAdd
  rw [Nat.mod_eq_sub_mod h, Nat.mod_eq_of_lt (by omega)]

end U32
