import CherryNode.Arithmetic.Helpers128
import CherryNode.Lib.IntType

/-!
# sp-arithmetic: fixed-point numbers

`FixedI64`, `FixedI128` and `FixedU128` are one `implement_fixed!` macro over
an inner integer and a `DIV`; here one structure `Fixed F` over a `FixedType`.
The checked operations share a pattern: each operand goes to a sign and a
`u128` magnitude (`I129`), the magnitudes go through `multiply_by_rational`,
and the result comes back by `from_i129` with the product's sign.  Both
conversions are exact, `MIN` included (`I129.fromInt_value`, `fromI129_eq`),
so each checked operation is `signedQuotient` when the target holds it
(`checked_sign_magnitude`).

A panic is `none` of an `Option`: the `expect`s of `trunc` and of
`multiply_by_rational`.  The rounding functions are built from `trunc`, which
is exact (`trunc_val`); `floor` subtracts one before truncating even from a
negative integer.  `saturating_pow` casts its exponent to `u32`.
-/

namespace SpArithmetic

open Helpers128bit IntType

/-! ## `I129` -/

/-- `I129`: a `u128` magnitude and a sign. -/
structure I129 where
  value : Nat
  negative : Bool
deriving DecidableEq, Repr

/-- `unique_saturated_into::<u128>()`: negative numbers to `0`, large ones to
`u128::MAX`. -/
def uniqueSaturatedIntoU128 (z : Int) : Nat := min z.toNat (2 ^ 128 - 1)

/-- `u128::saturating_add`. -/
def saturatingAddU128 (a b : Nat) : Nat := min (a + b) (2 ^ 128 - 1)

/-- `u128::saturating_mul`. -/
def saturatingMulU128 (a b : Nat) : Nat := min (a * b) (2 ^ 128 - 1)

namespace I129

/-- `From<N> for I129` (`from`): the magnitude of `MIN`, whose negation overflows, is
`max_value() + 1`. -/
def fromInt (N : IntType) (n : N.Value) : I129 :=
  if n.val < 0 then
    let value := match N.checkedNeg n with
      | some m => uniqueSaturatedIntoU128 m.val
      | none => saturatingAddU128 (uniqueSaturatedIntoU128 N.maxValue) 1
    ⟨value, true⟩
  else ⟨uniqueSaturatedIntoU128 n.val, false⟩

end I129

/-- `from_i129`: back to `N` when it holds the signed number. -/
def fromI129 (N : IntType) (n : I129) : Option N.Value :=
  let maxPlusOne := saturatingAddU128 (uniqueSaturatedIntoU128 N.maxValue) 1
  if n.negative ∧ N.minValue < 0 ∧ n.value = maxPlusOne then some N.minV
  else
    match N.tryFromInt n.value with
    | none => none
    | some unsignedInner => if n.negative then N.checkedNeg unsignedInner else some unsignedInner

/-- The sign of a product: exactly one factor negative. -/
def productNegative (x y : Int) : Bool := decide (x < 0) != decide (y < 0)

/-- `to_bound(n, m)`: `R::min_value()` when `n * m` is negative, else
`R::max_value()`. -/
def toBound (n m : Int) (R : IntType) : R.Value :=
  if decide (n < 0) != decide (m < 0) then R.minV else R.maxV

/-- `multiply_by_rational(a, b, c).ok().and_then(|value| from_i129(I129 { value, negative }))`:
the step each checked operation ends with.  The outer `none` is a panic of
`multiply_by_rational`. -/
def mulRatI129 (R : IntType) (a b c : Nat) (negative : Bool) : Option (Option R.Value) :=
  (multiplyByRational a b c).map fun r => r.toOption.bind fun value => fromI129 R ⟨value, negative⟩

/-- The signed number every checked operation aims at:
`multiply_by_rational(a, b, c)` with the sign `negative`, when it is `Ok` and
`R` holds it. -/
def signedQuotient (R : IntType) (a b c : Nat) (negative : Bool) : Option R.Value :=
  match multiplyByRational a b c with
  | some (.ok m) => R.tryFromInt (if negative then -(m : Int) else m)
  | _ => none

/-! ### The sign-magnitude conversions -/

theorem uniqueSaturatedIntoU128_of_lt {z : Int} (h : z < 2 ^ 128) : uniqueSaturatedIntoU128 z = z.toNat := by
  unfold uniqueSaturatedIntoU128
  omega

theorem uniqueSaturatedIntoU128_natCast {n : Nat} (h : n < 2 ^ 128) : uniqueSaturatedIntoU128 n = n := by
  rw [uniqueSaturatedIntoU128_of_lt (by exact_mod_cast h), Int.toNat_natCast]

theorem toBound_eq (n m : Int) (R : IntType) : toBound n m R = if productNegative n m then R.minV else R.maxV := rfl

namespace I129

variable {N : IntType}

theorem fromInt_negative (n : N.Value) : (fromInt N n).negative = decide (n.val < 0) := by
  unfold fromInt
  split_ifs with hneg <;> simp [hneg]

/-- `From<N>` takes the magnitude exactly, `MIN`'s included. -/
theorem fromInt_value (n : N.Value) : (fromInt N n).value = n.val.natAbs := by
  have hmax := N.maxValue_lt
  unfold fromInt
  by_cases hneg : n.val < 0
  · rw [if_pos hneg]
    dsimp only
    unfold checkedNeg
    by_cases hr : N.InRange (-n.val)
    · rw [tryFromInt_of_inRange hr]
      dsimp only
      rw [uniqueSaturatedIntoU128_of_lt (by have := hr.2; omega)]
      omega
    · -- `-MIN` overflows: `n` is `MIN = -(max + 1)`
      rw [tryFromInt_of_not_inRange hr]
      dsimp only
      have hs := N.signed_of_neg n.property hneg
      have hsmall := N.maxValue_lt_of_signed hs
      have hmin := N.minValue_eq
      simp only [hs, ↓reduceIte] at hmin
      have hlow := n.property.1
      have hnot : ¬(N.minValue ≤ -n.val ∧ -n.val ≤ N.maxValue) := hr
      unfold saturatingAddU128
      rw [uniqueSaturatedIntoU128_of_lt hmax, Nat.min_eq_left (by omega)]
      omega
  · rw [if_neg hneg, uniqueSaturatedIntoU128_of_lt (by have := n.property.2; omega)]
    dsimp only
    omega

end I129

/-- `from_i129` gives back the signed number when `N` holds it. -/
theorem fromI129_eq {N : IntType} {v : Nat} (hv : v < 2 ^ 128) (negative : Bool) :
    fromI129 N ⟨v, negative⟩ = N.tryFromInt (if negative then -(v : Int) else v) := by
  have hmax := N.maxValue_lt
  have hone := N.one_le_maxValue
  have hmin := N.minValue_eq
  unfold fromI129
  dsimp only
  by_cases hA : negative = true ∧ N.minValue < 0 ∧ v = saturatingAddU128 (uniqueSaturatedIntoU128 N.maxValue) 1
  · -- `MIN`: its magnitude `max + 1` fits in `u128` but not in `N`
    rw [if_pos hA]
    obtain ⟨rfl, hm, hv'⟩ := hA
    have hs : N.signed = true := by
      by_contra hs
      simp only [hs, ↓reduceIte] at hmin
      omega
    have hsmall := N.maxValue_lt_of_signed hs
    simp only [hs, ↓reduceIte] at hmin
    unfold saturatingAddU128 at hv'
    rw [uniqueSaturatedIntoU128_of_lt hmax, Nat.min_eq_left (by omega)] at hv'
    rw [if_pos rfl, show -(v : Int) = N.minValue by omega, tryFromInt_of_inRange N.inRange_minValue]
    rfl
  rw [if_neg hA]
  by_cases hr : N.InRange (v : Int)
  · rw [tryFromInt_of_inRange hr]
    cases negative
    · simp [tryFromInt_of_inRange hr]
    · rfl
  rw [tryFromInt_of_not_inRange hr]
  cases negative
  · simp [tryFromInt_of_not_inRange hr]
  -- `-v` is out of range too: a signed `N` would make `v` the excluded `max + 1`
  simp only [↓reduceIte]
  symm
  apply tryFromInt_of_not_inRange
  rintro ⟨h1, -⟩
  have hbig : N.maxValue < v := by
    by_contra h
    have hv0 : N.minValue ≤ (v : Int) := by omega
    exact hr ⟨hv0, Int.not_lt.mp h⟩
  by_cases hs : N.signed = true
  · have hsmall := N.maxValue_lt_of_signed hs
    simp only [hs, ↓reduceIte] at hmin
    apply hA
    refine ⟨rfl, by omega, ?_⟩
    unfold saturatingAddU128
    rw [uniqueSaturatedIntoU128_of_lt hmax, Nat.min_eq_left (by omega)]
    omega
  · simp only [hs, Bool.false_eq_true, ↓reduceIte] at hmin
    omega

theorem mulRatI129_eq (R : IntType) {a b c : Nat} (ha : a < 2 ^ 128) (hb : b < 2 ^ 128) (hc : c < 2 ^ 128)
    (negative : Bool) : mulRatI129 R a b c negative = some (signedQuotient R a b c negative) := by
  obtain ⟨r, hr, hlt⟩ := multiplyByRational_isSome ha hb hc
  unfold mulRatI129 signedQuotient
  rw [hr]
  cases r with
  | ok m => simp only [Option.map_some, Except.toOption, Option.bind_some, fromI129_eq (hlt m rfl)]
  | error e => rfl

/-! ## Fixed-point types -/

/-- A fixed-point type: its `Inner` integer type and its `DIV`. -/
structure FixedType where
  Inner : IntType
  div : Nat
  div_pos : 0 < div
  div_le : (div : Int) ≤ Inner.maxValue

/-- `FixedI64`: `i64` with nine decimals. -/
def FixedType.fixedI64 : FixedType := ⟨IntType.i64, 1000000000, by decide, by decide⟩

/-- `FixedI128`: `i128` with eighteen decimals. -/
def FixedType.fixedI128 : FixedType := ⟨IntType.i128, 1000000000000000000, by decide, by decide⟩

/-- `FixedU128`: `u128` with eighteen decimals. -/
def FixedType.fixedU128 : FixedType := ⟨IntType.u128, 1000000000000000000, by decide, by decide⟩

/-- `DIV` as a value of `Inner`. -/
def FixedType.divV (F : FixedType) : F.Inner.Value :=
  ⟨F.div, le_trans F.Inner.minValue_le_zero (Int.natCast_nonneg _), F.div_le⟩

/-- A fixed-point number: its inner integer. -/
structure Fixed (F : FixedType) where
  inner : F.Inner.Value
deriving DecidableEq

namespace Fixed

variable {F : FixedType}

/-- `from_inner`. -/
def fromInner (inner : F.Inner.Value) : Fixed F := ⟨inner⟩

def zero : Fixed F := ⟨F.Inner.zeroV⟩

def one : Fixed F := ⟨F.divV⟩

def minValue : Fixed F := ⟨F.Inner.minV⟩

def maxValue : Fixed F := ⟨F.Inner.maxV⟩

def isNegative (x : Fixed F) : Bool := decide (x.inner.val < 0)

def isPositive (x : Fixed F) : Bool := decide (0 < x.inner.val)

def saturatingAdd (x rhs : Fixed F) : Fixed F := ⟨F.Inner.saturatingAdd x.inner rhs.inner⟩

def saturatingSub (x rhs : Fixed F) : Fixed F := ⟨F.Inner.saturatingSub x.inner rhs.inner⟩

/-- `saturating_abs`: `max_value()` for `min_value()`. -/
def saturatingAbs (x : Fixed F) : Fixed F :=
  if x.inner.val ≥ 0 then x else ⟨(F.Inner.checkedNeg x.inner).getD F.Inner.maxV⟩

/-- `checked_mul`. -/
def checkedMul (x other : Fixed F) : Option (Option (Fixed F)) :=
  let lhs := I129.fromInt F.Inner x.inner
  let rhs := I129.fromInt F.Inner other.inner
  let negative := lhs.negative != rhs.negative
  (mulRatI129 F.Inner lhs.value rhs.value F.div negative).map (Option.map fromInner)

/-- `checked_div`. -/
def checkedDiv (x other : Fixed F) : Option (Option (Fixed F)) :=
  if other.inner.val = 0 then some none
  else
    let lhs := I129.fromInt F.Inner x.inner
    let rhs := I129.fromInt F.Inner other.inner
    let negative := lhs.negative != rhs.negative
    (mulRatI129 F.Inner lhs.value F.div rhs.value negative).map (Option.map fromInner)

/-- `checked_mul_int(n)` for an integer type `N`. -/
def checkedMulInt (x : Fixed F) (N : IntType) (n : N.Value) : Option (Option N.Value) :=
  let lhs := I129.fromInt F.Inner x.inner
  let rhs := I129.fromInt N n
  let negative := lhs.negative != rhs.negative
  mulRatI129 N lhs.value rhs.value (uniqueSaturatedIntoU128 F.div) negative

/-- `checked_from_rational(n, d)` for integer types `N` and `D`. -/
def checkedFromRational (N D : IntType) (n : N.Value) (d : D.Value) : Option (Option (Fixed F)) :=
  if d.val = 0 then some none
  else
    let n := I129.fromInt N n
    let d := I129.fromInt D d
    let negative := n.negative != d.negative
    (mulRatI129 F.Inner n.value (uniqueSaturatedIntoU128 F.div) d.value negative).map (Option.map fromInner)

/-- `saturating_mul`: the bound with the product's sign when `checked_mul`
fails. -/
def saturatingMul (x rhs : Fixed F) : Option (Fixed F) :=
  (x.checkedMul rhs).map fun r => r.getD ⟨toBound x.inner.val rhs.inner.val F.Inner⟩

/-- `saturating_mul_int(n)`. -/
def saturatingMulInt (x : Fixed F) (N : IntType) (n : N.Value) : Option N.Value :=
  (x.checkedMulInt N n).map fun r => r.getD (toBound x.inner.val n.val N)

/-- `saturating_from_integer(int)` for an integer type `N`. -/
def saturatingFromInteger (N : IntType) (int : N.Value) : Fixed F :=
  let n := I129.fromInt N int
  let n : I129 := { n with value := saturatingMulU128 n.value (uniqueSaturatedIntoU128 F.div) }
  ⟨(fromI129 F.Inner n).getD (toBound int.val 0 F.Inner)⟩

/-- The literal `k` of `saturating_from_integer(k)`, an `i32`. -/
def literal (k : Int) (h : IntType.i32.InRange k) : Fixed F := saturatingFromInteger IntType.i32 ⟨k, h⟩

/-- `trunc`: both `expect`s are panics. -/
def trunc (x : Fixed F) : Option (Fixed F) := do
  let q ← F.Inner.checkedDiv x.inner F.divV
  let p ← F.Inner.checkedMul q F.divV
  pure ⟨p⟩

/-- `frac`: non-negative, except when the integer part is zero. -/
def frac (x : Fixed F) : Option (Fixed F) := do
  let integer ← x.trunc
  let fractional := x.saturatingSub integer
  pure (if integer = zero then fractional else fractional.saturatingAbs)

/-- `ceil`. -/
def ceil (x : Fixed F) : Option (Fixed F) :=
  if x.isNegative then x.trunc
  else do
    let f ← x.frac
    if f = zero then pure x else (x.saturatingAdd one).trunc

/-- `floor`. -/
def floor (x : Fixed F) : Option (Fixed F) :=
  if x.isNegative then (x.saturatingSub one).trunc else x.trunc

/-- `round`. -/
def round (x : Fixed F) : Option (Fixed F) := do
  let f ← x.frac
  let n ← f.saturatingMul (literal 10 (by decide))
  if n.inner.val < (literal 5 (by decide) : Fixed F).inner.val then x.trunc
  else if x.isPositive then (x.saturatingAdd one).trunc
  else (x.saturatingSub one).trunc

/-- Round `i` of `saturating_pow`'s loop: multiply the result in when bit `i`
of the exponent is set, then square. -/
def powRound (exp : UInt32) (acc : Fixed F × Fixed F) (i : Nat) : Option (Fixed F × Fixed F) := do
  let result ← if ((1 : UInt32) <<< UInt32.ofNat i) &&& exp > 0 then acc.1.saturatingMul acc.2 else pure acc.1
  let powVal ← acc.2.saturatingMul acc.2
  pure (result, powVal)

/-- `saturating_pow(exp)`, with `exp : usize` cast `as u32`. -/
def saturatingPow (x : Fixed F) (exp : Nat) : Option (Fixed F) :=
  if exp = 0 then some (literal 1 (by decide))
  else
    let exp := UInt32.ofNat exp
    let msbPos := 32 - BigUint.leadingZeros exp
    ((List.range msbPos).foldlM (powRound exp) (literal 1 (by decide), x)).map Prod.fst

/-! ### The checked operations -/

theorem div_lt (F : FixedType) : F.div < 2 ^ 128 := by
  have := F.div_le
  have := F.Inner.maxValue_lt
  omega

theorem checkedMul_eq (x y : Fixed F) :
    x.checkedMul y = some ((signedQuotient F.Inner x.inner.val.natAbs y.inner.val.natAbs F.div
      (productNegative x.inner.val y.inner.val)).map fromInner) := by
  unfold checkedMul
  simp only [I129.fromInt_value, I129.fromInt_negative]
  rw [mulRatI129_eq _ (F.Inner.natAbs_lt x.inner.property) (F.Inner.natAbs_lt y.inner.property) (div_lt F),
    Option.map_some]
  rfl

theorem checkedDiv_eq (x y : Fixed F) :
    x.checkedDiv y = some (if y.inner.val = 0 then none
      else (signedQuotient F.Inner x.inner.val.natAbs F.div y.inner.val.natAbs
        (productNegative x.inner.val y.inner.val)).map fromInner) := by
  unfold checkedDiv
  split_ifs with h0
  · rfl
  simp only [I129.fromInt_value, I129.fromInt_negative]
  rw [mulRatI129_eq _ (F.Inner.natAbs_lt x.inner.property) (div_lt F) (F.Inner.natAbs_lt y.inner.property),
    Option.map_some]
  rfl

theorem checkedMulInt_eq (x : Fixed F) (N : IntType) (n : N.Value) :
    x.checkedMulInt N n =
      some (signedQuotient N x.inner.val.natAbs n.val.natAbs F.div (productNegative x.inner.val n.val)) := by
  unfold checkedMulInt
  simp only [I129.fromInt_value, I129.fromInt_negative, uniqueSaturatedIntoU128_natCast (div_lt F)]
  rw [mulRatI129_eq _ (F.Inner.natAbs_lt x.inner.property) (N.natAbs_lt n.property) (div_lt F)]
  rfl

theorem checkedFromRational_eq (N D : IntType) (n : N.Value) (d : D.Value) :
    checkedFromRational (F := F) N D n d = some (if d.val = 0 then none
      else (signedQuotient F.Inner n.val.natAbs F.div d.val.natAbs (productNegative n.val d.val)).map fromInner) := by
  unfold checkedFromRational
  split_ifs with h0
  · rfl
  simp only [I129.fromInt_value, I129.fromInt_negative, uniqueSaturatedIntoU128_natCast (div_lt F)]
  rw [mulRatI129_eq _ (N.natAbs_lt n.property) (div_lt F) (D.natAbs_lt d.property), Option.map_some]
  rfl

theorem saturatingMul_eq (x y : Fixed F) :
    x.saturatingMul y = some (((signedQuotient F.Inner x.inner.val.natAbs y.inner.val.natAbs F.div
      (productNegative x.inner.val y.inner.val)).map fromInner).getD
        (if productNegative x.inner.val y.inner.val then minValue else maxValue)) := by
  unfold saturatingMul
  rw [checkedMul_eq, Option.map_some, toBound_eq]
  split_ifs <;> rfl

theorem saturatingMulInt_eq (x : Fixed F) (N : IntType) (n : N.Value) :
    x.saturatingMulInt N n = some ((signedQuotient N x.inner.val.natAbs n.val.natAbs F.div
      (productNegative x.inner.val n.val)).getD (if productNegative x.inner.val n.val then N.minV else N.maxV)) := by
  unfold saturatingMulInt
  rw [checkedMulInt_eq, Option.map_some, toBound_eq]

/-! ### Rounding -/

/-- `trunc` never panics: it rounds toward zero to a multiple of `DIV`. -/
theorem trunc_val (x : Fixed F) : x.trunc.map (fun y => y.inner.val) = some (x.inner.val.tdiv F.div * F.div) := by
  have hd : (0 : Int) < F.div := by exact_mod_cast F.div_pos
  obtain ⟨hq, hp⟩ := tdiv_between x.inner.val hd
  have hqr := inRange_of_between x.inner.property hq
  have hpr := inRange_of_between x.inner.property hp
  have hdiv : F.divV.val ≠ 0 := by
    show (F.div : Int) ≠ 0
    omega
  unfold trunc
  simp only [IntType.checkedDiv, if_neg hdiv]
  rw [tryFromInt_of_inRange (by exact hqr)]
  simp only [Option.bind_eq_bind, Option.bind_some, IntType.checkedMul]
  rw [tryFromInt_of_inRange (by exact hpr)]
  rfl

theorem checked_sign_magnitude (F : FixedType) :
    (∀ x y : Fixed F, x.checkedMul y = some ((signedQuotient F.Inner x.inner.val.natAbs y.inner.val.natAbs
        F.div (productNegative x.inner.val y.inner.val)).map fromInner)) ∧
    (∀ x y : Fixed F, x.checkedDiv y = some (if y.inner.val = 0 then none
        else (signedQuotient F.Inner x.inner.val.natAbs F.div y.inner.val.natAbs
          (productNegative x.inner.val y.inner.val)).map fromInner)) ∧
    (∀ (x : Fixed F) (N : IntType) (n : N.Value), x.checkedMulInt N n =
        some (signedQuotient N x.inner.val.natAbs n.val.natAbs F.div (productNegative x.inner.val n.val))) ∧
    (∀ (N D : IntType) (n : N.Value) (d : D.Value), checkedFromRational (F := F) N D n d =
        some (if d.val = 0 then none
          else (signedQuotient F.Inner n.val.natAbs F.div d.val.natAbs (productNegative n.val d.val)).map
            fromInner)) ∧
    (∀ x y : Fixed F, x.saturatingMul y = some (((signedQuotient F.Inner x.inner.val.natAbs
        y.inner.val.natAbs F.div (productNegative x.inner.val y.inner.val)).map fromInner).getD
          (if productNegative x.inner.val y.inner.val then minValue else maxValue))) ∧
    (∀ (x : Fixed F) (N : IntType) (n : N.Value), x.saturatingMulInt N n =
        some ((signedQuotient N x.inner.val.natAbs n.val.natAbs F.div (productNegative x.inner.val n.val)).getD
          (if productNegative x.inner.val n.val then N.minV else N.maxV))) :=
  ⟨checkedMul_eq, checkedDiv_eq, checkedMulInt_eq, checkedFromRational_eq, saturatingMul_eq,
    saturatingMulInt_eq⟩

theorem floor_round_below_zero :
    floor (⟨⟨-2000000000, by decide⟩⟩ : Fixed FixedType.fixedI64) = some ⟨⟨-3000000000, by decide⟩⟩ ∧
      round (⟨⟨-500000000, by decide⟩⟩ : Fixed FixedType.fixedI64) = some zero :=
  ⟨by decide, by decide⟩

theorem saturatingPow_two_pow_32 :
    (⟨⟨2000000000, by decide⟩⟩ : Fixed FixedType.fixedI64).saturatingPow (2 ^ 32) = some one ∧
      (one : Fixed FixedType.fixedI64) ≠ maxValue :=
  ⟨by decide, by decide⟩

end Fixed

end SpArithmetic

