import CherryNode.Arithmetic.BigUintDiv

/-!
# sp-arithmetic: `helpers_128bit`

`u128` values are `Nat`s below `2 ^ 128`, each lemma saying so where needed.
`multiply_by_rational(a, b, c)` computes `a * b / max(c, 1)`: it orders the
operands, divides first when `c` divides one (`prepare`), tries the product in
`u128`, and otherwise goes through `BigUint`, `div_unit` for a one-limb `c` and
`div` with a round half up beyond (`bigQuotient`).  `multiplyByRational_eq`
gives it as one value: the exact quotient, plus one on that last path when the
remainder is above half of `c`, and `Err` exactly when it does not fit.  `gcd`
is the binary algorithm of `Rational128::lcm`, equal to `Nat.gcd` (`gcd_eq`).
-/

namespace SpArithmetic

namespace Helpers128bit

open BigUint

/-! ## Algorithm -/

/-- `gcd(a, b)`: Stein's binary algorithm, with the arms of the source's `match`
in their order.  The last arm is the one where both are odd: `x &&& 1` is `0`
or `1`, so the source's `unreachable!()` arm is never taken. -/
def gcd (a b : Nat) : Nat :=
  if _hab : a = b then b
  else if _ha : a = 0 then b
  else if _hb : b = 0 then a
  else if a &&& 1 = 0 ∧ b &&& 1 = 1 then gcd (a >>> 1) b
  else if a &&& 1 = 1 ∧ b &&& 1 = 0 then gcd (b >>> 1) a
  else if a &&& 1 = 0 ∧ b &&& 1 = 0 then gcd (a >>> 1) (b >>> 1) <<< 1
  else gcd ((max a b - min a b) >>> 1) (min a b)
termination_by a + b
decreasing_by all_goals simp only [Nat.shiftRight_eq_div_pow, pow_one]; omega

/-- `split(a)` of a `u128`: its high and low `u64` halves. -/
def split (a : Nat) : Nat × Nat :=
  let al := a % 2 ^ 64
  let ah := (a >>> 64) % 2 ^ 64
  (ah, al)

/-- `to_big_uint(x)`: the four limbs of a `u128`, stripped. -/
def toBigUint (x : Nat) : BigUint :=
  let xh := (split x).1
  let xl := (split x).2
  (fromLimbs [(SpArithmetic.split xh).1, (SpArithmetic.split xh).2,
    (SpArithmetic.split xl).1, (SpArithmetic.split xl).2]).lstrip

/-- `u128::checked_mul`. -/
def checkedMul (a b : Nat) : Option Nat := if a * b < 2 ^ 128 then some (a * b) else none

/-- The operands of `multiply_by_rational` once `c` is at least one, `a` is the
larger of `a` and `b`, and `c` has divided one of them when it could (then `c`
becomes one). -/
def prepare (a b c : Nat) : Nat × Nat × Nat :=
  let c := max c 1
  let a' := if b > a then b else a
  let b' := if b > a then a else b
  if a' % c = 0 then (a' / c, b', 1)
  else if b' % c = 0 then (a', b' / c, 1)
  else (a', b', c)

/-- The `else` branch of `multiply_by_rational`: `a * b / c` on big numbers, by
`div_unit` when `c` is one limb, else by `div`, rounded half up.  `none` is the
panic of the `expect` on the remainder. -/
def bigQuotient (a b c : Nat) : Option BigUint :=
  let aNum := toBigUint a
  let bNum := toBigUint b
  let cNum := toBigUint c
  let ab := (aNum.mul bNum).lstrip
  if cNum.len = 1 then some (ab.divUnit (UInt32.ofNat c))
  else
    let qr := (ab.div cNum true).getD (zero, zero)
    (tryInto 128 "u128" qr.2).toOption.map fun r =>
      if r > c / 2 then qr.1.add (toBigUint 1) else qr.1

/-- `multiply_by_rational(a, b, c)`: `a * b / c`, tried in `u128` first.  The
outer `none` is a panic. -/
def multiplyByRational (a b c : Nat) : Option (Except String Nat) :=
  if a = 0 ∨ b = 0 then some (.ok 0)
  else
    let p := prepare a b c
    match checkedMul p.1 p.2.1 with
    | some x => some (.ok (x / p.2.2))
    | none =>
      (bigQuotient p.1 p.2.1 p.2.2).map fun q =>
        (tryInto 128 "u128" q.lstrip).mapError fun _ => "result cannot fit in u128"

/-! ## Lemmas -/

theorem split_eq {a : Nat} (ha : a < 2 ^ 128) : split a = (a / 2 ^ 64, a % 2 ^ 64) := by
  simp only [split, Nat.shiftRight_eq_div_pow, Prod.mk.injEq, and_true]
  exact Nat.mod_eq_of_lt (by omega)

theorem toNat_split (d : Nat) :
    (SpArithmetic.split d).1.toNat = d / base % base ∧ (SpArithmetic.split d).2.toNat = d % base :=
  ⟨UInt32.toNat_ofNat, UInt32.toNat_ofNat⟩

theorem val_fromLimbs_four (a b c d : UInt32) :
    (fromLimbs [a, b, c, d]).val = d.toNat + base * (c.toNat + base * (b.toNat + base * a.toNat)) := by
  simp [fromLimbs, val, limbs, Nat.ofDigits_cons]

theorem split_toNat_add {d : Nat} (hd : d < 2 ^ 64) :
    (SpArithmetic.split d).2.toNat + base * (SpArithmetic.split d).1.toNat = d := by
  rw [(toNat_split d).1, (toNat_split d).2, Nat.mod_eq_of_lt (Nat.div_lt_of_lt_mul (by unfold base; omega))]
  exact Nat.mod_add_div d base

theorem toBigUint_val {x : Nat} (hx : x < 2 ^ 128) : (toBigUint x).val = x := by
  unfold toBigUint
  rw [lstrip_val, split_eq hx, val_fromLimbs_four]
  dsimp only
  have hlow := split_toNat_add (Nat.mod_lt x (show 0 < 2 ^ 64 by decide))
  have hhigh := split_toNat_add (show x / 2 ^ 64 < 2 ^ 64 by omega)
  set D := (SpArithmetic.split (x % 2 ^ 64)).2.toNat
  set C := (SpArithmetic.split (x % 2 ^ 64)).1.toNat
  set B := (SpArithmetic.split (x / 2 ^ 64)).2.toNat
  set A := (SpArithmetic.split (x / 2 ^ 64)).1.toNat
  calc D + base * (C + base * (B + base * A)) = (D + base * C) + base * base * (B + base * A) := by ring
    _ = x := by rw [hlow, hhigh, show base * base = 2 ^ 64 from rfl, Nat.mod_add_div]

theorem toBigUint_len_le_iff {x w : Nat} (hx : x < 2 ^ 128) (hw : 0 < w) :
    (toBigUint x).len ≤ w ↔ x < base ^ w := by
  have hval := toBigUint_val hx
  unfold toBigUint at hval ⊢
  rw [lstrip_val] at hval
  rw [lstrip_len_le_iff _ hw, hval]

/-- **The limb primitives agree with the values**, leading zeros allowed:
each of `add`, `sub`, `mul`, `div_unit`, `cmp`, `lstrip` and `u128::try_from`
is the arithmetic on the numbers the limbs stand for. -/
theorem limbPrimitives_val (a b : BigUint) (d : UInt32) :
    ((a.add b).val = a.val + b.val ∧ (a.add b).len = max a.len b.len + 1) ∧
    ((∃ w, a.sub b = .ok w ∧ w.val = a.val - b.val) ↔ b.val ≤ a.val) ∧
    (a.val < b.val → ∃ w, a.sub b = .error w ∧ w.val = 2 ^ (32 * max a.len b.len) + a.val - b.val) ∧
    ((a.mul b).val = a.val * b.val ∧ (a.mul b).len = a.len + b.len) ∧
    (a.divUnit d).val = a.val / (max d 1).toNat ∧
    a.cmp b = compare a.val b.val ∧
    (a.lstrip.val = a.val ∧ ∃ h t, a.lstrip.digits = h :: t ∧ (h ≠ 0 ∨ t = [])) ∧
    (∀ x, x < 2 ^ 128 → tryInto 128 "u128" (toBigUint x) = .ok x) ∧
    (tryInto 128 "u128" a = .ok a.val ↔ a.val < 2 ^ 128) := by
  have htry : ∀ y : BigUint, tryInto 128 "u128" y =
      if y.val < 2 ^ 128 then .ok y.val else .error "cannot fit a number into u128" :=
    fun y => tryInto_eq y (w := 4) (by decide) "u128"
  have hsub : (∃ w, a.sub b = .ok w ∧ w.val = a.val - b.val) ↔ b.val ≤ a.val := by
    constructor
    · rintro ⟨w, hw, -⟩
      exact (sub_isOk_iff a b).mp ⟨w, hw⟩
    · intro hle
      obtain ⟨w, hw⟩ := (sub_isOk_iff a b).mpr hle
      have hval := (sub_ok hw).1
      exact ⟨w, hw, by omega⟩
  have hborrow : a.val < b.val → ∃ w, a.sub b = .error w ∧
      w.val = 2 ^ (32 * max a.len b.len) + a.val - b.val := by
    intro hlt
    cases hs : a.sub b with
    | ok w =>
      have hval := (sub_ok hs).1
      omega
    | error w =>
      have hval := (sub_error hs).1
      rw [show base ^ max a.len b.len = 2 ^ (32 * max a.len b.len) by rw [pow_mul]; rfl] at hval
      exact ⟨w, rfl, by omega⟩
  have hmul := mul_val a b
  refine ⟨⟨add_val a b, add_len a b⟩, hsub, hborrow, ⟨hmul.1, by rw [hmul.2, Nat.add_comm]⟩,
    (divUnit_val a d).1, cmp_eq_compare a b, ⟨lstrip_val a, lstrip_shape a⟩, ?_, ?_⟩
  · intro x hx
    rw [htry, toBigUint_val hx, if_pos hx]
  · rw [htry]
    split_ifs with hfit
    · exact iff_of_true rfl hfit
    · exact iff_of_false (by simp) hfit

theorem toBigUint_len_eq_one_iff {x : Nat} (hx : x < 2 ^ 128) : (toBigUint x).len = 1 ↔ x < base := by
  have hpos := (toBigUint x).len_pos
  have hle := toBigUint_len_le_iff hx one_pos
  rw [pow_one] at hle
  omega

variable {a b c a' : Nat}

/-- The big-number branch computes `a * b / c`, plus one when `c` has more than
one limb and the remainder is above half of `c`. -/
theorem bigQuotient_spec (ha : a < 2 ^ 128) (hb : b < 2 ^ 128) (hc : c < 2 ^ 128)
    (hc1 : 0 < c) (hab : 2 ^ 128 ≤ a * b) :
    ∃ q, bigQuotient a b c = some q ∧
      q.val = a * b / c + if base ≤ c ∧ c / 2 < a * b % c then 1 else 0 := by
  have habv : ((toBigUint a).mul (toBigUint b)).lstrip.val = a * b := by
    rw [lstrip_val, (mul_val _ _).1, toBigUint_val ha, toBigUint_val hb]
  unfold bigQuotient
  dsimp only
  by_cases hc32 : c < base
  · -- `c` is one limb: `div_unit` by it
    have hmax : (max (UInt32.ofNat c) 1).toNat = c := by
      rw [UInt32.toNat_max, toNat_ofNat_of_lt hc32]
      exact max_eq_left hc1
    rw [if_pos ((toBigUint_len_eq_one_iff hc).mpr hc32)]
    refine ⟨_, rfl, ?_⟩
    rw [(divUnit_val _ _).1, hmax, habv, if_neg (by omega), Nat.add_zero]
  · -- `c` is two to four limbs and `a * b` at least five: `div`, then the rounding
    set ab := ((toBigUint a).mul (toBigUint b)).lstrip with hab_def
    have hclen : 2 ≤ (toBigUint c).len := by
      by_contra h
      exact hc32 (by simpa using (toBigUint_len_le_iff hc one_pos).mp (by omega))
    have hclen4 : (toBigUint c).len ≤ 4 := (toBigUint_len_le_iff hc (by decide)).mpr hc
    have hablen : 4 < ab.len := by
      by_contra h
      have := (lstrip_len_le_iff _ (by decide)).mp (Nat.le_of_not_lt h)
      rw [← lstrip_val, ← hab_def, habv] at this
      exact absurd hab (Nat.not_le.mpr this)
    have hcmsb : (toBigUint c).msb ≠ 0 := by
      unfold toBigUint at hclen ⊢
      exact lstrip_msb_ne_zero _ hclen
    have habmsb : ab.msb ≠ 0 := lstrip_msb_ne_zero _ (by rw [← hab_def]; omega)
    obtain ⟨q, r, hdiv, hq, hr⟩ := div_spec hclen hcmsb habmsb (by omega)
    rw [if_neg (by omega), hdiv, Option.getD_some]
    have hrv : r.val = a * b % c := by rw [hr, habv, toBigUint_val hc]
    have hrfit : r.val < 2 ^ (32 * 4) := by
      rw [hrv]
      exact lt_trans (Nat.mod_lt _ hc1) hc
    rw [show tryInto 128 "u128" r = tryInto (32 * 4) "u128" r from rfl, tryInto_eq r (by decide), if_pos hrfit]
    refine ⟨_, rfl, ?_⟩
    simp only [hrv, gt_iff_lt]
    by_cases hround : c / 2 < a * b % c
    · rw [if_pos hround, if_pos ⟨by omega, hround⟩, add_val, hq, habv, toBigUint_val hc, toBigUint_val (by decide)]
    · rw [if_neg hround, if_neg (fun h => hround h.2), hq, habv, toBigUint_val hc, Nat.add_zero]

theorem prepare_cases (a b c : Nat) :
    ((max c 1 ∣ a ∨ max c 1 ∣ b) ∧ (prepare a b c).2.2 = 1 ∧
        (prepare a b c).1 * (prepare a b c).2.1 = a * b / max c 1) ∨
      (¬ max c 1 ∣ a ∧ ¬ max c 1 ∣ b ∧ (prepare a b c).2.2 = max c 1 ∧
        (prepare a b c).1 * (prepare a b c).2.1 = a * b) := by
  unfold prepare
  simp only [Nat.dvd_iff_mod_eq_zero]
  set c' := max c 1
  by_cases hba : b > a
  · simp only [if_pos hba]
    split_ifs with hb hab
    · exact .inl ⟨.inr hb, rfl, by rw [Nat.div_mul_right_comm (Nat.dvd_of_mod_eq_zero hb), Nat.mul_comm]⟩
    · exact .inl ⟨.inl hab, rfl, by rw [← Nat.mul_div_assoc _ (Nat.dvd_of_mod_eq_zero hab), Nat.mul_comm]⟩
    · exact .inr ⟨hab, hb, rfl, Nat.mul_comm b a⟩
  · simp only [if_neg hba]
    split_ifs with ha hb
    · exact .inl ⟨.inl ha, rfl, Nat.div_mul_right_comm (Nat.dvd_of_mod_eq_zero ha) b⟩
    · exact .inl ⟨.inr hb, rfl, (Nat.mul_div_assoc _ (Nat.dvd_of_mod_eq_zero hb)).symm⟩
    · exact .inr ⟨ha, hb, rfl, rfl⟩

theorem prepare_lt (ha : a < 2 ^ 128) (hb : b < 2 ^ 128) (hc : c < 2 ^ 128) :
    (prepare a b c).1 < 2 ^ 128 ∧ (prepare a b c).2.1 < 2 ^ 128 ∧
      0 < (prepare a b c).2.2 ∧ (prepare a b c).2.2 < 2 ^ 128 := by
  have hc' : max c 1 < 2 ^ 128 := max_lt hc (by decide)
  have hdiv : ∀ x, x < 2 ^ 128 → x / max c 1 < 2 ^ 128 := fun x hx => lt_of_le_of_lt (Nat.div_le_self _ _) hx
  unfold prepare
  dsimp only
  split_ifs <;> simp only [hdiv, ha, hb, hc', true_and, and_true] <;> omega

theorem prepare_quot (a b c : Nat) :
    (prepare a b c).1 * (prepare a b c).2.1 / (prepare a b c).2.2 = a * b / max c 1 := by
  rcases prepare_cases a b c with ⟨-, h1, h2⟩ | ⟨-, -, h1, h2⟩
  · rw [h1, h2, Nat.div_one]
  · rw [h1, h2]

/-- The path that rounds: nothing was divided first, the product overflows
`u128` and `c` takes more than one limb. -/
def RoundsHalfUp (a b c : Nat) : Prop :=
  ¬ max c 1 ∣ a ∧ ¬ max c 1 ∣ b ∧ 2 ^ 128 ≤ a * b ∧ 2 ^ 32 ≤ max c 1

instance (a b c : Nat) : Decidable (RoundsHalfUp a b c) :=
  inferInstanceAs (Decidable (¬ max c 1 ∣ a ∧ ¬ max c 1 ∣ b ∧ 2 ^ 128 ≤ a * b ∧ 2 ^ 32 ≤ max c 1))

theorem not_roundsHalfUp_of_fit
    (hfit : (prepare a b c).1 * (prepare a b c).2.1 < 2 ^ 128) : ¬ RoundsHalfUp a b c := by
  rintro ⟨hna, hnb, hbig, -⟩
  rcases prepare_cases a b c with ⟨hd | hd, -⟩ | ⟨-, -, -, h2⟩
  · exact hna hd
  · exact hnb hd
  · omega

theorem bigQuotient_round_iff
    (hbig : 2 ^ 128 ≤ (prepare a b c).1 * (prepare a b c).2.1) :
    (base ≤ (prepare a b c).2.2 ∧
        (prepare a b c).2.2 / 2 < (prepare a b c).1 * (prepare a b c).2.1 % (prepare a b c).2.2) ↔
      (RoundsHalfUp a b c ∧ max c 1 / 2 < a * b % max c 1) := by
  rcases prepare_cases a b c with ⟨hd, h1, -⟩ | ⟨hna, hnb, h1, h2⟩
  · rw [h1]
    constructor
    · rintro ⟨h, -⟩
      exact absurd h (by decide)
    · rintro ⟨⟨hna, hnb, -⟩, -⟩
      rcases hd with hd | hd
      · exact absurd hd hna
      · exact absurd hd hnb
  · rw [h1, h2]
    rw [h2] at hbig
    constructor
    · rintro ⟨hb32, hr⟩
      exact ⟨⟨hna, hnb, hbig, hb32⟩, hr⟩
    · rintro ⟨⟨-, -, -, hb32⟩, hr⟩
      exact ⟨hb32, hr⟩

theorem multiplyByRational_of_zero {a b : Nat} (c : Nat) (h0 : a = 0 ∨ b = 0) :
    multiplyByRational a b c = some (.ok 0) := by
  rw [multiplyByRational, if_pos h0]

theorem multiplyByRational_of_ne_zero (ha : a < 2 ^ 128) (hb : b < 2 ^ 128)
    (hc : c < 2 ^ 128) (h0 : ¬(a = 0 ∨ b = 0)) :
    multiplyByRational a b c =
      let v := a * b / max c 1 + if RoundsHalfUp a b c ∧ max c 1 / 2 < a * b % max c 1 then 1 else 0
      some (if v < 2 ^ 128 then .ok v else .error "result cannot fit in u128") := by
  rw [multiplyByRational, if_neg h0]
  dsimp only
  obtain ⟨hpa, hpb, hpc0, hpc⟩ := prepare_lt ha hb hc
  have hquot := prepare_quot a b c
  unfold checkedMul
  by_cases hfit : (prepare a b c).1 * (prepare a b c).2.1 < 2 ^ 128
  · -- the product fits in `u128`, and so does the quotient
    have hnr : ¬(RoundsHalfUp a b c ∧ max c 1 / 2 < a * b % max c 1) :=
      fun h => not_roundsHalfUp_of_fit hfit h.1
    have hqfit : a * b / max c 1 < 2 ^ 128 := by
      rw [← hquot]
      exact lt_of_le_of_lt (Nat.div_le_self _ _) hfit
    rw [if_pos hfit, if_neg hnr, Nat.add_zero]
    dsimp only
    rw [hquot, if_pos hqfit]
  · -- the big-number branch
    have hbig := Nat.le_of_not_lt hfit
    obtain ⟨q, hq, hqv⟩ := bigQuotient_spec hpa hpb hpc hpc0 hbig
    have hval : q.lstrip.val = a * b / max c 1 +
        if RoundsHalfUp a b c ∧ max c 1 / 2 < a * b % max c 1 then 1 else 0 := by
      rw [lstrip_val, hqv, hquot]
      by_cases hr : base ≤ (prepare a b c).2.2 ∧
          (prepare a b c).2.2 / 2 < (prepare a b c).1 * (prepare a b c).2.1 % (prepare a b c).2.2
      · rw [if_pos hr, if_pos ((bigQuotient_round_iff hbig).mp hr)]
      · rw [if_neg hr, if_neg (fun h => hr ((bigQuotient_round_iff hbig).mpr h))]
    rw [if_neg hfit]
    dsimp only
    rw [hq, Option.map_some, show tryInto 128 "u128" q.lstrip = tryInto (32 * 4) "u128" q.lstrip from rfl,
      tryInto_eq _ (by decide), hval]
    split_ifs <;> rfl

theorem multiplyByRational_isSome (ha : a < 2 ^ 128) (hb : b < 2 ^ 128) (hc : c < 2 ^ 128) :
    ∃ r, multiplyByRational a b c = some r ∧ ∀ v, r = .ok v → v < 2 ^ 128 := by
  by_cases h0 : a = 0 ∨ b = 0
  · refine ⟨_, multiplyByRational_of_zero c h0, fun v hv => ?_⟩
    cases hv
    decide
  · refine ⟨_, multiplyByRational_of_ne_zero ha hb hc h0, fun v hv => ?_⟩
    set w := a * b / max c 1 + if RoundsHalfUp a b c ∧ max c 1 / 2 < a * b % max c 1 then 1 else 0
    by_cases hfit : w < 2 ^ 128
    · rw [if_pos hfit, Except.ok.injEq] at hv
      rw [← hv]
      exact hfit
    · rw [if_neg hfit] at hv
      cases hv

theorem multiplyByRational_of_dvd (ha : a < 2 ^ 128) (hb : b < 2 ^ 128) (hc : c < 2 ^ 128)
    (hd : max c 1 ∣ a ∨ max c 1 ∣ b) :
    multiplyByRational a b c =
      some (if a * b / max c 1 < 2 ^ 128 then .ok (a * b / max c 1) else .error "result cannot fit in u128") := by
  by_cases h0 : a = 0 ∨ b = 0
  · have hab : a * b = 0 := by rcases h0 with h0 | h0 <;> simp [h0]
    rw [multiplyByRational_of_zero c h0, hab, Nat.zero_div, if_pos (by decide)]
  · have hnr : ¬(RoundsHalfUp a b c ∧ max c 1 / 2 < a * b % max c 1) := by
      rintro ⟨⟨hna, hnb, -⟩, -⟩
      rcases hd with hd | hd
      · exact hna hd
      · exact hnb hd
    rw [multiplyByRational_of_ne_zero ha hb hc h0, if_neg hnr, Nat.add_zero]

theorem multiplyByRational_eq (a b c : Nat) (ha : a < 2 ^ 128) (hb : b < 2 ^ 128) (hc : c < 2 ^ 128) :
    multiplyByRational a b c =
      if a = 0 ∨ b = 0 then some (.ok 0)
      else
        let c' := max c 1
        let v := a * b / c' +
          if ¬ c' ∣ a ∧ ¬ c' ∣ b ∧ 2 ^ 128 ≤ a * b ∧ 2 ^ 32 ≤ c' ∧ c' / 2 < a * b % c' then 1 else 0
        some (if v < 2 ^ 128 then .ok v else .error "result cannot fit in u128") := by
  by_cases h0 : a = 0 ∨ b = 0
  · rw [if_pos h0, multiplyByRational_of_zero c h0]
  · rw [if_neg h0, multiplyByRational_of_ne_zero ha hb hc h0]
    simp only [RoundsHalfUp, and_assoc]

theorem multiplyByRational_eq_rounded :
    multiplyByRational (2 ^ 100 + 1) (2 ^ 40 + 5) (3 * 2 ^ 32 + 1) =
      some (.ok 108172851211572170578529388369882) := by
  rw [multiplyByRational_eq _ _ _ (by decide) (by decide) (by decide)]
  norm_num

theorem roundedQuotient_mono (haa : a ≤ a') :
    a * b / c + (if ¬ c ∣ a ∧ ¬ c ∣ b ∧ 2 ^ 128 ≤ a * b ∧ 2 ^ 32 ≤ c ∧ c / 2 < a * b % c then 1 else 0) ≤
      a' * b / c +
        (if ¬ c ∣ a' ∧ ¬ c ∣ b ∧ 2 ^ 128 ≤ a' * b ∧ 2 ^ 32 ≤ c ∧ c / 2 < a' * b % c then 1 else 0) := by
  have hprod : a * b ≤ a' * b := Nat.mul_le_mul_right b haa
  have hq : a * b / c ≤ a' * b / c := Nat.div_le_div_right hprod
  rcases Nat.lt_or_eq_of_le hq with hlt | heq
  · -- a larger quotient covers the rounding
    split_ifs <;> omega
  · by_cases hr : ¬ c ∣ a ∧ ¬ c ∣ b ∧ 2 ^ 128 ≤ a * b ∧ 2 ^ 32 ≤ c ∧ c / 2 < a * b % c
    · obtain ⟨-, hb, hbig, hc32, hhalf⟩ := hr
      -- one quotient for both: the remainder grows with the product
      have hmod : a * b % c ≤ a' * b % c := by
        have h1 := Nat.div_add_mod (a * b) c
        have h2 := Nat.div_add_mod (a' * b) c
        rw [heq] at h1
        omega
      have ha' : ¬ c ∣ a' := fun hdvd => by
        have := Nat.mod_eq_zero_of_dvd (Dvd.dvd.mul_right hdvd b)
        omega
      have hr' : ¬ c ∣ a' ∧ ¬ c ∣ b ∧ 2 ^ 128 ≤ a' * b ∧ 2 ^ 32 ≤ c ∧ c / 2 < a' * b % c :=
        ⟨ha', hb, by omega, hc32, by omega⟩
      rw [if_pos hr']
      split_ifs <;> omega
    · rw [if_neg hr]
      omega

theorem multiplyByRational_le_left (ha : a < 2 ^ 128) (hb : b < 2 ^ 128) (hc : c < 2 ^ 128)
    (hbc : b ≤ c) (hc0 : 0 < c) : ∃ v, multiplyByRational a b c = some (.ok v) ∧ v ≤ a := by
  rw [multiplyByRational_eq a b c ha hb hc]
  by_cases h0 : a = 0 ∨ b = 0
  · exact ⟨0, by rw [if_pos h0], Nat.zero_le a⟩
  · rw [if_neg h0, max_eq_left hc0]
    have hapos : 0 < a := by omega
    -- the quotient is `a` when `b = c`, and below `a` otherwise
    have hv : a * b / c +
        (if ¬ c ∣ a ∧ ¬ c ∣ b ∧ 2 ^ 128 ≤ a * b ∧ 2 ^ 32 ≤ c ∧ c / 2 < a * b % c then 1 else 0) ≤ a := by
      rcases Nat.lt_or_eq_of_le hbc with hlt | heq
      · have hdiv : a * b / c < a := (Nat.div_lt_iff_lt_mul hc0).mpr (Nat.mul_lt_mul_of_pos_left hlt hapos)
        split_ifs <;> omega
      · subst heq
        rw [if_neg (fun h => h.2.1 (dvd_refl b)), Nat.mul_div_cancel a hc0, Nat.add_zero]
    refine ⟨_, ?_, hv⟩
    simp only [if_pos (lt_of_le_of_lt hv ha)]

theorem multiplyByRational_unwrapOr_mono (ha' : a' < 2 ^ 128) (hb : b < 2 ^ 128)
    (hc : c < 2 ^ 128) (haa : a ≤ a') :
    ∃ r r', multiplyByRational a b c = some r ∧ multiplyByRational a' b c = some r' ∧
      r.toOption.getD (2 ^ 128 - 1) ≤ r'.toOption.getD (2 ^ 128 - 1) := by
  have ha : a < 2 ^ 128 := lt_of_le_of_lt haa ha'
  by_cases h0 : a = 0 ∨ b = 0
  · obtain ⟨r', hr', -⟩ := multiplyByRational_isSome ha' hb hc
    refine ⟨_, r', multiplyByRational_of_zero c h0, hr', ?_⟩
    simp only [Except.toOption, Option.getD_some, Nat.zero_le]
  · have h0' : ¬(a' = 0 ∨ b = 0) := by omega
    set v := a * b / max c 1 + if ¬ max c 1 ∣ a ∧ ¬ max c 1 ∣ b ∧ 2 ^ 128 ≤ a * b ∧ 2 ^ 32 ≤ max c 1 ∧
      max c 1 / 2 < a * b % max c 1 then 1 else 0 with hv
    set v' := a' * b / max c 1 + if ¬ max c 1 ∣ a' ∧ ¬ max c 1 ∣ b ∧ 2 ^ 128 ≤ a' * b ∧ 2 ^ 32 ≤ max c 1 ∧
      max c 1 / 2 < a' * b % max c 1 then 1 else 0 with hv'
    have e : multiplyByRational a b c =
        some (if v < 2 ^ 128 then .ok v else .error "result cannot fit in u128") := by
      rw [multiplyByRational_eq a b c ha hb hc, if_neg h0]
    have e' : multiplyByRational a' b c =
        some (if v' < 2 ^ 128 then .ok v' else .error "result cannot fit in u128") := by
      rw [multiplyByRational_eq a' b c ha' hb hc, if_neg h0']
    refine ⟨_, _, e, e', ?_⟩
    have hvv : v ≤ v' := roundedQuotient_mono haa
    -- an `Err` is read as the maximum, which every `Ok` value is below
    by_cases hfit' : v' < 2 ^ 128
    · rw [if_pos (lt_of_le_of_lt hvv hfit'), if_pos hfit']
      exact hvv
    · rw [if_neg hfit']
      split_ifs
      · simp only [Except.toOption, Option.getD_some, Option.getD_none]
        omega
      · exact Nat.le_refl _

theorem gcd_half_of_odd {m n : Nat} (hm : m % 2 = 0) (hn : n % 2 = 1) : Nat.gcd (m / 2) n = Nat.gcd m n := by
  have hco : Nat.Coprime 2 n := by
    rw [Nat.Coprime, Nat.gcd_rec, hn]
    rfl
  conv_rhs => rw [← Nat.mul_div_cancel' (Nat.dvd_of_mod_eq_zero hm)]
  exact (hco.gcd_mul_left_cancel _).symm

theorem gcd_max_min (a b : Nat) : Nat.gcd (max a b) (min a b) = Nat.gcd a b := by
  rcases le_total a b with h | h
  · rw [max_eq_right h, min_eq_left h, Nat.gcd_comm]
  · rw [max_eq_left h, min_eq_right h]

/-- `gcd` is the greatest common divisor. -/
theorem gcd_eq (a b : Nat) : gcd a b = Nat.gcd a b := by
  fun_induction gcd a b with
  | case1 b => exact (Nat.gcd_self b).symm
  | case2 b => exact (Nat.gcd_zero_left b).symm
  | case3 a => exact (Nat.gcd_zero_right a).symm
  | case4 a b _ _ _ hpar ih =>
    simp only [Nat.and_one_is_mod] at hpar
    rw [ih, Nat.shiftRight_eq_div_pow, pow_one, gcd_half_of_odd hpar.1 hpar.2]
  | case5 a b _ _ _ _ hpar ih =>
    simp only [Nat.and_one_is_mod] at hpar
    rw [ih, Nat.shiftRight_eq_div_pow, pow_one, gcd_half_of_odd hpar.2 hpar.1, Nat.gcd_comm]
  | case6 a b _ _ _ _ _ hpar ih =>
    simp only [Nat.and_one_is_mod] at hpar
    rw [ih, Nat.shiftLeft_eq, Nat.shiftRight_eq_div_pow, Nat.shiftRight_eq_div_pow, pow_one,
      ← Nat.gcd_mul_right, Nat.div_mul_cancel (Nat.dvd_of_mod_eq_zero hpar.1),
      Nat.div_mul_cancel (Nat.dvd_of_mod_eq_zero hpar.2)]
  | case7 a b _ _ _ h01 h10 h00 ih =>
    -- both odd: the difference is even
    simp only [Nat.and_one_is_mod] at h01 h10 h00
    have hmin : min a b % 2 = 1 := by omega
    have hdiff : (max a b - min a b) % 2 = 0 := by omega
    rw [ih, Nat.shiftRight_eq_div_pow, pow_one, gcd_half_of_odd hdiff hmin,
      Nat.gcd_sub_self_left (min_le_max), gcd_max_min]

/-- **`gcd` returns the greatest common divisor**, never above the larger
operand, so the `<< 1` of the even-even arm never overflows a `u128`. -/
theorem gcd_terminates_eq (a b : Nat) :
    gcd a b = Nat.gcd a b ∧ gcd a b ≤ max a b ∧ gcd 0 a = a ∧ gcd a 0 = a := by
  have h := gcd_eq a b
  refine ⟨h, ?_, by rw [gcd_eq, Nat.gcd_zero_left], by rw [gcd_eq, Nat.gcd_zero_right]⟩
  rw [h]
  rcases Nat.eq_zero_or_pos a with rfl | ha
  · simp
  · exact le_trans (Nat.gcd_le_left b ha) (le_max_left a b)

end Helpers128bit

end SpArithmetic
