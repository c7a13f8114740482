import CherryNode.Arithmetic.BigUint
import CherryNode.Lib.QuotientDigit

/-!
# sp-arithmetic: `BigUint::div`, Knuth's algorithm D

`div` divides an `n + m` limb number by an `n` limb one.  D1 multiplies both
by `2 ^ s`, `s` the leading zero bits of the divisor's top limb; D2 runs over
the quotient limbs from the top, and for each limb `j` estimates it from the
window `j ..= j + n` (D3, with `test()`), subtracts the estimate times the
divisor (D4), writes it (D5), and on a borrow adds the divisor back once and
lowers it (D6).  The remainder is shifted back by `s` bits.

The loop keeps `q * V + self_norm = U` and `self_norm < V * B ^ j` (`DivInv`);
a round computes the true limb and the window's remainder (`divRound_spec`).
`Lib.QuotientDigit` shows the estimate is the limb or one above it.
-/

namespace SpArithmetic

namespace BigUint

/-- `leading_zeros()` of a `u32`. -/
def leadingZeros (x : UInt32) : Nat := 32 - Nat.size x.toNat

/-- `Self { digits: (j..=j + n).rev().map(|d| x.get(d)).collect() }`: the limbs
`j` to `j + n` as a number of their own. -/
def window (x : BigUint) (j n : Nat) : BigUint :=
  ⟨(List.range' j (n + 1)).reverse.map x.get, by simp⟩

/-- `ds.for_each(|d| x.set(d, t.get(d - j)))`: the limbs of `t` written back
from position `j`, in the order of `ds`. -/
def setWindow (x : BigUint) (j : Nat) (t : BigUint) (ds : List Nat) : BigUint :=
  ds.foldl (fun x d => x.set d (t.get (d - j))) x

/-- `predicate_1 || predicate_2` of `test()`. -/
def qhatTooLarge (v2 u2 qhat rhat : Nat) : Bool :=
  qhat ≥ base || qhat * v2 > base * rhat + u2

theorem pos_of_qhatTooLarge {v2 u2 qhat rhat : Nat} (h : qhatTooLarge v2 u2 qhat rhat = true) :
    0 < qhat := by
  unfold qhatTooLarge at h
  rcases Nat.eq_zero_or_pos qhat with rfl | hpos
  · simp [base] at h
  · exact hpos

/-- One call of `test()`: lowers `qhat` and raises `rhat` by `v1` when the test fires. -/
def test (v1 v2 u2 qhat rhat : Nat) : Nat × Nat :=
  if qhatTooLarge v2 u2 qhat rhat then (qhat - 1, rhat + v1) else (qhat, rhat)

/-- `while rhat < B { if !test() { break } }`, by recursion on `qhat`: the
test never fires at `qhat = 0`, where the loop stops (`testLoop_eq`). -/
def testLoop (v1 v2 u2 : Nat) : Nat → Nat → Nat × Nat
  | 0, rhat => (0, rhat)
  | qhat + 1, rhat =>
    if rhat < base then
      if qhatTooLarge v2 u2 (qhat + 1) rhat then testLoop v1 v2 u2 qhat (rhat + v1)
      else (qhat + 1, rhat)
    else (qhat + 1, rhat)

theorem testLoop_eq (v1 v2 u2 qhat rhat : Nat) :
    testLoop v1 v2 u2 qhat rhat =
      if rhat < base then
        if qhatTooLarge v2 u2 qhat rhat then testLoop v1 v2 u2 (qhat - 1) (rhat + v1) else (qhat, rhat)
      else (qhat, rhat) := by
  cases qhat with
  | zero =>
    have : qhatTooLarge v2 u2 0 rhat = false := by
      cases h : qhatTooLarge v2 u2 0 rhat
      · rfl
      · exact absurd (pos_of_qhatTooLarge h) (Nat.lt_irrefl 0)
    simp [testLoop, this]
  | succ qhat => rfl

/-- Step D3 from the two-limb `dividend`, the divisor's top limb, and the
limbs `v2` and `u2` the test reads: `div_single`, then `test()` and its loop. -/
def qhatEstimate (dividend : Nat) (divisor : UInt32) (v2 u2 : Nat) : Nat :=
  let v1 := divisor.toNat
  let first := test v1 v2 u2 (divSingle dividend divisor).1 (divSingle dividend divisor).2.toNat
  (testLoop v1 v2 u2 first.1 first.2).1

/-- Step D3: the estimate `qhat` of quotient limb `j` from the top limbs of the
window and of the divisor. -/
def estimate (selfNorm otherNorm : BigUint) (n j : Nat) : Nat :=
  qhatEstimate ((selfNorm.get (j + n)).toNat * base + (selfNorm.get (j + n - 1)).toNat) (otherNorm.get (n - 1))
    (otherNorm.get (n - 2)).toNat (selfNorm.get (j + n - 2)).toNat

/-- Steps D3 to D6 for quotient limb `j`. -/
def divRound (otherNorm : BigUint) (n : Nat) (acc : BigUint × BigUint) (j : Nat) : BigUint × BigUint :=
  let q := acc.1
  let selfNorm := acc.2
  let qhat := estimate selfNorm otherNorm n j
  -- step D4
  let lhs := selfNorm.window j n
  let rhs := otherNorm.mul (ofDouble qhat)
  let (sub, negative) := match lhs.sub rhs with
    | .ok t => (t, false)
    | .error t => (t, true)
  let selfNorm := selfNorm.setWindow j sub (List.range' j (n + 1))
  -- step D5
  let q := q.set j (UInt32.ofNat qhat)
  -- step D6
  if negative then
    let q := q.set j (q.get j - 1)
    let u := selfNorm.window j n
    let r := otherNorm.add u
    (q, selfNorm.setWindow j r (List.range' j (n + 1)).reverse)
  else (q, selfNorm)

/-- Round `d` of undoing the normalisation: limb `d` of the remainder, from
limbs `d` and `d + 1` of `self_norm`. -/
def unnormalizeRound (selfNorm : BigUint) (nb : UInt32) (r : BigUint) (d : Nat) : BigUint :=
  r.set d ((selfNorm.get d >>> nb) ||| (selfNorm.get (d + 1) <<< (32 - nb)))

/-- `div(other, rem)`: `None` unless `other` has two limbs or more, both have a
non-zero leading limb, and `self` has more limbs than `other`; else the
quotient, and the remainder when `rem` asks for it. -/
def div (self other : BigUint) (rem : Bool) : Option (BigUint × BigUint) :=
  if other.len ≤ 1 ∨ other.msb = 0 ∨ self.msb = 0 ∨ self.len ≤ other.len then none
  else
    let n := other.len
    let m := self.len - n
    let q := withCapacity (m + 1)
    let r := withCapacity n
    -- step D1
    let normalizerBits : UInt32 := UInt32.ofNat (leadingZeros other.msb)
    let normalizer : UInt32 := UInt32.ofNat (2 ^ normalizerBits.toNat)
    let selfNorm := (self.mul (ofSingle normalizer)).lpad (n + m + 1)
    let otherNorm := (other.mul (ofSingle normalizer)).lstrip
    -- step D2
    let result := (List.range (m + 1)).reverse.foldl (divRound otherNorm n) (q, selfNorm)
    let r :=
      if rem then
        if normalizerBits > 0 then
          let r := (List.range (n - 1)).foldl (unnormalizeRound result.2 normalizerBits) r
          r.set (n - 1) (result.2.get (n - 1) >>> normalizerBits)
        else result.2
      else r
    some (result.1, r)

/-! ## Limbs and windows -/

theorem get_set (x : BigUint) {i : Nat} (hi : i < x.len) (v : UInt32) (k : Nat) :
    (x.set i v).get k = if k = i then v else x.get k := by
  apply UInt32.toNat_inj.mp
  rw [get_toNat, getD_limbs_set _ hi]
  split_ifs
  · rfl
  · exact (get_toNat x k).symm

theorem ext_get {x y : BigUint} (hlen : x.len = y.len) (h : ∀ k, k < x.len → x.get k = y.get k) : x = y := by
  obtain ⟨dx, hx⟩ := x
  obtain ⟨dy, hy⟩ := y
  have hrev : dx.reverse = dy.reverse := by
    apply List.ext_getElem (by simpa [len] using hlen)
    intro k h1 h2
    have hk := h k (by simpa [len] using h1)
    simp only [get, List.getD_eq_getElem?_getD, List.getElem?_eq_getElem h1, List.getElem?_eq_getElem h2,
      Option.getD_some] at hk
    exact hk
  simp only [mk.injEq]
  exact List.reverse_injective hrev

theorem getD_limbs_eq (x : BigUint) (i : Nat) : x.limbs.getD i 0 = x.val / base ^ i % base := by
  rw [val_div_pow, Nat.add_mul_mod_self_left, Nat.mod_eq_of_lt (x.getD_limbs_lt i)]

@[simp] theorem len_window (x : BigUint) (j n : Nat) : (x.window j n).len = n + 1 := by
  simp [window, len]

theorem val_window (x : BigUint) (j n : Nat) : (x.window j n).val = x.val / base ^ j % base ^ (n + 1) := by
  have hlimbs : (x.window j n).limbs = (List.range' j (n + 1)).map fun d => x.val / base ^ d % base := by
    simp only [window, limbs, List.map_reverse, List.reverse_reverse, List.map_map]
    apply List.map_congr_left
    intro d _
    simp only [Function.comp_apply, get_toNat, getD_limbs_eq]
  rw [val, hlimbs, Digits.ofDigits_map_range']

@[simp] theorem len_setWindow (x : BigUint) (j : Nat) (t : BigUint) (ds : List Nat) :
    (x.setWindow j t ds).len = x.len := by
  unfold setWindow
  induction ds generalizing x with
  | nil => rfl
  | cons d ds ih => rw [List.foldl_cons, ih, len_set]

theorem get_setWindow (x : BigUint) (j : Nat) (t : BigUint) (ds : List Nat) (hds : ∀ d ∈ ds, d < x.len)
    (k : Nat) : (x.setWindow j t ds).get k = if k ∈ ds then t.get (k - j) else x.get k := by
  unfold setWindow
  induction ds generalizing x with
  | nil => simp
  | cons d ds ih =>
    have hd : d < x.len := hds d List.mem_cons_self
    rw [List.foldl_cons, ih _ (fun e he => by rw [len_set]; exact hds e (List.mem_cons_of_mem _ he)),
      get_set _ hd]
    by_cases hk : k ∈ ds
    · simp [hk]
    · by_cases hkd : k = d
      · subst hkd
        simp
      · simp [hk, hkd]

theorem setWindow_reverse (x : BigUint) (j : Nat) (t : BigUint) (ds : List Nat) (hds : ∀ d ∈ ds, d < x.len) :
    x.setWindow j t ds.reverse = x.setWindow j t ds := by
  apply ext_get (by simp)
  intro k _
  rw [get_setWindow _ _ _ _ (fun d hd => hds d (List.mem_reverse.mp hd)), get_setWindow _ _ _ _ hds]
  simp only [List.mem_reverse]

/-- The invariant of the write-back after `i` limbs: the limbs from `j + i` on
are those of `x`, and the value traded `x`'s first `i` window limbs for `t`'s. -/
structure SetWindowInv (x t : BigUint) (j i : Nat) (acc : BigUint) : Prop where
  len_eq : acc.len = x.len
  above : ∀ k, j + i ≤ k → acc.limbs.getD k 0 = x.limbs.getD k 0
  val_eq : acc.val + x.val / base ^ j % base ^ i * base ^ j = x.val + t.val % base ^ i * base ^ j

theorem setWindowRound_inv {x t acc : BigUint} {j i n : Nat} (hx : j + n < x.len) (hi : i < n + 1)
    (h : SetWindowInv x t j i acc) : SetWindowInv x t j (i + 1) (acc.set (j + i) (t.get i)) := by
  have hji : j + i < acc.len := by rw [h.len_eq]; omega
  have hset := acc.val_set hji (t.get i)
  rw [h.above _ le_rfl, getD_limbs_eq, get_toNat, getD_limbs_eq] at hset
  refine ⟨by simp [h.len_eq], fun k hk => ?_, ?_⟩
  · rw [getD_limbs_set _ hji, if_neg (by omega)]
    exact h.above k (by omega)
  · -- one more digit of `x` above `B ^ j` traded for one more digit of `t`
    have hx' : x.val / base ^ j % base ^ (i + 1) =
        x.val / base ^ j % base ^ i + base ^ i * (x.val / base ^ (j + i) % base) := by
      rw [Nat.mod_pow_succ, Nat.div_div_eq_div_mul, ← pow_add]
    have ht : t.val % base ^ (i + 1) = t.val % base ^ i + base ^ i * (t.val / base ^ i % base) :=
      Nat.mod_pow_succ
    rw [hx', ht, pow_add] at *
    have hval := h.val_eq
    linear_combination hset + hval

theorem val_setWindow (x t : BigUint) {j n : Nat} (hx : j + n < x.len) :
    (x.setWindow j t (List.range' j (n + 1))).val + x.val / base ^ j % base ^ (n + 1) * base ^ j =
      x.val + t.val % base ^ (n + 1) * base ^ j := by
  have hfold : x.setWindow j t (List.range' j (n + 1)) =
      (List.range (n + 1)).foldl (fun acc i => acc.set (j + i) (t.get i)) x := by
    rw [setWindow, List.range'_eq_map_range, List.foldl_map]
    simp only [Nat.add_sub_cancel_left]
  have hinv : SetWindowInv x t j (n + 1) ((List.range (n + 1)).foldl (fun acc i => acc.set (j + i) (t.get i)) x) :=
    ForLoop.range_invariant _ (SetWindowInv x t j) ⟨rfl, fun _ _ => rfl, by simp [Nat.mod_one]⟩
      fun i acc hi h => setWindowRound_inv hx hi h
  rw [hfold]
  exact hinv.val_eq

/-! ## Step D3: the estimate -/

/-- What step D3 reads of the window `W` and the divisor `V` above
`D = B ^ (n - 2)`: the divisor's top limbs `v1 ≠ 0` and `v2`, and the window's
top two limbs as `t2` and the next one, `u2`. -/
structure LeadingLimbs (W V D t2 u2 v1 v2 : Nat) : Prop where
  D_pos : 0 < D
  v1_pos : 0 < v1
  v2_lt : v2 < base
  u2_lt : u2 < base
  W_div : W / D = t2 * base + u2
  V_div : V / D = v1 * base + v2
  W_lt : W < V * base

section Estimate

variable {W V D t2 u2 v1 v2 qhat rhat n j : Nat}

theorem LeadingLimbs.div_lt_base (h : LeadingLimbs W V D t2 u2 v1 v2) : W / V < base :=
  Nat.div_lt_of_lt_mul h.W_lt

theorem LeadingLimbs.div_lt_of_qhatTooLarge (h : LeadingLimbs W V D t2 u2 v1 v2)
    (hqr : qhat * v1 + rhat = t2) (ht : qhatTooLarge v2 u2 qhat rhat = true) : W / V < qhat := by
  unfold qhatTooLarge at ht
  rcases Bool.or_eq_true_iff.mp ht with hq | hq
  · exact lt_of_lt_of_le h.div_lt_base (by simpa using hq)
  · -- `qhat * v2 > B * rhat + u2` is the three-limb test `qhat * (v1 * B + v2) > t2 * B + u2`
    have hgt : base * rhat + u2 < qhat * v2 := by simpa using hq
    apply QuotientDigit.div_lt_of_test h.D_pos h.W_div h.V_div
    rw [← hqr]
    linear_combination hgt

theorem LeadingLimbs.le_succ_of_not_qhatTooLarge (h : LeadingLimbs W V D t2 u2 v1 v2)
    (hqr : qhat * v1 + rhat = t2) (ht : qhatTooLarge v2 u2 qhat rhat = false) :
    qhat < base ∧ qhat ≤ W / V + 1 := by
  unfold qhatTooLarge at ht
  simp only [Bool.or_eq_false_iff, decide_eq_false_iff_not, not_le, not_lt] at ht
  refine ⟨ht.1, QuotientDigit.le_div_succ_of_test_pass h.v1_pos h.v2_lt h.D_pos h.W_div h.V_div ht.1 ?_⟩
  rw [← hqr]
  linear_combination ht.2

theorem LeadingLimbs.test_inv (h : LeadingLimbs W V D t2 u2 v1 v2)
    (hqr : qhat * v1 + rhat = t2) (hq : W / V ≤ qhat) :
    (test v1 v2 u2 qhat rhat).1 * v1 + (test v1 v2 u2 qhat rhat).2 = t2 ∧
      W / V ≤ (test v1 v2 u2 qhat rhat).1 := by
  unfold test
  split_ifs with ht
  · have hlt := h.div_lt_of_qhatTooLarge hqr ht
    simp only
    refine ⟨?_, by omega⟩
    rw [← hqr, Nat.sub_mul, Nat.one_mul]
    have : v1 ≤ qhat * v1 := Nat.le_mul_of_pos_left _ (lt_of_le_of_lt (Nat.zero_le _) hlt)
    omega
  · exact ⟨hqr, hq⟩

theorem LeadingLimbs.testLoop_spec (h : LeadingLimbs W V D t2 u2 v1 v2) :
    ∀ qhat rhat, qhat * v1 + rhat = t2 → W / V ≤ qhat →
      W / V ≤ (testLoop v1 v2 u2 qhat rhat).1 ∧ (testLoop v1 v2 u2 qhat rhat).1 ≤ W / V + 1 ∧
        (testLoop v1 v2 u2 qhat rhat).1 < base := by
  intro qhat
  induction qhat with
  | zero =>
    intro rhat _ hq
    simp only [testLoop]
    exact ⟨hq, Nat.zero_le _, by decide⟩
  | succ qhat ih =>
    intro rhat hqr hq
    simp only [testLoop]
    split_ifs with hr ht
    · -- the test fired: one lower, still at or above the limb
      have hlt := h.div_lt_of_qhatTooLarge hqr ht
      exact ih (rhat + v1) (by rw [← hqr]; ring) (by omega)
    · have hle := h.le_succ_of_not_qhatTooLarge hqr (by simpa using ht)
      exact ⟨hq, hle.2, hle.1⟩
    · -- `rhat` reached the base
      have hle := QuotientDigit.le_div_succ_of_rhat h.v1_pos h.v2_lt h.D_pos h.W_div h.V_div h.W_lt hqr
        (by omega)
      exact ⟨hq, hle.2, hle.1⟩

theorem LeadingLimbs.qhatEstimate_spec {divisor : UInt32}
    (h : LeadingLimbs W V D t2 u2 divisor.toNat v2) :
    W / V ≤ qhatEstimate t2 divisor v2 u2 ∧ qhatEstimate t2 divisor v2 u2 ≤ W / V + 1 ∧
      qhatEstimate t2 divisor v2 u2 < base := by
  have hv1 := h.v1_pos
  -- `div_single` starts from `t2 / v1` with remainder `t2 % v1`
  have hrem : (UInt32.ofNat (t2 % divisor.toNat)).toNat = t2 % divisor.toNat :=
    toNat_ofNat_of_lt (lt_trans (Nat.mod_lt _ hv1) divisor.toNat_lt)
  have hfirst := h.test_inv (Nat.div_add_mod' _ _)
    (QuotientDigit.div_le_estimate hv1 h.u2_lt h.D_pos h.W_div h.V_div)
  unfold qhatEstimate divSingle
  simp only [hrem]
  exact h.testLoop_spec _ _ hfirst.1 hfirst.2

end Estimate

variable {n j : Nat} {S O q t : BigUint} {nb : UInt32}

theorem leadingLimbs_of_lt (hn : 2 ≤ n) (hO : O.len = n)
    (hV : base ^ (n - 1) ≤ O.val) (hS : S.val < O.val * base ^ (j + 1)) :
    LeadingLimbs (S.val / base ^ j) O.val (base ^ (n - 2))
      ((S.get (j + n)).toNat * base + (S.get (j + n - 1)).toNat) (S.get (j + n - 2)).toNat
      (O.get (n - 1)).toNat (O.get (n - 2)).toNat := by
  obtain ⟨k, rfl⟩ : ∃ k, n = k + 2 := ⟨n - 2, by omega⟩
  simp only [get_toNat, show j + (k + 2) = j + k + 2 by omega, show j + k + 2 - 1 = j + k + 1 by omega,
    show j + k + 2 - 2 = j + k by omega, show k + 2 - 1 = k + 1 by omega, Nat.add_sub_cancel] at hV ⊢
  have hVlt : O.val < base ^ (k + 2) := by simpa [hO] using O.val_lt
  have hStop : S.val / base ^ (j + k + 3) = 0 := by
    apply Nat.div_eq_of_lt
    calc S.val < O.val * base ^ (j + 1) := hS
      _ ≤ base ^ (k + 2) * base ^ (j + 1) := Nat.mul_le_mul_right _ hVlt.le
      _ = base ^ (j + k + 3) := by rw [← pow_add]; ring_nf
  have hOtop : O.val / base ^ (k + 2) = 0 := Nat.div_eq_of_lt hVlt
  have hv1 : O.val / base ^ (k + 1) = O.limbs.getD (k + 1) 0 := by
    rw [val_div_pow, hOtop, Nat.mul_zero, Nat.add_zero]
  refine ⟨Nat.pow_pos (by decide), ?_, O.getD_limbs_lt k, S.getD_limbs_lt _, ?_, ?_, ?_⟩
  · rw [← hv1]
    exact Nat.div_pos hV (Nat.pow_pos (by decide))
  · -- three limbs of `self_norm` from `j + k` up, nothing above them
    rw [Nat.div_div_eq_div_mul, ← pow_add, val_div_pow, val_div_pow, show j + k + 1 + 1 = j + k + 2 by omega,
      val_div_pow, show j + k + 2 + 1 = j + k + 3 by omega, hStop]
    ring
  · rw [val_div_pow, hv1]
    ring
  · rw [Nat.div_lt_iff_lt_mul (Nat.pow_pos (by decide)), Nat.mul_assoc, ← pow_succ']
    exact hS

/-- Step D3 ends with `qhat` a limb, the quotient limb of the window or one
more. -/
theorem estimate_spec (hn : 2 ≤ n) (hO : O.len = n)
    (hV : base ^ (n - 1) ≤ O.val) (hS : S.val < O.val * base ^ (j + 1)) :
    S.val / base ^ j / O.val ≤ estimate S O n j ∧ estimate S O n j ≤ S.val / base ^ j / O.val + 1 ∧
      estimate S O n j < base :=
  (leadingLimbs_of_lt hn hO hV hS).qhatEstimate_spec

/-! ## Steps D4 to D6 -/

theorem set_set (x : BigUint) {i : Nat} (hi : i < x.len) (a b : UInt32) : (x.set i a).set i b = x.set i b := by
  apply ext_get (by simp)
  intro k _
  rw [get_set _ (by simpa using hi), get_set _ hi, get_set _ hi]
  split_ifs <;> rfl

theorem divRound_of_ok
    (hsub : (S.window j n).sub (O.mul (ofDouble (estimate S O n j))) = .ok t) :
    divRound O n (q, S) j = (q.set j (UInt32.ofNat (estimate S O n j)), S.setWindow j t (List.range' j (n + 1))) := by
  unfold divRound
  simp only [hsub]
  rfl

theorem divRound_of_error
    (hsub : (S.window j n).sub (O.mul (ofDouble (estimate S O n j))) = .error t) :
    divRound O n (q, S) j =
      let q := q.set j (UInt32.ofNat (estimate S O n j))
      let S := S.setWindow j t (List.range' j (n + 1))
      (q.set j (q.get j - 1), S.setWindow j (O.add (S.window j n)) (List.range' j (n + 1)).reverse) := by
  unfold divRound
  simp only [hsub]
  rfl

theorem getD_limbs_set_ne (x : BigUint) {i k : Nat} (hi : i < x.len) (v : UInt32) (hk : k ≠ i) :
    (x.set i v).limbs.getD k 0 = x.limbs.getD k 0 := by
  rw [getD_limbs_set _ hi, if_neg hk]

theorem setWindow_val_eq {S t : BigUint} {j n w : Nat} (hx : j + n < S.len) (ht : t.val % base ^ (n + 1) = w)
    (hW : S.val / base ^ j < base ^ (n + 1)) :
    (S.setWindow j t (List.range' j (n + 1))).val = S.val % base ^ j + w * base ^ j := by
  have hset := val_setWindow S t hx
  rw [Nat.mod_eq_of_lt hW, ht] at hset
  have hsplit := Nat.mod_add_div S.val (base ^ j)
  linear_combination hset - hsplit

/-- Steps D3 to D6 compute quotient limb `j` of the window `W = S / B ^ j`
by `V`, write it into the quotient, and leave `W % V` in the window. -/
theorem divRound_spec {O q S : BigUint} (hn : 2 ≤ n) (hO : O.len = n)
    (hV : base ^ (n - 1) ≤ O.val) (hS : S.val < O.val * base ^ (j + 1)) (hSlen : j + n < S.len)
    (hq : j < q.len) :
    (divRound O n (q, S) j).1 = q.set j (UInt32.ofNat (S.val / base ^ j / O.val)) ∧
      (divRound O n (q, S) j).2.val = S.val % base ^ j + S.val / base ^ j % O.val * base ^ j ∧
      (divRound O n (q, S) j).2.len = S.len := by
  obtain ⟨hq1, hq2, hq3⟩ := estimate_spec hn hO hV hS
  set V := O.val with hV_def
  set W := S.val / base ^ j with hW_def
  set qhat := estimate S O n j with hqhat_def
  have hVpos : 0 < V := lt_of_lt_of_le (Nat.pow_pos (by decide)) hV
  have hVlt : V < base ^ n := by simpa [hO] using O.val_lt
  have hWV : W < V * base := by
    rw [hW_def, Nat.div_lt_iff_lt_mul (Nat.pow_pos (by decide)), Nat.mul_assoc, ← pow_succ']
    exact hS
  have hWn : W < base ^ (n + 1) := by
    rw [pow_succ]
    exact lt_of_lt_of_le hWV (Nat.mul_le_mul_right _ hVlt.le)
  have hwin : (S.window j n).val = W := by rw [val_window, Nat.mod_eq_of_lt hWn]
  have hrhs : (O.mul (ofDouble qhat)).val = V * qhat := by
    rw [(mul_val _ _).1, val_ofDouble (lt_of_lt_of_le hq3 (Nat.le_mul_of_pos_left _ (by decide)))]
  have hVq : V * qhat < base ^ (n + 1) := by
    rw [pow_succ]
    exact Nat.mul_lt_mul'' hVlt hq3
  have hdm := Nat.div_add_mod W V
  cases hsub : (S.window j n).sub (O.mul (ofDouble qhat)) with
  | ok t =>
    -- no borrow: `qhat * V ≤ W`, so `qhat` is the limb and `t` the remainder
    obtain ⟨ht, -⟩ := sub_ok hsub
    rw [hwin, hrhs] at ht
    have hqeq : qhat = W / V := le_antisymm ((Nat.le_div_iff_mul_le hVpos).mpr (by linarith)) hq1
    have htval : t.val = W % V := by
      rw [hqeq] at ht
      linarith
    rw [divRound_of_ok hsub, ← hqeq]
    refine ⟨rfl, ?_, len_setWindow _ _ _ _⟩
    exact setWindow_val_eq hSlen (by rw [htval, Nat.mod_eq_of_lt (by omega)]) hWn
  | error t =>
    -- a borrow: `W < qhat * V`, so `qhat` is one above the limb
    obtain ⟨ht, htlen⟩ := sub_error hsub
    rw [hwin, hrhs, len_window, (mul_val _ _).2, len_ofDouble, hO,
      show max (n + 1) (2 + n) = n + 2 by omega] at ht
    rw [len_window, (mul_val _ _).2, len_ofDouble, hO, show max (n + 1) (2 + n) = n + 2 by omega] at htlen
    have htlt : t.val < base ^ (n + 2) := by simpa [htlen] using t.val_lt
    have hqeq : qhat = W / V + 1 := by
      have : W / V < qhat := (Nat.div_lt_iff_lt_mul hVpos).mpr (by linarith)
      omega
    -- the window after the subtraction: `W + B ^ (n + 1) - qhat * V`
    have hW1 : t.val % base ^ (n + 1) + V * qhat = W + base ^ (n + 1) := by
      have hpow : base ^ (n + 2) = base ^ (n + 1) * (base - 1) + base ^ (n + 1) := by
        rw [pow_succ, Nat.mul_sub, Nat.mul_one, Nat.sub_add_cancel (Nat.le_mul_of_pos_right _ (by decide))]
      have hsplit : t.val = (W + base ^ (n + 1) - V * qhat) + base ^ (n + 1) * (base - 1) := by omega
      rw [hsplit, Nat.add_mul_mod_self_left, Nat.mod_eq_of_lt (by omega)]
      omega
    set W1 := t.val % base ^ (n + 1) with hW1_def
    set S1 := S.setWindow j t (List.range' j (n + 1)) with hS1_def
    have hS1 : S1.val = S.val % base ^ j + W1 * base ^ j := setWindow_val_eq hSlen rfl hWn
    have hS1len : S1.len = S.len := len_setWindow _ _ _ _
    have hW1lt : W1 < base ^ (n + 1) := Nat.mod_lt _ (Nat.pow_pos (by decide))
    have hS1W : S1.val / base ^ j = W1 := by
      rw [hS1, Nat.add_mul_div_right _ _ (Nat.pow_pos (by decide)),
        Nat.div_eq_of_lt (Nat.mod_lt _ (Nat.pow_pos (by decide))), Nat.zero_add]
    have hu : (S1.window j n).val = W1 := by rw [val_window, hS1W, Nat.mod_eq_of_lt hW1lt]
    -- the add-back: `V + W1 = B ^ (n + 1) + W % V`, whose carry is dropped
    have hadd : (O.add (S1.window j n)).val % base ^ (n + 1) = W % V := by
      rw [add_val, hu]
      have : V + W1 = W % V + base ^ (n + 1) := by
        rw [hqeq, Nat.mul_add, Nat.mul_one] at hW1
        linarith
      rw [this, Nat.add_mod_right, Nat.mod_eq_of_lt (lt_trans (Nat.mod_lt _ hVpos) (lt_of_lt_of_le hVlt
        (Nat.pow_le_pow_right (by decide) (Nat.le_succ n))))]
    have hqpos : 0 < qhat := by rw [hqeq]; exact Nat.succ_pos _
    rw [divRound_of_error hsub]
    simp only
    rw [set_set _ hq, get_set _ hq, if_pos rfl,
      setWindow_reverse _ _ _ _ (fun d hd => by rw [hS1len]; simp [List.mem_range'] at hd; omega)]
    refine ⟨?_, ?_, by rw [len_setWindow, hS1len]⟩
    · congr 1
      apply UInt32.toNat_inj.mp
      have hq1 : (1 : UInt32) ≤ UInt32.ofNat qhat := by
        rw [UInt32.le_iff_toNat_le, toNat_ofNat_of_lt hq3]
        exact hqpos
      rw [UInt32.toNat_sub_of_le _ _ hq1, toNat_ofNat_of_lt hq3, toNat_ofNat_of_lt (by omega)]
      simp only [UInt32.toNat_one]
      omega
    · exact setWindow_val_eq (by rw [hS1len]; exact hSlen) hadd (by rw [hS1W]; exact hW1lt) |>.trans
        (by rw [hS1, Nat.add_mul_mod_self_right, Nat.mod_mod])

/-! ## Step D2: the loop over the quotient limbs -/

/-- The invariant of step D2 once the quotient limbs `j` and above are found:
the quotient's lower limbs are still zero, the quotient times the divisor
plus `self_norm` is the dividend, and `self_norm` is below the divisor at
weight `B ^ j`. -/
structure DivInv (U V n m j : Nat) (acc : BigUint × BigUint) : Prop where
  q_len : acc.1.len = m + 1
  q_zero : ∀ k, k < j → acc.1.limbs.getD k 0 = 0
  r_len : acc.2.len = n + m + 1
  val_eq : acc.1.val * V + acc.2.val = U
  r_lt : acc.2.val < V * base ^ j

theorem divRound_inv {O : BigUint} {U n m j : Nat} {acc : BigUint × BigUint} (hn : 2 ≤ n) (hO : O.len = n)
    (hV : base ^ (n - 1) ≤ O.val) (hj : j < m + 1) (h : DivInv U O.val n m (j + 1) acc) :
    DivInv U O.val n m j (divRound O n acc j) := by
  obtain ⟨q, S⟩ := acc
  have hq : j < q.len := by rw [h.q_len]; exact hj
  obtain ⟨hq', hS', hSlen'⟩ := divRound_spec hn hO hV h.r_lt (by rw [h.r_len]; omega) hq
  set V := O.val
  set W := S.val / base ^ j
  have hVpos : 0 < V := lt_of_lt_of_le (Nat.pow_pos (by decide)) hV
  have hWV : W < V * base := by
    rw [Nat.div_lt_iff_lt_mul (Nat.pow_pos (by decide)), Nat.mul_assoc, ← pow_succ']
    exact h.r_lt
  have hdigit : (UInt32.ofNat (W / V)).toNat = W / V := toNat_ofNat_of_lt (Nat.div_lt_of_lt_mul hWV)
  have hqval := q.val_set_of_zero hq (h.q_zero j (Nat.lt_succ_self j)) (UInt32.ofNat (W / V))
  rw [hdigit] at hqval
  refine ⟨by rw [hq', len_set, h.q_len], fun k hk => ?_, by rw [hSlen', h.r_len], ?_, ?_⟩
  · rw [hq', getD_limbs_set_ne _ hq _ (by omega)]
    exact h.q_zero k (by omega)
  · -- the limb times the divisor and the window's remainder make up the window
    have hval := h.val_eq
    have hdm := Nat.div_add_mod W V
    have hsplit : S.val % base ^ j + base ^ j * W = S.val := Nat.mod_add_div _ _
    rw [hq', hS', hqval]
    linear_combination hval + base ^ j * hdm + hsplit
  · rw [hS']
    have hmod : W % V + 1 ≤ V := Nat.mod_lt _ hVpos
    have hlow : S.val % base ^ j < base ^ j := Nat.mod_lt _ (Nat.pow_pos (by decide))
    calc S.val % base ^ j + W % V * base ^ j < base ^ j + W % V * base ^ j := by omega
      _ = (W % V + 1) * base ^ j := by ring
      _ ≤ V * base ^ j := Nat.mul_le_mul_right _ hmod

/-- Step D2 leaves the quotient of `self_norm` by `other_norm` in `q` and the
remainder in `self_norm`. -/
theorem divLoop_spec {O S : BigUint} {n m : Nat} (hn : 2 ≤ n) (hO : O.len = n) (hV : base ^ (n - 1) ≤ O.val)
    (hSlen : S.len = n + m + 1) (hSlt : S.val < O.val * base ^ (m + 1)) :
    DivInv S.val O.val n m 0 ((List.range (m + 1)).reverse.foldl (divRound O n) (withCapacity (m + 1), S)) :=
  ForLoop.range_reverse_invariant _ (DivInv S.val O.val n m)
    ⟨by simp, fun k _ => getD_limbs_withCapacity _ _, hSlen, by simp, hSlt⟩
    fun j acc hj h => divRound_inv hn hO hV hj h

/-! ## Undoing the normalisation -/

theorem digit_div_two_pow (N d : Nat) {k : Nat} (hk : k ≤ 32) :
    N / 2 ^ k / base ^ d % base =
      2 ^ (32 - k) * (N / base ^ (d + 1) % base % 2 ^ k) + N / base ^ d % base / 2 ^ k := by
  have hB : base = 2 ^ k * 2 ^ (32 - k) := by rw [← pow_add, Nat.add_sub_cancel' hk]; rfl
  set X := N / base ^ d
  have hY : N / base ^ (d + 1) = X / base := by rw [pow_succ, Nat.div_div_eq_div_mul]
  have hX : X = X % base + 2 ^ k * (2 ^ (32 - k) * (X / base)) := by
    rw [← Nat.mul_assoc, ← hB]
    exact (Nat.mod_add_div X base).symm
  have hlow : X % base / 2 ^ k < 2 ^ (32 - k) := by
    apply Nat.div_lt_of_lt_mul
    rw [← hB]
    exact Nat.mod_lt _ (by decide)
  have hhigh : X / base % 2 ^ k < 2 ^ k := Nat.mod_lt _ (Nat.pow_pos (by decide))
  -- `N / 2 ^ k / B ^ d = X / 2 ^ k = X % B / 2 ^ k + 2 ^ (32 - k) * (X / B)`
  have hshift : N / 2 ^ k / base ^ d = X % base / 2 ^ k + 2 ^ (32 - k) * (X / base) := by
    rw [Nat.div_div_eq_div_mul, Nat.mul_comm, ← Nat.div_div_eq_div_mul]
    show X / 2 ^ k = _
    conv_lhs => rw [hX]
    rw [Nat.add_mul_div_left _ _ (Nat.pow_pos (by decide))]
  have hsplit : 2 ^ (32 - k) * (X / base) =
      2 ^ (32 - k) * (X / base % 2 ^ k) + base * (X / base / 2 ^ k) := by
    conv_lhs => rw [← Nat.mod_add_div (X / base) (2 ^ k)]
    rw [hB]
    ring
  rw [hshift, hY, Nat.mod_mod_of_dvd _ (by rw [hB]; exact Nat.dvd_mul_right _ _), hsplit,
    ← Nat.add_assoc, Nat.add_mul_mod_self_left, Nat.mod_eq_of_lt]
  · ring
  · -- the two parts fill the 32 bits without carry
    have h1 : 2 ^ (32 - k) * (X / base % 2 ^ k + 1) ≤ 2 ^ (32 - k) * 2 ^ k := Nat.mul_le_mul_left _ hhigh
    have h2 : 2 ^ (32 - k) * 2 ^ k = base := by rw [hB, Nat.mul_comm]
    rw [Nat.mul_add, Nat.mul_one, h2] at h1
    omega

theorem toNat_unnormalize (a b : UInt32) (h0 : 0 < nb.toNat) (h32 : nb.toNat < 32) :
    ((a >>> nb) ||| (b <<< (32 - nb))).toNat = 2 ^ (32 - nb.toNat) * (b.toNat % 2 ^ nb.toNat) + a.toNat / 2 ^ nb.toNat := by
  have hsub : (32 - nb).toNat = 32 - nb.toNat :=
    UInt32.toNat_sub_of_le _ _ (UInt32.le_iff_toNat_le.mpr (by simp; omega))
  have hlow : a.toNat / 2 ^ nb.toNat < 2 ^ (32 - nb.toNat) := by
    apply Nat.div_lt_of_lt_mul
    rw [← pow_add, Nat.add_sub_cancel' h32.le]
    exact a.toNat_lt
  rw [UInt32.toNat_or, UInt32.toNat_shiftRight, UInt32.toNat_shiftLeft, hsub, Nat.mod_eq_of_lt h32,
    Nat.mod_eq_of_lt (show 32 - nb.toNat < 32 by omega), Nat.shiftRight_eq_div_pow, Nat.shiftLeft_eq,
    show (2 : Nat) ^ 32 = 2 ^ (32 - nb.toNat) * 2 ^ nb.toNat by rw [← pow_add, Nat.sub_add_cancel h32.le],
    Nat.mul_comm b.toNat, Nat.mul_mod_mul_left, Nat.or_comm, Nat.two_pow_add_eq_or_of_lt hlow]

/-- The invariant of the un-normalising loop after `d` limbs: the limbs from
`d` on are still zero, and the low `d` limbs are those of `S / 2 ^ nb`. -/
structure UnnormInv (S : BigUint) (k n d : Nat) (r : BigUint) : Prop where
  len_eq : r.len = n
  zero_above : ∀ i, d ≤ i → r.limbs.getD i 0 = 0
  val_eq : r.val = S.val / 2 ^ k % base ^ d

/-- Writing limb `d` of `S / 2 ^ k` into a zero limb extends the low part by one limb. -/
theorem UnnormInv.set {S r : BigUint} {k n d : Nat} (h : UnnormInv S k n d r) (hd : d < n) {v : UInt32}
    (hv : v.toNat = S.val / 2 ^ k / base ^ d % base) : UnnormInv S k n (d + 1) (r.set d v) := by
  have hdr : d < r.len := by rw [h.len_eq]; exact hd
  refine ⟨by rw [len_set, h.len_eq], fun i hi => ?_, ?_⟩
  · rw [getD_limbs_set_ne _ hdr _ (by omega)]
    exact h.zero_above i (by omega)
  · rw [val_set_of_zero _ hdr (h.zero_above d le_rfl), h.val_eq, hv, Nat.mod_pow_succ]
    ring

/-- Shifting the limbs of `S < B ^ n` down by `0 < nb < 32` bits, as the
source does after step D2, gives `S / 2 ^ nb`. -/
theorem unnormalize_val {S : BigUint} (hn : 1 ≤ n) (hS : S.val < base ^ n)
    (h0 : 0 < nb.toNat) (h32 : nb.toNat < 32) :
    (((List.range (n - 1)).foldl (unnormalizeRound S nb) (withCapacity n)).set (n - 1)
      (S.get (n - 1) >>> nb)).val = S.val / 2 ^ nb.toNat := by
  have hlimb : ∀ d, ((S.get d >>> nb) ||| (S.get (d + 1) <<< (32 - nb))).toNat =
      S.val / 2 ^ nb.toNat / base ^ d % base := fun d => by
    rw [toNat_unnormalize _ _ h0 h32, get_toNat, get_toNat, getD_limbs_eq, getD_limbs_eq,
      digit_div_two_pow _ _ h32.le]
  have hinv : UnnormInv S nb.toNat n (n - 1) ((List.range (n - 1)).foldl (unnormalizeRound S nb) (withCapacity n)) :=
    ForLoop.range_invariant _ (UnnormInv S nb.toNat n)
      ⟨by simp; omega, fun i _ => getD_limbs_withCapacity _ _, by simp [Nat.mod_one]⟩
      fun d r hd h => h.set (by omega) (hlimb d)
  -- the top limb has nothing above it to shift in
  have htop : (S.get (n - 1) >>> nb).toNat = S.val / 2 ^ nb.toNat / base ^ (n - 1) % base := by
    have hzero : S.val / base ^ (n - 1 + 1) % base = 0 := by
      rw [Nat.sub_add_cancel hn, Nat.div_eq_of_lt hS, Nat.zero_mod]
    rw [digit_div_two_pow _ _ h32.le, hzero, Nat.zero_mod, Nat.mul_zero, Nat.zero_add, UInt32.toNat_shiftRight,
      Nat.mod_eq_of_lt h32, Nat.shiftRight_eq_div_pow, get_toNat, getD_limbs_eq]
  rw [(hinv.set (by omega) htop).val_eq, Nat.sub_add_cancel hn]
  exact Nat.mod_eq_of_lt (lt_of_le_of_lt (Nat.div_le_self _ _) hS)

/-! ## Step D1 and the whole division -/

theorem val_div_msb (x : BigUint) : x.val / base ^ (x.len - 1) = x.msb.toNat := by
  obtain ⟨ds, hne⟩ := x
  cases ds with
  | nil => exact absurd rfl hne
  | cons a l =>
    simp only [val_eq_digits, len, msb, List.map_cons, Nat.ofDigits_reverse_cons, List.length_cons,
      Nat.add_sub_cancel, List.head_cons, List.length_map]
    rw [Nat.add_mul_div_left _ _ (Nat.pow_pos (by decide)),
      Nat.div_eq_of_lt (by simpa using ofDigits_lt_of_length l), Nat.zero_add]

theorem leadingZeros_spec {x : UInt32} (hx : x ≠ 0) :
    leadingZeros x < 32 ∧ (x.toNat + 1) * 2 ^ leadingZeros x ≤ base := by
  have hpos : 0 < x.toNat := by
    rcases Nat.eq_zero_or_pos x.toNat with h | h
    · exact absurd (UInt32.toNat_inj.mp (h.trans UInt32.toNat_zero.symm)) hx
    · exact h
  have hsize : 0 < Nat.size x.toNat := Nat.size_pos.mpr hpos
  have hle : Nat.size x.toNat ≤ 32 := Nat.size_le.mpr x.toNat_lt
  refine ⟨by unfold leadingZeros; omega, ?_⟩
  calc (x.toNat + 1) * 2 ^ leadingZeros x ≤ 2 ^ Nat.size x.toNat * 2 ^ leadingZeros x :=
        Nat.mul_le_mul_right _ (Nat.lt_size_self _)
    _ = base := by rw [← pow_add, leadingZeros, Nat.add_sub_cancel' hle]; rfl

theorem lpad_of_le (x : BigUint) {size : Nat} (h : size ≤ x.len) : x.lpad size = x := by
  simp [lpad, h]

theorem pow_le_val_of_msb (x : BigUint) (hx : x.msb ≠ 0) : base ^ (x.len - 1) ≤ x.val := by
  have hmsb1 : 1 ≤ x.msb.toNat := by
    rcases Nat.eq_zero_or_pos x.msb.toNat with h | h
    · exact absurd (UInt32.toNat_inj.mp (h.trans UInt32.toNat_zero.symm)) hx
    · exact h
  have := (Nat.le_div_iff_mul_le (Nat.pow_pos (by decide))).mp ((val_div_msb x) ▸ hmsb1)
  simpa using this

theorem val_lt_succ_msb (x : BigUint) : x.val < (x.msb.toNat + 1) * base ^ (x.len - 1) := by
  have := Nat.lt_div_mul_add (a := x.val) (Nat.pow_pos (by decide) : 0 < base ^ (x.len - 1))
  rw [val_div_msb] at this
  linarith

theorem otherNorm_spec {other : BigUint} {N : UInt32} (hlen : 2 ≤ other.len) (hom : other.msb ≠ 0)
    (hN : N.toNat = 2 ^ leadingZeros other.msb) :
    (other.mul (ofSingle N)).lstrip.val = other.val * 2 ^ leadingZeros other.msb ∧
      (other.mul (ofSingle N)).lstrip.len = other.len := by
  obtain ⟨-, hlzB⟩ := leadingZeros_spec hom
  have hval : (other.mul (ofSingle N)).val = other.val * 2 ^ leadingZeros other.msb := by
    rw [(mul_val _ _).1, val_ofSingle, hN]
  have hlow : base ^ (other.len - 1) ≤ other.val * 2 ^ leadingZeros other.msb :=
    le_trans (pow_le_val_of_msb other hom) (Nat.le_mul_of_pos_right _ (Nat.pow_pos (by decide)))
  -- shifted up by `lz` bits the divisor still fits in `n` limbs
  have hhigh : other.val * 2 ^ leadingZeros other.msb < base ^ other.len := by
    calc other.val * 2 ^ leadingZeros other.msb
        < (other.msb.toNat + 1) * base ^ (other.len - 1) * 2 ^ leadingZeros other.msb :=
          Nat.mul_lt_mul_of_pos_right (val_lt_succ_msb other) (Nat.pow_pos (by decide))
      _ = (other.msb.toNat + 1) * 2 ^ leadingZeros other.msb * base ^ (other.len - 1) := by ring
      _ ≤ base * base ^ (other.len - 1) := Nat.mul_le_mul_right _ hlzB
      _ = base ^ other.len := by rw [← pow_succ', Nat.sub_add_cancel (by omega)]
  refine ⟨by rw [lstrip_val, hval], le_antisymm ?_ ?_⟩
  · rw [lstrip_len_le_iff _ (by omega), hval]
    exact hhigh
  · by_contra hlt
    have hfit : (other.mul (ofSingle N)).lstrip.len ≤ other.len - 1 := by omega
    rw [lstrip_len_le_iff _ (by omega), hval] at hfit
    omega

/-- Under its preconditions `div` returns the quotient and, when asked, the
remainder. -/
theorem div_spec {self other : BigUint} (hlen : 2 ≤ other.len) (hom : other.msb ≠ 0) (hsm : self.msb ≠ 0)
    (hgt : other.len < self.len) :
    ∃ q r, self.div other true = some (q, r) ∧ q.val = self.val / other.val ∧ r.val = self.val % other.val := by
  have hcond : ¬(other.len ≤ 1 ∨ other.msb = 0 ∨ self.msb = 0 ∨ self.len ≤ other.len) := by
    simp only [not_or, not_le]
    exact ⟨by omega, hom, hsm, hgt⟩
  obtain ⟨hlz, -⟩ := leadingZeros_spec hom
  have hVlow := pow_le_val_of_msb other hom
  unfold div
  rw [if_neg hcond]
  dsimp only
  set n := other.len with hn_def
  set m := self.len - n with hm_def
  set lz := leadingZeros other.msb with hlz_def
  have hnb : (UInt32.ofNat lz).toNat = lz := toNat_ofNat_of_lt (by unfold base; omega)
  have hN : (UInt32.ofNat (2 ^ (UInt32.ofNat lz).toNat)).toNat = 2 ^ lz := by
    rw [hnb]
    exact toNat_ofNat_of_lt (Nat.pow_lt_pow_right (by decide) hlz)
  set N := UInt32.ofNat (2 ^ (UInt32.ofNat lz).toNat) with hN_def
  obtain ⟨hOval, hOlen⟩ := otherNorm_spec hlen hom hN
  rw [← hlz_def] at hOval
  set O := (other.mul (ofSingle N)).lstrip with hO_def
  -- step D1 for the dividend: `self * 2 ^ lz`, already `n + m + 1` limbs long
  have hSlen : (self.mul (ofSingle N)).len = n + m + 1 := by
    rw [(mul_val _ _).2, show (ofSingle N).len = 1 from rfl]
    omega
  rw [lpad_of_le _ hSlen.ge]
  set S := self.mul (ofSingle N) with hS_def
  have hSval : S.val = self.val * 2 ^ lz := by rw [(mul_val _ _).1, val_ofSingle, hN]
  have hpos : 0 < 2 ^ lz := Nat.pow_pos (by decide)
  have hVO : base ^ (n - 1) ≤ O.val := by
    rw [hOval]
    exact le_trans hVlow (Nat.le_mul_of_pos_right _ hpos)
  have hVpos : 0 < O.val := lt_of_lt_of_le (Nat.pow_pos (by decide)) hVO
  have hSlt : S.val < O.val * base ^ (m + 1) := by
    have hU : self.val < other.val * base ^ (m + 1) := by
      calc self.val < base ^ self.len := self.val_lt
        _ = base ^ (n - 1) * base ^ (m + 1) := by rw [← pow_add]; congr 1; omega
        _ ≤ other.val * base ^ (m + 1) := Nat.mul_le_mul_right _ hVlow
    rw [hSval, hOval, Nat.mul_right_comm]
    exact Nat.mul_lt_mul_of_pos_right hU hpos
  -- step D2
  have hinv := divLoop_spec hlen hOlen hVO hSlen hSlt
  set res := (List.range (m + 1)).reverse.foldl (divRound O n) (withCapacity (m + 1), S) with hres
  have hrlt : res.2.val < O.val := by simpa using hinv.r_lt
  have hsum : res.2.val + O.val * res.1.val = S.val := by
    have := hinv.val_eq
    linarith
  have hdm : S.val / O.val = res.1.val ∧ S.val % O.val = res.2.val :=
    (Nat.div_mod_unique hVpos).mpr ⟨hsum, hrlt⟩
  obtain ⟨hq, hr⟩ := hdm
  have hquot : res.1.val = self.val / other.val := by
    rw [← hq, hSval, hOval, Nat.mul_div_mul_right _ _ hpos]
  have hrem : res.2.val = self.val % other.val * 2 ^ lz := by
    rw [← hr, hSval, hOval, Nat.mul_mod_mul_right]
  refine ⟨_, _, rfl, hquot, ?_⟩
  rw [if_pos rfl]
  -- undoing the normalisation
  by_cases hz : 0 < lz
  · have hgt0 : UInt32.ofNat lz > 0 := UInt32.lt_iff_toNat_lt.mpr (by rw [hnb]; exact hz)
    have hBn : res.2.val < base ^ n := lt_trans hrlt (by simpa [hOlen] using O.val_lt)
    rw [if_pos hgt0, unnormalize_val (by omega) hBn (by rw [hnb]; exact hz) (by rw [hnb]; exact hlz), hrem, hnb,
      Nat.mul_div_cancel _ hpos]
  · have hz0 : lz = 0 := by omega
    have hle : ¬ UInt32.ofNat lz > 0 := by
      rw [hz0]
      decide
    rw [if_neg hle, hrem, hz0, pow_zero, Nat.mul_one]

/-- `div` refuses exactly the inputs outside its precondition. -/
theorem div_eq_none_iff (self other : BigUint) (rem : Bool) :
    self.div other rem = none ↔
      ¬(2 ≤ other.len ∧ other.msb ≠ 0 ∧ self.msb ≠ 0 ∧ other.len < self.len) := by
  have hpre : (2 ≤ other.len ∧ other.msb ≠ 0 ∧ self.msb ≠ 0 ∧ other.len < self.len) ↔
      ¬(other.len ≤ 1 ∨ other.msb = 0 ∨ self.msb = 0 ∨ self.len ≤ other.len) := by
    simp only [not_or, not_le]
    constructor <;> rintro ⟨h1, h2, h3, h4⟩ <;> exact ⟨by omega, h2, h3, h4⟩
  rw [hpre, not_not]
  unfold div
  split_ifs with hc <;> simp only [hc]

theorem div_knuth (u v : BigUint) (rem : Bool) :
    (u.div v rem = none ↔ ¬(2 ≤ v.len ∧ v.msb ≠ 0 ∧ u.msb ≠ 0 ∧ v.len < u.len)) ∧
      (2 ≤ v.len → v.msb ≠ 0 → u.msb ≠ 0 → v.len < u.len →
        ∃ q r, u.div v true = some (q, r) ∧ q.val * v.val + r.val = u.val ∧ r.val < v.val) := by
  refine ⟨div_eq_none_iff u v rem, fun hlen hvm hum hgt => ?_⟩
  obtain ⟨q, r, hdiv, hq, hr⟩ := div_spec hlen hvm hum hgt
  have hvpos : 0 < v.val := lt_of_lt_of_le (Nat.pow_pos (by decide)) (pow_le_val_of_msb v hvm)
  refine ⟨q, r, hdiv, ?_, ?_⟩
  · rw [hq, hr, Nat.mul_comm]
    exact Nat.div_add_mod _ _
  · rw [hr]
    exact Nat.mod_lt _ hvpos

theorem div_knuth_three_by_two :
    (2 ≤ (⟨[1, 2], by simp⟩ : BigUint).len ∧ (⟨[1, 2], by simp⟩ : BigUint).msb ≠ 0 ∧
      (⟨[1, 1, 2], by simp⟩ : BigUint).msb ≠ 0 ∧
      (⟨[1, 2], by simp⟩ : BigUint).len < (⟨[1, 1, 2], by simp⟩ : BigUint).len) ∧
    ∃ q r, (⟨[1, 1, 2], by simp⟩ : BigUint).div ⟨[1, 2], by simp⟩ true = some (q, r) ∧
      q.val * (⟨[1, 2], by simp⟩ : BigUint).val + r.val = (⟨[1, 1, 2], by simp⟩ : BigUint).val ∧
      r.val < (⟨[1, 2], by simp⟩ : BigUint).val :=
  ⟨⟨by decide, by decide, by decide, by decide⟩,
    (div_knuth ⟨[1, 1, 2], by simp⟩ ⟨[1, 2], by simp⟩ true).2 (by decide) (by decide) (by decide) (by decide)⟩

end BigUint

end SpArithmetic
