import Mathlib
import CherryNode.Lib.Digits
import CherryNode.Lib.ForLoop

/-!
# sp-arithmetic: `BigUint`

An unsigned integer of any size as `biguint.rs` stores it: `u32` limbs, most
significant first, never none (`with_capacity` allocates at least one).  The
operations index limbs least significant first (`get`, `set`, `checked_get`),
and the schoolbook algorithms of Knuth, vol. 2, ch. 4.3.1 run over those
indices with a `Double` (`u64`) carry: `add`, `sub` with a borrow, `mul`, and
`div_unit` by one limb.  Algorithm D is in `BigUintDiv`.

The value is the limbs read in base `B = 2 ^ 32`.  `Double` values are `Nat`s,
every one below `2 ^ 64` as the source's `PROOF` comments argue, and
`as Single` is `UInt32.ofNat`, exact where the source says so.  Each loop is a
fold over the source's range, with the invariant its comments state as its
lemma (`add_val`, `sub_val`, `mul_val`, `divUnit_val`).
-/

namespace SpArithmetic

/-- `B`: one more than the largest `Single`. -/
def base : Nat := 2 ^ 32

/-- `split(a)` of a `Double`: its high and low limbs. -/
def split (a : Nat) : UInt32 × UInt32 := (UInt32.ofNat (a / base), UInt32.ofNat a)

/-- `div_single(a, b)`: the `Double` quotient and the `Single` remainder. -/
def divSingle (a : Nat) (b : UInt32) : Nat × UInt32 := (a / b.toNat, UInt32.ofNat (a % b.toNat))

/-- `BigUint`: the limbs, most significant first. -/
structure BigUint where
  digits : List UInt32
  ne_nil : digits ≠ []

namespace BigUint

/-- `with_capacity(size)`: `size` zero limbs, at least one. -/
def withCapacity (size : Nat) : BigUint :=
  ⟨List.replicate (max size 1) 0, by simp [List.replicate_eq_nil_iff]⟩

/-- `Zero::zero()`. -/
def zero : BigUint := ⟨[0], List.cons_ne_nil _ _⟩

/-- `From<u32>`: one limb. -/
def ofSingle (a : UInt32) : BigUint := ⟨[a], List.cons_ne_nil _ _⟩

/-- `From<u64>`: the two limbs of `split`, high first. -/
def ofDouble (a : Nat) : BigUint := ⟨[(split a).1, (split a).2], List.cons_ne_nil _ _⟩

/-- `from_limbs(limbs)`: `zero` for no limbs. -/
def fromLimbs (limbs : List UInt32) : BigUint := if h : limbs = [] then zero else ⟨limbs, h⟩

/-- `len()`: the number of limbs. -/
def len (x : BigUint) : Nat := x.digits.length

/-- `get(index)`: the limb `index` places from the least significant, that is
`digits[len - 1 - index]`; past the end, where the source panics, the model
reads a zero limb, and the callers below never read there. -/
def get (x : BigUint) (index : Nat) : UInt32 := x.digits.reverse.getD index 0

/-- `checked_get(index)`. -/
def checkedGet (x : BigUint) (index : Nat) : Option UInt32 := x.digits.reverse[index]?

/-- `set(index, value)`: overwrites `digits[len - 1 - index]`. -/
def set (x : BigUint) (index : Nat) (value : UInt32) : BigUint :=
  ⟨x.digits.set (x.len - 1 - index) value, by simpa using x.ne_nil⟩

/-- `msb()`: the most significant limb. -/
def msb (x : BigUint) : UInt32 := x.digits.head x.ne_nil

/-- The position `lstrip` cuts at: the first non-zero limb, or the last limb. -/
def stripIndex (x : BigUint) : Nat := (x.digits.findIdx? (· != 0)).getD (x.len - 1)

theorem stripIndex_lt (x : BigUint) : x.stripIndex < x.len := by
  have hlen : 0 < x.len := List.length_pos_iff.mpr x.ne_nil
  unfold stripIndex
  cases h : x.digits.findIdx? (· != 0) with
  | none =>
    simp only [Option.getD_none]
    omega
  | some i =>
    simpa [len] using (List.findIdx?_eq_some_iff_getElem.mp h).1

/-- `lstrip()`: drops the leading zero limbs, keeping at least one. -/
def lstrip (x : BigUint) : BigUint :=
  if x.stripIndex > 0 then
    ⟨x.digits.drop x.stripIndex, by
      have := x.stripIndex_lt
      simp only [len] at this
      simp [List.drop_eq_nil_iff]
      omega⟩
  else x

/-- `lpad(size)`: zero limbs in front up to `size` limbs. -/
def lpad (x : BigUint) (size : Nat) : BigUint :=
  if x.len ≥ size then x else ⟨List.replicate (size - x.len) 0 ++ x.digits, by simp [x.ne_nil]⟩

/-! ## The schoolbook loops -/

/-- Round `j` of `add`: limb `j` of the sum, and the carry into the next. -/
def addRound (self other : BigUint) (acc : BigUint × Nat) (j : Nat) : BigUint × Nat :=
  let u := ((self.checkedGet j).getD 0).toNat
  let v := ((other.checkedGet j).getD 0).toNat
  let s := u + v + acc.2
  (acc.1.set j (UInt32.ofNat (s % base)), s / base)

/-- `add(other)`: `n + 1` limbs, the last one the final carry. -/
def add (self other : BigUint) : BigUint :=
  let n := max self.len other.len
  let result := (List.range n).foldl (addRound self other) (withCapacity (n + 1), 0)
  result.1.set n (UInt32.ofNat result.2)

/-- Round `j` of `sub`: limb `j` of the difference, and the borrow. -/
def subRound (self other : BigUint) (acc : BigUint × Nat) (j : Nat) : BigUint × Nat :=
  let u := ((self.checkedGet j).getD 0).toNat
  let v := ((other.checkedGet j).getD 0).toNat
  let k := acc.2
  -- `u.checked_sub(v).and_then(|v1| v1.checked_sub(k))`
  if v + k ≤ u then (acc.1.set j (UInt32.ofNat (u - v - k)), 0)
  else (acc.1.set j (UInt32.ofNat (u + base - v - k)), 1)

/-- `sub(other)`: `Ok` when no borrow is left, else `Err` with the limbs of
`self + B ^ n - other`. -/
def sub (self other : BigUint) : Except BigUint BigUint :=
  let n := max self.len other.len
  let result := (List.range n).foldl (subRound self other) (withCapacity n, 0)
  if result.2 = 0 then .ok result.1 else .error result.1

/-- Round `i` of `mul`'s inner loop, for the limb `a = self.get(j)`. -/
def mulInnerRound (other : BigUint) (a : Nat) (j : Nat) (acc : BigUint × UInt32) (i : Nat) :
    BigUint × UInt32 :=
  let t := a * (other.get i).toNat + (acc.1.get (i + j)).toNat + acc.2.toNat
  (acc.1.set (i + j) (UInt32.ofNat (t % base)), UInt32.ofNat (t / base))

/-- Round `j` of `mul`'s outer loop: a zero limb is skipped (`continue`). -/
def mulRound (self other : BigUint) (w : BigUint) (j : Nat) : BigUint :=
  if self.get j = 0 then w
  else
    let result := (List.range other.len).foldl (mulInnerRound other (self.get j).toNat j) (w, 0)
    result.1.set (j + other.len) result.2

/-- `mul(other)`: `n + m` limbs. -/
def mul (self other : BigUint) : BigUint :=
  (List.range self.len).foldl (mulRound self other) (withCapacity (other.len + self.len))

/-- Round `d` of `div_unit`, from the most significant limb down. -/
def divUnitRound (self : BigUint) (other : UInt32) (acc : BigUint × UInt32) (d : Nat) : BigUint × UInt32 :=
  -- `with_r(x, r) = r * B + x`
  let result := divSingle (acc.2.toNat * base + (self.get d).toNat) other
  (acc.1.set d (UInt32.ofNat result.1), result.2)

/-- `div_unit(other)`: the quotient by a single limb, at least one. -/
def divUnit (self : BigUint) (other : UInt32) : BigUint :=
  let other := max other 1
  ((List.range self.len).reverse.foldl (divUnitRound self other) (withCapacity self.len, 0)).1

/-! ## Order and conversions -/

/-- `Ord::cmp`: past the leading zero limbs, the longer number is larger, and
numbers of one length compare limb by limb. -/
def cmp (self other : BigUint) : Ordering :=
  match self.digits.findIdx? (· != 0), other.digits.findIdx? (· != 0) with
  | none, none => .eq
  | some _, none => .gt
  | none, some _ => .lt
  | some l, some r =>
    let lhs := self.digits.drop l
    let rhs := other.digits.drop r
    match compare lhs.length rhs.length with
    | .eq => compare lhs rhs
    | lenCmp => lenCmp

/-- `PartialEq::eq`: `cmp` says `Equal`. -/
def eq (self other : BigUint) : Bool := self.cmp other == .eq

/-- `TryFrom<BigUint>` for the integer type `name` of `bits` bits (`u64`,
`u128`): the limbs summed back after `lstrip`, or `Err` when they are too many. -/
def tryInto (bits : Nat) (name : String) (value : BigUint) : Except String Nat :=
  let value := value.lstrip
  if value.len * 32 > bits then .error ("cannot fit a number into " ++ name)
  else .ok (value.digits.reverse.zipIdx.foldl (fun acc d => acc + d.1.toNat * 2 ^ (32 * d.2)) 0)

/-! ## Values -/

/-- The limbs as numbers, least significant first. -/
def limbs (x : BigUint) : List Nat := x.digits.reverse.map UInt32.toNat

/-- The number the limbs stand for. -/
def val (x : BigUint) : Nat := Nat.ofDigits base x.limbs

theorem one_lt_base : 1 < base := by decide

theorem toNat_ofNat_of_lt {n : Nat} (h : n < base) : (UInt32.ofNat n).toNat = n := by
  rw [UInt32.toNat_ofNat']
  exact Nat.mod_eq_of_lt h

@[simp] theorem length_limbs (x : BigUint) : x.limbs.length = x.len := by
  simp [limbs, len]

theorem limbs_lt (x : BigUint) : ∀ d ∈ x.limbs, d < base := by
  intro d hd
  obtain ⟨a, -, rfl⟩ := List.mem_map.mp hd
  exact a.toNat_lt

theorem val_lt (x : BigUint) : x.val < base ^ x.len := by
  have := Nat.ofDigits_lt_base_pow_length one_lt_base x.limbs_lt
  rwa [length_limbs] at this

theorem len_pos (x : BigUint) : 0 < x.len := List.length_pos_iff.mpr x.ne_nil

theorem get_toNat (x : BigUint) (i : Nat) : (x.get i).toNat = x.limbs.getD i 0 := by
  unfold get limbs
  rw [List.getD_eq_getElem?_getD, List.getD_eq_getElem?_getD, List.getElem?_map]
  cases x.digits.reverse[i]? <;> rfl

theorem checkedGet_toNat (x : BigUint) (i : Nat) : ((x.checkedGet i).getD 0).toNat = x.limbs.getD i 0 := by
  unfold checkedGet limbs
  rw [List.getD_eq_getElem?_getD, List.getElem?_map]
  cases x.digits.reverse[i]? <;> rfl

@[simp] theorem len_set (x : BigUint) (i : Nat) (v : UInt32) : (x.set i v).len = x.len := by
  simp [set, len]

variable {i n j : Nat} {self other w x : BigUint} {acc : BigUint × Nat}

theorem limbs_set (x : BigUint) (hi : i < x.len) (v : UInt32) :
    (x.set i v).limbs = x.limbs.set i v.toNat := by
  show (x.digits.set (x.digits.length - 1 - i) v).reverse.map UInt32.toNat = _
  rw [Digits.set_reverse hi, List.map_set]
  rfl

theorem val_set (x : BigUint) (hi : i < x.len) (v : UInt32) :
    (x.set i v).val + x.limbs.getD i 0 * base ^ i = x.val + v.toNat * base ^ i := by
  unfold val
  rw [limbs_set x hi]
  exact Digits.ofDigits_set (by simpa using hi) _

theorem getD_limbs_set (x : BigUint) (hi : i < x.len) (v : UInt32) (k : Nat) :
    (x.set i v).limbs.getD k 0 = if k = i then v.toNat else x.limbs.getD k 0 := by
  rw [limbs_set x hi, List.getD_eq_getElem?_getD, List.getD_eq_getElem?_getD, List.getElem?_set]
  by_cases hk : k = i
  · subst hk
    simp [hi]
  · simp [Ne.symm hk, hk]

@[simp] theorem len_withCapacity (size : Nat) : (withCapacity size).len = max size 1 := by
  simp [withCapacity, len]

theorem getD_limbs_withCapacity (size k : Nat) : (withCapacity size).limbs.getD k 0 = 0 := by
  simp [withCapacity, limbs, List.getD_eq_getElem?_getD, List.getElem?_replicate]
  split_ifs <;> rfl

@[simp] theorem val_withCapacity (size : Nat) : (withCapacity size).val = 0 := by
  simp [withCapacity, val, limbs, Nat.ofDigits_replicate_zero]

@[simp] theorem val_ofSingle (a : UInt32) : (ofSingle a).val = a.toNat := by
  simp [ofSingle, val, limbs]

theorem val_ofDouble {a : Nat} (ha : a < base * base) : (ofDouble a).val = a := by
  have hhi : a / base < base := Nat.div_lt_of_lt_mul ha
  simp only [ofDouble, split, val, limbs, List.reverse_cons, List.reverse_nil, List.nil_append,
    List.cons_append, List.map_cons, List.map_nil, Nat.ofDigits_cons, Nat.ofDigits_nil,
    UInt32.toNat_ofNat', Nat.mul_zero, Nat.add_zero]
  rw [show (2 : Nat) ^ 32 = base from rfl, Nat.mod_eq_of_lt hhi]
  exact Nat.mod_add_div a base

@[simp] theorem len_ofDouble (a : Nat) : (ofDouble a).len = 2 := rfl

/-- The value of the first `j` limbs. -/
def lowVal (x : BigUint) (j : Nat) : Nat := Nat.ofDigits base (x.limbs.take j)

theorem lowVal_succ (x : BigUint) (j : Nat) : x.lowVal (j + 1) = x.lowVal j + x.limbs.getD j 0 * base ^ j :=
  Digits.ofDigits_take_succ _ _

@[simp] theorem lowVal_zero (x : BigUint) : x.lowVal 0 = 0 := by
  simp [lowVal]

theorem lowVal_of_le (x : BigUint) {j : Nat} (hj : x.len ≤ j) : x.lowVal j = x.val := by
  rw [lowVal, List.take_of_length_le (by simpa using hj), val]

theorem getD_limbs_lt (x : BigUint) (i : Nat) : x.limbs.getD i 0 < base := by
  rw [← get_toNat]
  exact (x.get i).toNat_lt

theorem val_set_of_zero (x : BigUint) (hi : i < x.len) (hz : x.limbs.getD i 0 = 0) (v : UInt32) :
    (x.set i v).val = x.val + v.toNat * base ^ i := by
  have hset := x.val_set hi v
  rwa [hz, Nat.zero_mul, Nat.add_zero] at hset

theorem val_div_pow (x : BigUint) (d : Nat) :
    x.val / base ^ d = x.limbs.getD d 0 + base * (x.val / base ^ (d + 1)) := by
  unfold val
  rw [Nat.ofDigits_div_pow_eq_ofDigits_drop _ (by decide) _ x.limbs_lt,
    Nat.ofDigits_div_pow_eq_ofDigits_drop _ (by decide) _ x.limbs_lt]
  exact Digits.ofDigits_drop _ _

/-! ## `add` -/

/-- The invariant of `add`'s loop after `j` rounds: the limbs from `j` on are
still zero, and the output and the carry at weight `B ^ j` add up to the two
inputs' first `j` limbs. -/
structure AddInv (x y : BigUint) (n j : Nat) (acc : BigUint × Nat) : Prop where
  len_eq : acc.1.len = n + 1
  zero_above : ∀ i, j ≤ i → acc.1.limbs.getD i 0 = 0
  carry_le : acc.2 ≤ 1
  val_eq : acc.1.val + acc.2 * base ^ j = x.lowVal j + y.lowVal j

theorem addRound_inv (hj : j < n)
    (h : AddInv self other n j acc) : AddInv self other n (j + 1) (addRound self other acc j) := by
  have hjw : j < acc.1.len := by rw [h.len_eq]; omega
  have hu := self.limbs_lt
  have hu' : self.limbs.getD j 0 < base := by
    rw [List.getD_eq_getElem?_getD]
    cases hs : self.limbs[j]? with
    | none => exact one_lt_base.trans' (Nat.zero_lt_one)
    | some d => exact hu d (List.mem_of_getElem? hs)
  have hv' : other.limbs.getD j 0 < base := by
    rw [List.getD_eq_getElem?_getD]
    cases hs : other.limbs[j]? with
    | none => exact one_lt_base.trans' (Nat.zero_lt_one)
    | some d => exact other.limbs_lt d (List.mem_of_getElem? hs)
  have hset := acc.1.val_set hjw (UInt32.ofNat ((self.limbs.getD j 0 + other.limbs.getD j 0 + acc.2) % base))
  rw [h.zero_above j (Nat.le_refl j)] at hset
  have hmod : (UInt32.ofNat ((self.limbs.getD j 0 + other.limbs.getD j 0 + acc.2) % base)).toNat =
      (self.limbs.getD j 0 + other.limbs.getD j 0 + acc.2) % base := by
    exact toNat_ofNat_of_lt (Nat.mod_lt _ (by decide))
  have hdm := Nat.div_add_mod (self.limbs.getD j 0 + other.limbs.getD j 0 + acc.2) base
  have hcarry := h.carry_le
  unfold addRound
  simp only [checkedGet_toNat]
  refine ⟨by simp [h.len_eq], fun i hi => ?_, ?_, ?_⟩
  · rw [getD_limbs_set _ hjw, if_neg (by omega)]
    exact h.zero_above i (by omega)
  · -- two limbs below `B` and a carry of at most one sum to below `2 * B`
    have : self.limbs.getD j 0 + other.limbs.getD j 0 + acc.2 < 2 * base := by omega
    exact Nat.le_of_lt_succ (Nat.div_lt_of_lt_mul (by rw [Nat.mul_comm]; exact this))
  · rw [hmod] at hset
    rw [lowVal_succ, lowVal_succ, pow_succ]
    have hval := h.val_eq
    -- the new limb and the carry at weight `B ^ (j + 1)` are the round's sum at weight `B ^ j`
    have hround : (self.limbs.getD j 0 + other.limbs.getD j 0 + acc.2) % base * base ^ j +
        (self.limbs.getD j 0 + other.limbs.getD j 0 + acc.2) / base * (base ^ j * base) =
        (self.limbs.getD j 0 + other.limbs.getD j 0 + acc.2) * base ^ j := by
      conv_rhs => rw [← hdm]
      ring
    nlinarith [hround, hval, hset]

theorem add_fold_inv (self other : BigUint) :
    AddInv self other (max self.len other.len) (max self.len other.len)
      ((List.range (max self.len other.len)).foldl (addRound self other)
        (withCapacity (max self.len other.len + 1), 0)) :=
  ForLoop.range_invariant _ (AddInv self other _)
    ⟨by simp, fun i _ => getD_limbs_withCapacity _ _, Nat.zero_le _, by simp⟩ fun _ _ hj h => addRound_inv hj h

/-- `add` returns the sum. -/
theorem add_val (self other : BigUint) : (self.add other).val = self.val + other.val := by
  dsimp only [add]
  set n := max self.len other.len
  set result := (List.range n).foldl (addRound self other) (withCapacity (n + 1), 0)
  have hinv : AddInv self other n n result := add_fold_inv self other
  have hn : n < result.1.len := by rw [hinv.len_eq]; omega
  -- the final carry lands on limb `n`, which the loop left zero
  have hset := val_set _ hn (UInt32.ofNat result.2)
  rw [hinv.zero_above n (Nat.le_refl n), toNat_ofNat_of_lt (lt_of_le_of_lt hinv.carry_le (by decide))] at hset
  have hval := hinv.val_eq
  rw [lowVal_of_le self (Nat.le_max_left _ _), lowVal_of_le other (Nat.le_max_right _ _)] at hval
  omega

/-- `add` returns `n + 1` limbs. -/
theorem add_len (self other : BigUint) : (self.add other).len = max self.len other.len + 1 := by
  simp only [add, set, len, List.length_set]
  exact (add_fold_inv self other).len_eq

/-! ## `sub` -/

/-- The invariant of `sub`'s loop after `j` rounds: the limbs from `j` on are
still zero, and the output plus the subtrahend's first `j` limbs is the
minuend's first `j` limbs plus the borrow at weight `B ^ j`. -/
structure SubInv (x y : BigUint) (n j : Nat) (acc : BigUint × Nat) : Prop where
  len_eq : acc.1.len = max n 1
  zero_above : ∀ i, j ≤ i → acc.1.limbs.getD i 0 = 0
  borrow_le : acc.2 ≤ 1
  val_eq : acc.1.val + y.lowVal j = x.lowVal j + acc.2 * base ^ j

theorem subRound_inv (hj : j < n)
    (h : SubInv self other n j acc) : SubInv self other n (j + 1) (subRound self other acc j) := by
  have hjw : j < acc.1.len := by rw [h.len_eq]; omega
  have hu := self.getD_limbs_lt j
  have hv := other.getD_limbs_lt j
  have hk := h.borrow_le
  -- both branches write a limb `t < B` and pass on a borrow `k'` with `t + v + k = u + k' * B`
  have hround : ∀ t k', t < base → k' ≤ 1 →
      t + other.limbs.getD j 0 + acc.2 = self.limbs.getD j 0 + k' * base →
      SubInv self other n (j + 1) (acc.1.set j (UInt32.ofNat t), k') := by
    intro t k' ht hk' heq
    have hset := acc.1.val_set_of_zero hjw (h.zero_above j le_rfl) (UInt32.ofNat t)
    rw [toNat_ofNat_of_lt ht] at hset
    refine ⟨by simp [h.len_eq], fun i hi => ?_, hk', ?_⟩
    · rw [getD_limbs_set _ hjw, if_neg (by omega)]
      exact h.zero_above i (by omega)
    · rw [hset, lowVal_succ, lowVal_succ, pow_succ]
      linear_combination h.val_eq + base ^ j * heq
  unfold subRound
  simp only [checkedGet_toNat]
  split_ifs with hle
  · exact hround _ 0 (by omega) (Nat.zero_le _) (by omega)
  · exact hround _ 1 (by omega) le_rfl (by omega)

theorem sub_fold_inv (self other : BigUint) :
    SubInv self other (max self.len other.len) (max self.len other.len)
      ((List.range (max self.len other.len)).foldl (subRound self other)
        (withCapacity (max self.len other.len), 0)) :=
  ForLoop.range_invariant _ _ ⟨by simp, fun i _ => getD_limbs_withCapacity _ _, Nat.zero_le _, by simp⟩
    fun _ _ hj h => subRound_inv hj h

theorem sub_eq (self other : BigUint) :
    ∃ w k, SubInv self other (max self.len other.len) (max self.len other.len) (w, k) ∧
      self.sub other = if k = 0 then .ok w else .error w :=
  ⟨_, _, sub_fold_inv self other, rfl⟩

/-- `Ok` holds the difference, in `max n m` limbs. -/
theorem sub_ok (h : self.sub other = .ok w) :
    w.val + other.val = self.val ∧ w.len = max self.len other.len := by
  obtain ⟨w', k, hinv, hsub⟩ := sub_eq self other
  rw [hsub] at h
  split_ifs at h with hk
  cases h
  have hval := hinv.val_eq
  rw [lowVal_of_le self (Nat.le_max_left _ _), lowVal_of_le other (Nat.le_max_right _ _), hk] at hval
  refine ⟨by simpa using hval, ?_⟩
  have := self.len_pos
  rw [hinv.len_eq]
  omega

/-- `Err` holds `B ^ n` plus the difference, in `max n m` limbs. -/
theorem sub_error (h : self.sub other = .error w) :
    w.val + other.val = self.val + base ^ max self.len other.len ∧ w.len = max self.len other.len := by
  obtain ⟨w', k, hinv, hsub⟩ := sub_eq self other
  rw [hsub] at h
  split_ifs at h with hk
  cases h
  have hval := hinv.val_eq
  have hk1 : k = 1 := by have := hinv.borrow_le; omega
  rw [lowVal_of_le self (Nat.le_max_left _ _), lowVal_of_le other (Nat.le_max_right _ _), hk1] at hval
  refine ⟨by simpa using hval, ?_⟩
  have := self.len_pos
  rw [hinv.len_eq]
  omega

/-- `sub` fails exactly when the subtrahend is the larger. -/
theorem sub_isOk_iff (self other : BigUint) :
    (∃ w, self.sub other = .ok w) ↔ other.val ≤ self.val := by
  obtain ⟨w, k, hinv, hsub⟩ := sub_eq self other
  constructor
  · rintro ⟨w', h⟩
    have := (sub_ok h).1
    omega
  · intro hle
    rw [hsub]
    split_ifs with hk
    · exact ⟨w, rfl⟩
    · exfalso
      have herr := sub_error (w := w) (by rw [hsub, if_neg hk])
      have hlt := w.val_lt
      rw [herr.2] at hlt
      omega

/-! ## `mul` -/

/-- The invariant of `mul`'s inner loop for the limb `a` after `i` rounds: the
output with the carry is the old output plus `a` times `other`'s first `i`
limbs, each at its weight. -/
structure MulInnerInv (w other : BigUint) (a j i : Nat) (acc : BigUint × UInt32) : Prop where
  len_eq : acc.1.len = w.len
  above : ∀ k, i + j ≤ k → acc.1.limbs.getD k 0 = w.limbs.getD k 0
  val_eq : acc.1.val + acc.2.toNat * base ^ (i + j) = w.val + a * other.lowVal i * base ^ j

theorem mulInnerRound_inv {w other : BigUint} {a j i : Nat} {acc : BigUint × UInt32}
    (ha : a < base) (hi : i + j < w.len) (h : MulInnerInv w other a j i acc) :
    MulInnerInv w other a j (i + 1) (mulInnerRound other a j acc i) := by
  have hiw : i + j < acc.1.len := by rw [h.len_eq]; exact hi
  have ho := other.getD_limbs_lt i
  have hl := acc.1.getD_limbs_lt (i + j)
  have hk : acc.2.toNat < base := acc.2.toNat_lt
  set t := a * other.limbs.getD i 0 + acc.1.limbs.getD (i + j) 0 + acc.2.toNat with ht_def
  -- PROOF of the source: `(B - 1) * (B - 1) + (B - 1) + (B - 1) = B ^ 2 - 1`
  have ht : t < base * base := by
    have hao : a * other.limbs.getD i 0 ≤ (base - 1) * (base - 1) :=
      Nat.mul_le_mul (by omega) (by omega)
    have : (base - 1) * (base - 1) + (base - 1) + (base - 1) < base * base := by decide
    omega
  have hset := acc.1.val_set hiw (UInt32.ofNat (t % base))
  rw [toNat_ofNat_of_lt (Nat.mod_lt _ (by decide))] at hset
  unfold mulInnerRound
  simp only [get_toNat]
  refine ⟨by simp [h.len_eq], fun k hk => ?_, ?_⟩
  · rw [getD_limbs_set _ hiw, if_neg (by omega)]
    exact h.above k (by omega)
  · rw [← ht_def, toNat_ofNat_of_lt (Nat.div_lt_of_lt_mul ht), lowVal_succ,
      show i + 1 + j = i + j + 1 by omega, pow_succ, pow_add]
    rw [pow_add] at hset
    have hval := h.val_eq
    rw [pow_add] at hval
    linear_combination hset + hval + base ^ i * base ^ j * (Nat.div_add_mod t base)

/-- The invariant of `mul`'s outer loop after `j` rounds: the limbs from
`j + m` on are zero, and the output is `self`'s first `j` limbs times `other`. -/
structure MulInv (x y : BigUint) (j : Nat) (w : BigUint) : Prop where
  len_eq : w.len = max (y.len + x.len) 1
  zero_above : ∀ k, j + y.len ≤ k → w.limbs.getD k 0 = 0
  val_eq : w.val = x.lowVal j * y.val

theorem mulRound_inv {j : Nat} (hj : j < self.len) (h : MulInv self other j w) :
    MulInv self other (j + 1) (mulRound self other w j) := by
  unfold mulRound
  split_ifs with h0
  · -- a zero limb adds nothing
    have hs : self.limbs.getD j 0 = 0 := by rw [← get_toNat, h0]; rfl
    refine ⟨h.len_eq, fun k hk => h.zero_above k (by omega), ?_⟩
    rw [lowVal_succ, hs, h.val_eq]
    ring
  · set a := (self.get j).toNat with ha_def
    have ha : a < base := (self.get j).toNat_lt
    have hinner : MulInnerInv w other a j other.len
        ((List.range other.len).foldl (mulInnerRound other a j) (w, 0)) :=
      ForLoop.range_invariant _ (fun i acc => MulInnerInv w other a j i acc) ⟨rfl, fun _ _ => rfl, by simp⟩
        fun i acc hi hacc => mulInnerRound_inv ha (by rw [h.len_eq]; omega) hacc
    set acc := (List.range other.len).foldl (mulInnerRound other a j) (w, 0)
    have hjm : j + other.len < acc.1.len := by rw [hinner.len_eq, h.len_eq]; omega
    have hz : acc.1.limbs.getD (j + other.len) 0 = 0 := by
      rw [hinner.above _ (by omega)]
      exact h.zero_above _ le_rfl
    refine ⟨by simp [hinner.len_eq, h.len_eq], fun k hk => ?_, ?_⟩
    · rw [getD_limbs_set _ hjm, if_neg (by omega), hinner.above _ (by omega)]
      exact h.zero_above k (by omega)
    · rw [val_set_of_zero _ hjm hz, lowVal_succ, ← get_toNat, ← ha_def, Nat.add_comm j]
      have hval := hinner.val_eq
      rw [lowVal_of_le other le_rfl, h.val_eq] at hval
      linear_combination hval

/-- `mul` returns the product, in `n + m` limbs. -/
theorem mul_val (self other : BigUint) :
    (self.mul other).val = self.val * other.val ∧ (self.mul other).len = other.len + self.len := by
  have hinv : MulInv self other self.len (self.mul other) :=
    ForLoop.range_invariant _ (MulInv self other) ⟨by simp, fun k _ => getD_limbs_withCapacity _ _, by simp⟩
      fun _ _ hj h => mulRound_inv hj h
  have := self.len_pos
  refine ⟨by rw [hinv.val_eq, lowVal_of_le self le_rfl], ?_⟩
  rw [hinv.len_eq]
  omega

/-! ## `div_unit` -/

/-- The invariant of `div_unit`'s loop once limbs `d` and above are read: the
limbs below `d` are still zero, the output is the quotient of the number above
weight `B ^ d` by the divisor, at that weight, and the remainder is that
number's remainder. -/
structure DivUnitInv (x : BigUint) (o d : Nat) (acc : BigUint × UInt32) : Prop where
  len_eq : acc.1.len = max x.len 1
  zero_below : ∀ k, k < d → acc.1.limbs.getD k 0 = 0
  val_eq : acc.1.val = x.val / base ^ d / o * base ^ d
  rem_eq : acc.2.toNat = x.val / base ^ d % o

theorem divUnitRound_inv {self : BigUint} {other : UInt32} {d : Nat} {acc : BigUint × UInt32}
    (ho : 0 < other.toNat) (hd : d < self.len) (h : DivUnitInv self other.toNat (d + 1) acc) :
    DivUnitInv self other.toNat d (divUnitRound self other acc d) := by
  set o := other.toNat
  set x := acc.2.toNat * base + self.limbs.getD d 0 with hx_def
  have hs := self.getD_limbs_lt d
  have hr : acc.2.toNat < o := by rw [h.rem_eq]; exact Nat.mod_lt _ ho
  -- the number above `B ^ d` is the divisor times the old quotient's digits, then `x`
  have hsplit : self.val / base ^ d = x + o * (self.val / base ^ (d + 1) / o * base) := by
    have hdm := Nat.div_add_mod (self.val / base ^ (d + 1)) o
    rw [val_div_pow, hx_def, h.rem_eq]
    linear_combination base * hdm.symm
  -- PROOF of the source: `(B - 1) * B + (B - 1)` fits, and `x < o * B`
  have hxlt : x < o * base := by
    have : acc.2.toNat * base + base ≤ o * base := by
      rw [← Nat.succ_mul]
      exact Nat.mul_le_mul_right _ hr
    omega
  have hdw : d < acc.1.len := by rw [h.len_eq]; omega
  have hq : x / o < base := Nat.div_lt_of_lt_mul hxlt
  unfold divUnitRound divSingle
  simp only [get_toNat, ← hx_def]
  refine ⟨by simp [h.len_eq], fun k hk => ?_, ?_, ?_⟩
  · rw [getD_limbs_set _ hdw, if_neg (by omega)]
    exact h.zero_below k (by omega)
  · rw [val_set_of_zero _ hdw (h.zero_below d (by omega)), toNat_ofNat_of_lt hq, h.val_eq, hsplit,
      Nat.add_mul_div_left _ _ ho, pow_succ]
    ring
  · rw [toNat_ofNat_of_lt (lt_of_lt_of_le (Nat.mod_lt _ ho) (le_of_lt other.toNat_lt)), hsplit,
      Nat.add_mul_mod_self_left]

/-- `div_unit` returns the quotient by the divisor, or by one for a zero divisor. -/
theorem divUnit_val (self : BigUint) (other : UInt32) :
    (self.divUnit other).val = self.val / (max other 1).toNat ∧ (self.divUnit other).len = self.len := by
  have ho : 0 < (max other 1).toNat := by
    rw [UInt32.toNat_max]
    exact lt_of_lt_of_le (by decide) (le_max_right _ _)
  have hinv : DivUnitInv self (max other 1).toNat 0
      ((List.range self.len).reverse.foldl (divUnitRound self (max other 1)) (withCapacity self.len, 0)) := by
    refine ForLoop.range_reverse_invariant _ (DivUnitInv self (max other 1).toNat) ?_
      fun d acc hd h => divUnitRound_inv ho hd h
    have hlt : self.val / base ^ self.len = 0 := Nat.div_eq_of_lt self.val_lt
    exact ⟨by simp, fun k _ => getD_limbs_withCapacity _ _, by simp [hlt], by simp [hlt]⟩
  have := self.len_pos
  have hval := hinv.val_eq
  rw [pow_zero, Nat.div_one, Nat.mul_one] at hval
  refine ⟨hval, ?_⟩
  show (List.foldl (divUnitRound self (max other 1)) _ _).1.len = _
  rw [hinv.len_eq]
  omega

/-! ## `lstrip`, `Ord` and `TryFrom` -/

theorem val_eq_digits (x : BigUint) : x.val = Nat.ofDigits base (x.digits.map UInt32.toNat).reverse := by
  rw [val, limbs, List.map_reverse]

theorem map_toNat_lt (l : List UInt32) : ∀ d ∈ l.map UInt32.toNat, d < base := by
  intro d hd
  obtain ⟨a, -, rfl⟩ := List.mem_map.mp hd
  exact a.toNat_lt

theorem compare_map_toNat : ∀ l r : List UInt32,
    compare l r = compare (l.map UInt32.toNat) (r.map UInt32.toNat)
  | [], [] => rfl
  | [], _ :: _ => by simp only [List.map_cons, List.map_nil, List.compare_nil_cons]
  | _ :: _, [] => by simp only [List.map_cons, List.map_nil, List.compare_cons_nil]
  | a :: l, c :: r => by
    rw [List.map_cons, List.map_cons, List.compare_cons_cons, List.compare_cons_cons,
      UInt32.compare_eq_toNat_compare_toNat, compare_map_toNat l r]

theorem val_eq_drop (x : BigUint) {i : Nat} (hz : ∀ j (hj : j < x.digits.length), j < i → x.digits[j] = 0) :
    x.val = Nat.ofDigits base ((x.digits.drop i).map UInt32.toNat).reverse := by
  have htake : x.digits.take i = List.replicate (x.digits.take i).length 0 := by
    refine List.eq_replicate_iff.mpr ⟨rfl, fun a ha => ?_⟩
    obtain ⟨j, hj, rfl⟩ := List.mem_iff_getElem.mp ha
    rw [List.getElem_take]
    exact hz j _ (lt_of_lt_of_le hj (by simp))
  rw [val_eq_digits]
  conv_lhs => rw [← List.take_append_drop i x.digits, htake]
  rw [List.map_append, List.map_replicate, UInt32.toNat_zero, Digits.ofDigits_reverse_replicate_append]

theorem pow_le_ofDigits_of_head {l : List UInt32} {a : UInt32} {t : List UInt32} (hl : l = a :: t) (ha : a ≠ 0) :
    base ^ (l.length - 1) ≤ Nat.ofDigits base (l.map UInt32.toNat).reverse := by
  subst hl
  have ha' : a.toNat ≠ 0 := fun h => ha (UInt32.toNat_inj.mp (h.trans UInt32.toNat_zero.symm))
  simpa using Digits.pow_le_ofDigits_reverse_cons (b := base) ha' (t.map UInt32.toNat)

theorem ofDigits_lt_of_length (l : List UInt32) :
    Nat.ofDigits base (l.map UInt32.toNat).reverse < base ^ l.length := by
  have := Nat.ofDigits_lt_base_pow_length one_lt_base (l := (l.map UInt32.toNat).reverse)
    fun d hd => map_toNat_lt l d (List.mem_reverse.mp hd)
  simpa using this

theorem digits_eq_zero_of_findIdx (h : x.digits.findIdx? (· != 0) = some i) :
    ∀ j (hj : j < x.digits.length), j < i → x.digits[j] = 0 := by
  obtain ⟨hi, -, hbefore⟩ := List.findIdx?_eq_some_iff_getElem.mp h
  intro j hj hji
  simpa using hbefore j hji

theorem drop_findIdx (h : x.digits.findIdx? (· != 0) = some i) :
    ∃ a t, x.digits.drop i = a :: t ∧ a ≠ 0 := by
  obtain ⟨hi, hne, -⟩ := List.findIdx?_eq_some_iff_getElem.mp h
  exact ⟨_, _, List.drop_eq_getElem_cons hi, by simpa using hne⟩

theorem val_eq_zero_of_findIdx (h : x.digits.findIdx? (· != 0) = none) : x.val = 0 := by
  have hz : x.digits = List.replicate x.digits.length 0 :=
    List.eq_replicate_iff.mpr ⟨rfl, fun a ha => by simpa using List.findIdx?_eq_none_iff.mp h a ha⟩
  rw [val_eq_digits, hz, List.map_replicate, UInt32.toNat_zero, List.reverse_replicate, Nat.ofDigits_replicate_zero]

theorem digits_eq_zero_of_lt_stripIndex (x : BigUint) :
    ∀ j (hj : j < x.digits.length), j < x.stripIndex → x.digits[j] = 0 := by
  unfold stripIndex
  cases h : x.digits.findIdx? (· != 0) with
  | none =>
    intro j hj _
    simpa using List.findIdx?_eq_none_iff.mp h _ (List.getElem_mem hj)
  | some i => exact digits_eq_zero_of_findIdx h

theorem lstrip_digits (x : BigUint) : x.lstrip.digits = x.digits.drop x.stripIndex := by
  unfold lstrip
  split_ifs with h
  · rfl
  · rw [show x.stripIndex = 0 by omega, List.drop_zero]

/-- `lstrip` keeps the value. -/
theorem lstrip_val (x : BigUint) : x.lstrip.val = x.val := by
  rw [val_eq_digits x.lstrip, lstrip_digits, val_eq_drop x x.digits_eq_zero_of_lt_stripIndex]

/-- After `lstrip` the leading limb is non-zero, or it is the only limb. -/
theorem lstrip_shape (x : BigUint) : ∃ a t, x.lstrip.digits = a :: t ∧ (a ≠ 0 ∨ t = []) := by
  rw [lstrip_digits]
  unfold stripIndex
  cases h : x.digits.findIdx? (· != 0) with
  | none =>
    have hlen := x.len_pos
    have hi : x.len - 1 < x.digits.length := by unfold len at hlen ⊢; omega
    refine ⟨_, _, List.drop_eq_getElem_cons hi, Or.inr ?_⟩
    apply List.eq_nil_of_length_eq_zero
    simp only [List.length_drop, len]
    omega
  | some i =>
    obtain ⟨a, t, hd, ha⟩ := drop_findIdx h
    exact ⟨a, t, hd, Or.inl ha⟩

theorem lstrip_len_le_iff (x : BigUint) {w : Nat} (hw : 0 < w) : x.lstrip.len ≤ w ↔ x.val < base ^ w := by
  rw [← lstrip_val, val_eq_digits]
  obtain ⟨a, t, hd, hat⟩ := lstrip_shape x
  constructor
  · intro hle
    exact lt_of_lt_of_le (ofDigits_lt_of_length _) (Nat.pow_le_pow_right (by decide) hle)
  · intro hlt
    by_contra hgt
    have hlen : x.lstrip.digits.length = x.lstrip.len := rfl
    rcases hat with ha | rfl
    · have hlow := pow_le_ofDigits_of_head hd ha
      have : base ^ w ≤ base ^ (x.lstrip.digits.length - 1) := Nat.pow_le_pow_right (by decide) (by omega)
      omega
    · rw [hd] at hlen
      simp at hlen
      omega

theorem lstrip_msb_ne_zero (x : BigUint) (h : 2 ≤ x.lstrip.len) : x.lstrip.msb ≠ 0 := by
  obtain ⟨a, t, hd, hat⟩ := lstrip_shape x
  have hmsb : x.lstrip.msb = a := by simp [msb, hd]
  rcases hat with ha | rfl
  · rw [hmsb]
    exact ha
  · simp [len, hd] at h

theorem foldl_zipIdx (l : List UInt32) (acc k : Nat) :
    (l.zipIdx k).foldl (fun acc d => acc + d.1.toNat * 2 ^ (32 * d.2)) acc =
      acc + base ^ k * Nat.ofDigits base (l.map UInt32.toNat) := by
  induction l generalizing acc k with
  | nil => simp
  | cons a l ih =>
    rw [List.zipIdx_cons, List.foldl_cons, ih, List.map_cons, Nat.ofDigits_cons, pow_mul]
    simp only [base]
    ring

/-- `try_from` into a type of `32 * w` bits returns the value, or `Err` when it
does not fit. -/
theorem tryInto_eq (x : BigUint) {w : Nat} (hw : 0 < w) (name : String) :
    tryInto (32 * w) name x =
      if x.val < 2 ^ (32 * w) then .ok x.val else .error ("cannot fit a number into " ++ name) := by
  have hiff := lstrip_len_le_iff x hw
  rw [show (2 : Nat) ^ (32 * w) = base ^ w by rw [pow_mul]; rfl]
  unfold tryInto
  simp only
  by_cases hfit : x.val < base ^ w
  · rw [if_neg (by have := hiff.mpr hfit; omega), if_pos hfit, foldl_zipIdx, ← lstrip_val x, val, limbs]
    simp
  · rw [if_pos (by by_contra h; exact hfit (hiff.mp (by omega))), if_neg hfit]

/-- `Ord::cmp` orders by value. -/
theorem cmp_eq_compare (x y : BigUint) : x.cmp y = compare x.val y.val := by
  unfold cmp
  cases hx : x.digits.findIdx? (· != 0) with
  | none =>
    cases hy : y.digits.findIdx? (· != 0) with
    | none => simp [val_eq_zero_of_findIdx hx, val_eq_zero_of_findIdx hy]
    | some r =>
      obtain ⟨c, t', hd', hc⟩ := drop_findIdx hy
      have hpos := pow_le_ofDigits_of_head hd' hc
      rw [val_eq_zero_of_findIdx hx, val_eq_drop y (digits_eq_zero_of_findIdx hy)]
      exact (compare_lt_iff_lt.mpr (lt_of_lt_of_le (Nat.pow_pos (by decide)) hpos)).symm
  | some l =>
    obtain ⟨a, t, hd, ha⟩ := drop_findIdx hx
    have hxlow := pow_le_ofDigits_of_head hd ha
    have hxval := val_eq_drop x (digits_eq_zero_of_findIdx hx)
    cases hy : y.digits.findIdx? (· != 0) with
    | none =>
      rw [val_eq_zero_of_findIdx hy, hxval]
      exact (compare_gt_iff_gt.mpr (lt_of_lt_of_le (Nat.pow_pos (by decide)) hxlow)).symm
    | some r =>
      obtain ⟨c, t', hd', hc⟩ := drop_findIdx hy
      have hylow := pow_le_ofDigits_of_head hd' hc
      have hyval := val_eq_drop y (digits_eq_zero_of_findIdx hy)
      have hxhigh := ofDigits_lt_of_length (x.digits.drop l)
      have hyhigh := ofDigits_lt_of_length (y.digits.drop r)
      simp only
      rw [hxval, hyval]
      -- a number with fewer limbs past its leading zeros is the smaller
      rcases lt_trichotomy (x.digits.drop l).length (y.digits.drop r).length with hlt | heq | hgt
      · have : base ^ (x.digits.drop l).length ≤ base ^ ((y.digits.drop r).length - 1) :=
          Nat.pow_le_pow_right (by decide) (by omega)
        rw [compare_lt_iff_lt.mpr hlt, compare_lt_iff_lt.mpr (by omega)]
      · rw [compare_eq_iff_eq.mpr heq]
        simp only
        rw [compare_map_toNat, Digits.compare_eq_compare_ofDigits one_lt_base (map_toNat_lt _)
          (map_toNat_lt _) (by simpa using heq)]
      · have : base ^ (y.digits.drop r).length ≤ base ^ ((x.digits.drop l).length - 1) :=
          Nat.pow_le_pow_right (by decide) (by omega)
        rw [compare_gt_iff_gt.mpr hgt, compare_gt_iff_gt.mpr (by omega)]

theorem eq_iff_val (x y : BigUint) : x.eq y = true ↔ x.val = y.val := by
  rw [eq, cmp_eq_compare, beq_iff_eq, compare_eq_iff_eq]

end BigUint

end SpArithmetic
