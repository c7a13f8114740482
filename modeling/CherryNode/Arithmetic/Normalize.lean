import Mathlib
import CherryNode.Lib.Vec

/-!
# sp-arithmetic: `normalize`

`normalize(input, targeted_sum)` spreads the difference between `sum(input)`
and `targeted_sum` over the elements: `per_round = diff / count` in a first
pass of `count` rounds, then `leftover = diff % count` one unit at a time.
When the sum is short, the current minimum receives and the index moves on once
it reaches `targeted_sum / count`; when it is over, the current maximum gives,
saturating at zero and carrying the shortfall into `leftover`, and the index
moves down once it reaches the smallest input value.  The values are sorted
once with their positions and put back in position order at the end.

The working vector is a list of `(position, value)` pairs.  `sort_by_key` is a
stable sort, as is `List.insertionSort` with `≤` on the key: both give the one
stable order.  The unit loop of the decreasing case is a `while` loop on fuel;
`lowerLeftover_spec` shows the fuel `normalize` gives it suffices.

All values stay below `targeted_sum` or `sum(input)`, both values of `T`, so
the `checked_add(..).expect(..)` of the increasing case never fails and the
arithmetic is exact in `Nat`.  For input whose sum and length fit in `T`,
`normalize` returns as many values as it was given, summing to `targeted_sum`
when there is at least one (`normalize_spec`).
-/

namespace SpArithmetic

/-- The sum of `input` from `sum`, or `none` once a partial sum reaches
`bound` (`checked_add` on a `T` with `T::max_value() + 1 = bound`). -/
def checkedSum (bound : Nat) : Nat → List Nat → Option Nat
  | sum, [] => some sum
  | sum, t :: ts => if sum + t < bound then checkedSum bound (sum + t) ts else none

/-- The value at position `i` of the working vector. -/
def valueAt (out : List (Nat × Nat)) (i : Nat) : Nat := (out.getD i (0, 0)).2

/-- `output_with_idx[i].1 = v`. -/
def setValue (out : List (Nat × Nat)) (i v : Nat) : List (Nat × Nat) :=
  out.modify i fun x => (x.1, v)

/-- The sum of the values of the working vector. -/
def sumValues (out : List (Nat × Nat)) : Nat := (out.map Prod.snd).sum

/-- `max_index.checked_sub(1).unwrap_or(count - 1)`. -/
def prevIndex (count i : Nat) : Nat := if i = 0 then count - 1 else i - 1

/-! ## The four loops -/

/-- The `for _ in 0..count` pass when the sum is short: `perRound` goes to the
element at `minIndex`, which moves on once that element reaches `threshold`. -/
def raiseRounds (count perRound threshold : Nat) :
    Nat → List (Nat × Nat) → Nat → List (Nat × Nat) × Nat
  | 0, out, minIndex => (out, minIndex)
  | n + 1, out, minIndex =>
    let v := valueAt out minIndex + perRound
    raiseRounds count perRound threshold n (setValue out minIndex v)
      (if threshold ≤ v then (minIndex + 1) % count else minIndex)

/-- `while !leftover.is_zero()` when the sum is short: one unit per round. -/
def raiseLeftover (count threshold : Nat) : Nat → List (Nat × Nat) → Nat → List (Nat × Nat)
  | 0, out, _ => out
  | leftover + 1, out, minIndex =>
    let v := valueAt out minIndex + 1
    raiseLeftover count threshold leftover (setValue out minIndex v)
      (if threshold ≤ v then (minIndex + 1) % count else minIndex)

/-- The `for _ in 0..count` pass when the sum is over: `perRound` is taken from
the element at `maxIndex`; what it lacks is added to `leftover`. -/
def lowerRounds (count perRound threshold : Nat) :
    Nat → List (Nat × Nat) → Nat → Nat → List (Nat × Nat) × Nat × Nat
  | 0, out, maxIndex, leftover => (out, maxIndex, leftover)
  | n + 1, out, maxIndex, leftover =>
    let v := valueAt out maxIndex
    -- `checked_sub`, or `saturating_sub` with the remainder carried into `leftover`
    let v' := v - perRound
    let leftover' := if perRound ≤ v then leftover else leftover + (perRound - v)
    lowerRounds count perRound threshold n (setValue out maxIndex v')
      (if v' ≤ threshold then prevIndex count maxIndex else maxIndex) leftover'

/-- `while !leftover.is_zero()` when the sum is over: a unit is taken from the
element at `maxIndex` if it has one, else the index moves down.  Returns the
vector and the leftover the loop stopped with (zero unless the fuel ran out). -/
def lowerLeftover (count threshold : Nat) :
    Nat → List (Nat × Nat) → Nat → Nat → List (Nat × Nat) × Nat
  | 0, out, _, leftover => (out, leftover)
  | _ + 1, out, _, 0 => (out, 0)
  | fuel + 1, out, maxIndex, leftover + 1 =>
    let v := valueAt out maxIndex
    if 1 ≤ v then
      lowerLeftover count threshold fuel (setValue out maxIndex (v - 1))
        (if v - 1 ≤ threshold then prevIndex count maxIndex else maxIndex) leftover
    else lowerLeftover count threshold fuel out (prevIndex count maxIndex) (leftover + 1)

/-- The `needs_bump` branch, on the sorted working vector. -/
def raise (count targetedSum diff : Nat) (out : List (Nat × Nat)) : List (Nat × Nat) :=
  let perRound := diff / count
  let threshold := targetedSum / count
  let rounds := if perRound = 0 then (out, 0) else raiseRounds count perRound threshold count out 0
  raiseLeftover count threshold (diff % count) rounds.1 rounds.2

/-- The other branch: the threshold is the smallest value, the first of the
sorted vector.  The unit loop gets `leftover * count + count` rounds of fuel. -/
def lower (count diff : Nat) (out : List (Nat × Nat)) : List (Nat × Nat) × Nat :=
  let perRound := diff / count
  let threshold := (out.headD (0, 0)).2
  let rounds := if perRound = 0 then (out, count - 1, diff % count)
    else lowerRounds count perRound threshold count out (count - 1) (diff % count)
  lowerLeftover count threshold (rounds.2.2 * count + count) rounds.1 rounds.2.1 rounds.2.2

/-- `normalize(input, targeted_sum)` over a `T` whose values are below `bound`. -/
def normalize (bound : Nat) (input : List Nat) (targetedSum : Nat) : Except String (List Nat) :=
  match checkedSum bound 0 input with
  | none => .error "sum of input cannot fit in `T`"
  | some sum =>
    let count := input.length
    if bound ≤ count then .error "length of `inputs` cannot fit in `T`"
    else if count = 0 then .ok []
    else
      let diff := max targetedSum sum - min targetedSum sum
      if diff = 0 then .ok input
      else
        let outputWithIdx := (input.zipIdx.map Prod.swap).insertionSort (fun a b => a.2 ≤ b.2)
        let out := if sum < targetedSum then raise count targetedSum diff outputWithIdx
          else (lower count diff outputWithIdx).1
        .ok ((out.insertionSort (fun a b => a.1 ≤ b.1)).map Prod.snd)

/-! ## The working vector -/

theorem checkedSum_eq (bound : Nat) :
    ∀ (l : List Nat) (s : Nat), s < bound →
      checkedSum bound s l = if s + l.sum < bound then some (s + l.sum) else none
  | [], s, hs => by simp [checkedSum, hs]
  | t :: ts, s, _ => by
    by_cases h : s + t < bound
    · rw [checkedSum, if_pos h, checkedSum_eq bound ts (s + t) h, List.sum_cons, Nat.add_assoc]
    · have h' : ¬ s + (t + ts.sum) < bound := by omega
      rw [checkedSum, if_neg h]
      simp [h']

@[simp] theorem length_setValue (out : List (Nat × Nat)) (i v : Nat) :
    (setValue out i v).length = out.length := by
  simp [setValue]

theorem sumValues_setValue {out : List (Nat × Nat)} {i : Nat} (hi : i < out.length) (v : Nat) :
    sumValues (setValue out i v) + valueAt out i = sumValues out + v := by
  have h := List.sum_map_snd_modify out hi v
  rwa [valueAt, List.getD_eq_getElem _ _ hi]

theorem sumValues_perm {l l' : List (Nat × Nat)} (h : l.Perm l') : sumValues l = sumValues l' :=
  (h.map Prod.snd).sum_eq

theorem valueAt_le_sumValues {out : List (Nat × Nat)} {i : Nat} (hi : i < out.length) :
    valueAt out i ≤ sumValues out := by
  have h := sumValues_setValue hi 0
  omega

theorem exists_valueAt_pos {out : List (Nat × Nat)} (h : 0 < sumValues out) :
    ∃ t < out.length, 0 < valueAt out t := by
  induction out with
  | nil => simp [sumValues] at h
  | cons x out ih =>
    by_cases hx : 0 < x.2
    · exact ⟨0, by simp, by simpa [valueAt] using hx⟩
    · have hrest : 0 < sumValues out := by simp [sumValues] at h ⊢; omega
      obtain ⟨t, ht, hpos⟩ := ih hrest
      exact ⟨t + 1, by simpa using ht, by simpa [valueAt] using hpos⟩

theorem prevIndex_lt {count : Nat} {i : Nat} (hc : 0 < count) (hi : i < count) :
    prevIndex count i < count := by
  unfold prevIndex
  split_ifs <;> omega

theorem raiseIndex_lt {count : Nat} {i : Nat} (hc : 0 < count) (hi : i < count) (p : Prop) [Decidable p] :
    (if p then (i + 1) % count else i) < count := by
  split_ifs
  · exact Nat.mod_lt _ hc
  · exact hi

theorem lowerIndex_lt {count : Nat} {i : Nat} (hc : 0 < count) (hi : i < count) (p : Prop) [Decidable p] :
    (if p then prevIndex count i else i) < count := by
  split_ifs
  · exact prevIndex_lt hc hi
  · exact hi

theorem prevIndex_iterate_sub (count : Nat) {t : Nat} :
    ∀ i, t ≤ i → (prevIndex count)^[i - t] i = t := by
  intro i hti
  obtain ⟨k, rfl⟩ := Nat.exists_eq_add_of_le hti
  induction k with
  | zero => simp
  | succ k ih =>
    have hk : t + (k + 1) - t = k + 1 := by omega
    rw [hk, Function.iterate_succ_apply]
    have hprev : prevIndex count (t + (k + 1)) = t + k := by simp [prevIndex]
    rw [hprev]
    simpa using ih (by omega)

theorem exists_prevIndex_iterate {count i t : Nat} (hi : i < count) (ht : t < count) :
    ∃ j < count, (prevIndex count)^[j] i = t := by
  by_cases hti : t ≤ i
  · exact ⟨i - t, by omega, prevIndex_iterate_sub count i hti⟩
  · -- down to `0`, wrap to `count - 1`, then down to `t`
    refine ⟨(count - 1 - t) + 1 + i, by omega, ?_⟩
    rw [Function.iterate_add_apply, Function.iterate_add_apply]
    have h0 : (prevIndex count)^[i] i = 0 := by simpa using prevIndex_iterate_sub count (t := 0) i (by omega)
    have hwrap : (prevIndex count)^[1] 0 = count - 1 := by simp [prevIndex]
    rw [h0, hwrap]
    exact prevIndex_iterate_sub count (count - 1) (by omega)

/-! ## What each loop does to the sum -/

section Loops

variable {count i : Nat}

theorem raiseRounds_spec (perRound threshold : Nat) (hc : 0 < count) :
    ∀ (n : Nat) (out : List (Nat × Nat)) (i : Nat), out.length = count → i < count →
      (raiseRounds count perRound threshold n out i).1.length = count ∧
      (raiseRounds count perRound threshold n out i).2 < count ∧
      sumValues (raiseRounds count perRound threshold n out i).1 =
        sumValues out + n * perRound := by
  intro n
  induction n with
  | zero => intro out i hl hi; simp [raiseRounds, hl, hi]
  | succ n ih =>
    intro out i hl hi
    have hsum := sumValues_setValue (hl ▸ hi : i < out.length) (valueAt out i + perRound)
    have hnext := raiseIndex_lt hc hi (threshold ≤ valueAt out i + perRound)
    obtain ⟨h1, h2, h3⟩ := ih (setValue out i (valueAt out i + perRound)) _ (by simp [hl]) hnext
    refine ⟨h1, h2, ?_⟩
    simp only [raiseRounds] at h1 h2 h3 ⊢
    rw [h3, Nat.succ_mul]
    omega

theorem raiseLeftover_spec (threshold : Nat) (hc : 0 < count) :
    ∀ (leftover : Nat) (out : List (Nat × Nat)) (i : Nat), out.length = count → i < count →
      (raiseLeftover count threshold leftover out i).length = count ∧
      sumValues (raiseLeftover count threshold leftover out i) = sumValues out + leftover := by
  intro leftover
  induction leftover with
  | zero => intro out i hl _; simp [raiseLeftover, hl]
  | succ leftover ih =>
    intro out i hl hi
    have hsum := sumValues_setValue (hl ▸ hi : i < out.length) (valueAt out i + 1)
    have hnext := raiseIndex_lt hc hi (threshold ≤ valueAt out i + 1)
    obtain ⟨h1, h2⟩ := ih (setValue out i (valueAt out i + 1)) _ (by simp [hl]) hnext
    simp only [raiseLeftover]
    exact ⟨h1, by omega⟩

theorem lowerRounds_spec (perRound threshold : Nat) (hc : 0 < count) :
    ∀ (n : Nat) (out : List (Nat × Nat)) (i leftover : Nat), out.length = count → i < count →
      (lowerRounds count perRound threshold n out i leftover).1.length = count ∧
      (lowerRounds count perRound threshold n out i leftover).2.1 < count ∧
      sumValues (lowerRounds count perRound threshold n out i leftover).1 + n * perRound +
        leftover = sumValues out + (lowerRounds count perRound threshold n out i leftover).2.2 := by
  intro n
  induction n with
  | zero => intro out i leftover hl hi; simp [lowerRounds, hl, hi]
  | succ n ih =>
    intro out i leftover hl hi
    set v := valueAt out i
    set leftover' := if perRound ≤ v then leftover else leftover + (perRound - v) with hleftover'
    have hsum := sumValues_setValue (hl ▸ hi : i < out.length) (v - perRound)
    -- what one round takes from the sum, it adds to the leftover
    have hround : sumValues (setValue out i (v - perRound)) + perRound + leftover =
        sumValues out + leftover' := by
      rw [hleftover']
      split_ifs <;> omega
    have hnext := lowerIndex_lt hc hi (v - perRound ≤ threshold)
    have hstep : lowerRounds count perRound threshold (n + 1) out i leftover =
        lowerRounds count perRound threshold n (setValue out i (v - perRound))
          (if v - perRound ≤ threshold then prevIndex count i else i) leftover' := rfl
    obtain ⟨h1, h2, h3⟩ := ih (setValue out i (v - perRound)) _ leftover' (by simp [hl]) hnext
    rw [hstep]
    refine ⟨h1, h2, ?_⟩
    rw [Nat.succ_mul]
    omega

theorem lowerLeftover_moves (threshold : Nat) (hc : 0 < count) (leftover : Nat)
    (ih : ∀ (fuel : Nat) (out : List (Nat × Nat)) (i : Nat), out.length = count → i < count →
      leftover ≤ sumValues out → leftover * count + count ≤ fuel →
      (lowerLeftover count threshold fuel out i leftover).2 = 0 ∧
      (lowerLeftover count threshold fuel out i leftover).1.length = count ∧
      sumValues (lowerLeftover count threshold fuel out i leftover).1 + leftover = sumValues out) :
    ∀ (j fuel : Nat) (out : List (Nat × Nat)) (i : Nat), out.length = count → i < count →
      leftover + 1 ≤ sumValues out → 0 < valueAt out ((prevIndex count)^[j] i) →
      j + 1 + leftover * count + count ≤ fuel →
      (lowerLeftover count threshold fuel out i (leftover + 1)).2 = 0 ∧
      (lowerLeftover count threshold fuel out i (leftover + 1)).1.length = count ∧
      sumValues (lowerLeftover count threshold fuel out i (leftover + 1)).1 + (leftover + 1) =
        sumValues out := by
  intro j
  induction j with
  | zero =>
    intro fuel out i hl hi hsum hpos hfuel
    obtain ⟨fuel, rfl⟩ : ∃ f, fuel = f + 1 := ⟨fuel - 1, by omega⟩
    have hv : 1 ≤ valueAt out i := by simp at hpos; omega
    have hset := sumValues_setValue (hl ▸ hi : i < out.length) (valueAt out i - 1)
    have hnext := lowerIndex_lt hc hi (valueAt out i - 1 ≤ threshold)
    obtain ⟨h1, h2, h3⟩ := ih fuel (setValue out i (valueAt out i - 1)) _ (by simp [hl]) hnext
      (by omega) (by omega)
    simp only [lowerLeftover, hv, if_true]
    exact ⟨h1, h2, by omega⟩
  | succ j ihj =>
    intro fuel out i hl hi hsum hpos hfuel
    obtain ⟨fuel, rfl⟩ : ∃ f, fuel = f + 1 := ⟨fuel - 1, by omega⟩
    by_cases hv : 1 ≤ valueAt out i
    · -- a unit is there already
      have hset := sumValues_setValue (hl ▸ hi : i < out.length) (valueAt out i - 1)
      have hnext := lowerIndex_lt hc hi (valueAt out i - 1 ≤ threshold)
      obtain ⟨h1, h2, h3⟩ := ih fuel (setValue out i (valueAt out i - 1)) _ (by simp [hl]) hnext
        (by omega) (by omega)
      simp only [lowerLeftover, hv, if_true]
      exact ⟨h1, h2, by omega⟩
    · -- move down: the positive element is one move nearer
      have hpos' : 0 < valueAt out ((prevIndex count)^[j] (prevIndex count i)) := by
        rwa [← Function.iterate_succ_apply]
      have h := ihj fuel out (prevIndex count i) hl (prevIndex_lt hc hi) hsum hpos' (by omega)
      simp only [lowerLeftover, hv, if_false]
      exact h

/-- With fuel `leftover * count + count`, and the values adding up to at least
`leftover`, the unit loop takes exactly `leftover` units and stops. -/
theorem lowerLeftover_spec (threshold : Nat) (hc : 0 < count) :
    ∀ (leftover fuel : Nat) (out : List (Nat × Nat)) (i : Nat), out.length = count → i < count →
      leftover ≤ sumValues out → leftover * count + count ≤ fuel →
      (lowerLeftover count threshold fuel out i leftover).2 = 0 ∧
      (lowerLeftover count threshold fuel out i leftover).1.length = count ∧
      sumValues (lowerLeftover count threshold fuel out i leftover).1 + leftover =
        sumValues out := by
  intro leftover
  induction leftover with
  | zero =>
    intro fuel out i hl _ _ _
    cases fuel <;> simp [lowerLeftover, hl]
  | succ leftover ih =>
    intro fuel out i hl hi hsum hfuel
    -- some element is positive; the index reaches it within `count` moves
    obtain ⟨t, ht, hpos⟩ := @exists_valueAt_pos out (by omega)
    obtain ⟨j, hj, hjt⟩ := exists_prevIndex_iterate hi (hl ▸ ht : t < count)
    have hfuel' : j + 1 + leftover * count + count ≤ fuel := by
      rw [Nat.succ_mul] at hfuel; omega
    exact lowerLeftover_moves threshold hc leftover ih j fuel out i hl hi hsum (hjt ▸ hpos) hfuel'

end Loops

/-! ## The two branches and the whole -/

theorem raise_spec {count targetedSum diff : Nat} {out : List (Nat × Nat)} (hc : 0 < count)
    (hl : out.length = count) :
    (raise count targetedSum diff out).length = count ∧
      sumValues (raise count targetedSum diff out) = sumValues out + diff := by
  unfold raise
  have hdiff := Nat.div_add_mod diff count
  by_cases hp : diff / count = 0
  · have h := raiseLeftover_spec (targetedSum / count) hc (diff % count) out 0 hl hc
    simp only [hp, if_true]
    rw [hp, Nat.mul_zero, Nat.zero_add] at hdiff
    exact ⟨h.1, by rw [h.2, hdiff]⟩
  · obtain ⟨h1, h2, h3⟩ := raiseRounds_spec (diff / count) (targetedSum / count) hc count out 0 hl hc
    have h := raiseLeftover_spec (targetedSum / count) hc (diff % count) _ _ h1 h2
    simp only [hp, if_false]
    refine ⟨h.1, ?_⟩
    rw [h.2, h3, Nat.mul_comm count] at *
    omega

theorem lower_spec {count diff : Nat} {out : List (Nat × Nat)} (hc : 0 < count)
    (hl : out.length = count) (hdiff : diff ≤ sumValues out) :
    (lower count diff out).2 = 0 ∧ (lower count diff out).1.length = count ∧
      sumValues (lower count diff out).1 + diff = sumValues out := by
  unfold lower
  have hdm := Nat.div_add_mod diff count
  have hlast : count - 1 < count := by omega
  by_cases hp : diff / count = 0
  · simp only [hp, if_true]
    rw [hp, Nat.mul_zero, Nat.zero_add] at hdm
    obtain ⟨h1, h2, h3⟩ := lowerLeftover_spec (out.headD (0, 0)).2 hc (diff % count)
      _ out (count - 1) hl hlast (by omega) (Nat.le_refl _)
    exact ⟨h1, h2, by omega⟩
  · simp only [hp, if_false]
    set r := lowerRounds count (diff / count) (out.headD (0, 0)).2 count out (count - 1)
      (diff % count) with hr
    obtain ⟨h1, h2, h3⟩ := lowerRounds_spec (diff / count) (out.headD (0, 0)).2 hc count out
      (count - 1) (diff % count) hl hlast
    rw [← hr] at h1 h2 h3
    -- after the rounds the sum exceeds the target by the new leftover
    have hover : r.2.2 ≤ sumValues r.1 := by omega
    obtain ⟨h4, h5, h6⟩ := lowerLeftover_spec (out.headD (0, 0)).2 hc r.2.2 (r.2.2 * count + count)
      r.1 r.2.1 h1 h2 hover (Nat.le_refl _)
    exact ⟨h4, h5, by omega⟩

theorem sumValues_outputWithIdx (input : List Nat) :
    sumValues ((input.zipIdx.map Prod.swap).insertionSort (fun a b => a.2 ≤ b.2)) = input.sum := by
  rw [sumValues_perm (List.perm_insertionSort _ _)]
  simp [sumValues, Function.comp_def, List.zipIdx_map_fst]

/-- For input whose sum and length fit in `T`, `normalize` succeeds with one
value per input, and for non-empty input the values sum to `targetedSum`. -/
theorem normalize_spec (bound : Nat) (input : List Nat) (targetedSum : Nat)
    (hsum : input.sum < bound) (hlen : input.length < bound) :
    ∃ out, normalize bound input targetedSum = .ok out ∧ out.length = input.length ∧
      (input ≠ [] → out.sum = targetedSum) := by
  have hchk : checkedSum bound 0 input = some input.sum := by
    rw [checkedSum_eq bound input 0 (by omega)]; simp [hsum]
  unfold normalize
  rw [hchk]
  simp only [Nat.not_le.mpr hlen, if_false]
  by_cases h0 : input.length = 0
  · exact ⟨[], by simp [h0], by simp [List.length_eq_zero_iff.mp h0], fun h => absurd
      (List.length_eq_zero_iff.mp h0) h⟩
  · simp only [h0, if_false]
    have hc : 0 < input.length := Nat.pos_of_ne_zero h0
    by_cases hd : max targetedSum input.sum - min targetedSum input.sum = 0
    · simp only [hd, if_true]
      exact ⟨input, rfl, rfl, fun _ => by omega⟩
    · simp only [hd, if_false]
      set w := (input.zipIdx.map Prod.swap).insertionSort (fun a b => a.2 ≤ b.2) with hw
      have hwl : w.length = input.length := by simp [hw]
      have hws : sumValues w = input.sum := sumValues_outputWithIdx input
      -- either branch returns a vector of the same length whose values sum to the target
      have hbranch : ∀ out : List (Nat × Nat), out.length = input.length →
          sumValues out = targetedSum →
          ∃ res, (Except.ok ((out.insertionSort (fun a b => a.1 ≤ b.1)).map Prod.snd) :
            Except String (List Nat)) = .ok res ∧
            res.length = input.length ∧ (input ≠ [] → res.sum = targetedSum) := by
        intro out hl hs
        refine ⟨_, rfl, by simp [hl], fun _ => ?_⟩
        rw [← hs, ← sumValues_perm (List.perm_insertionSort (fun a b : Nat × Nat => a.1 ≤ b.1) out)]
        rfl
      by_cases hlt : input.sum < targetedSum
      · simp only [hlt, if_true]
        obtain ⟨h1, h2⟩ :=
          @raise_spec _ targetedSum (max targetedSum input.sum - min targetedSum input.sum) _ hc hwl
        exact hbranch _ h1 (by rw [h2, hws]; omega)
      · simp only [hlt, if_false]
        obtain ⟨-, h1, h2⟩ := @lower_spec _ (max targetedSum input.sum - min targetedSum input.sum) _
          hc hwl (by rw [hws]; omega)
        exact hbranch _ h1 (by rw [hws] at h2; omega)

theorem checkedSum_eq_some {bound : Nat} :
    ∀ {l : List Nat} {s r : Nat}, checkedSum bound s l = some r → r = s + l.sum ∧ (l ≠ [] → r < bound)
  | [], s, r, h => by
    simp only [checkedSum, Option.some.injEq] at h
    simp [h]
  | t :: ts, s, r, h => by
    simp only [checkedSum] at h
    split_ifs at h with hlt
    obtain ⟨hr, hb⟩ := checkedSum_eq_some h
    refine ⟨by rw [hr, List.sum_cons, Nat.add_assoc], fun _ => ?_⟩
    by_cases hts : ts = []
    · subst hts; simp at hr; omega
    · exact hb hts

theorem normalize_ok_spec {bound : Nat} {input : List Nat} {targetedSum : Nat} {out : List Nat}
    (h : normalize bound input targetedSum = .ok out) :
    out.length = input.length ∧ (input ≠ [] → out.sum = targetedSum) := by
  -- a successful run has passed both `T` checks
  have hbounds : input.sum < bound ∧ input.length < bound := by
    unfold normalize at h
    split at h
    · cases h
    · rename_i sum hsum
      obtain ⟨hs, hlt⟩ := checkedSum_eq_some hsum
      have hlen : input.length < bound := by
        by_contra hge
        simp [Nat.not_lt.mp hge] at h
      refine ⟨?_, hlen⟩
      by_cases hnil : input = []
      · subst hnil; simpa using Nat.lt_of_le_of_lt (Nat.zero_le _) hlen
      · rw [Nat.zero_add] at hs; rw [← hs]; exact hlt hnil
  obtain ⟨out', h', hl, hs⟩ := normalize_spec bound input targetedSum hbounds.1 hbounds.2
  rw [h] at h'
  cases h'
  exact ⟨hl, hs⟩

example : normalize (2 ^ 32) [8, 9, 7, 10] 40 = .ok [10, 10, 10, 10] := by decide
example : normalize (2 ^ 32) [13, 13, 13, 10] 40 = .ok [12, 9, 9, 10] := by decide

end SpArithmetic
