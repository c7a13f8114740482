import CherryNode.Arithmetic.Normalize
import CherryNode.Arithmetic.PerThing

/-!
# sp-arithmetic: `normalize` runs to the end

`Arithmetic.Normalize` computes in `Nat`.  The source can stop in five places
of the spreading branch: the `checked_add(..).expect(..)` of each raising loop,
the `.first().expect(..)` of the lowering threshold, `leftover += remainder`
(checked in a debug build) and the closing `debug_assert_eq!`.
`normalizeChecked` is `normalize` as a debug build runs it, `none` a panic or
the lowering unit loop out of fuel.

For every `targeted_sum` of `T` it is `some` of `normalize`
(`normalizeChecked_eq`): the raising loops stay below `bound` since the values
never exceed `targeted_sum`, and the lowering loops keep `leftover` at most the
values' sum.  `Normalizable` for `Vec<P>` runs `normalize` on the parts; the
results are at most the target's parts, so the saturation into `P::Inner` and
`from_parts` change nothing.
-/

namespace SpArithmetic

/-! ## The branch loops with their checks -/

/-- `raiseRounds` with its `checked_add(&per_round).expect(..)`. -/
def raiseRoundsChecked (bound count perRound threshold : Nat) :
    Nat → List (Nat × Nat) → Nat → Option (List (Nat × Nat) × Nat)
  | 0, out, minIndex => some (out, minIndex)
  | n + 1, out, minIndex =>
    let v := valueAt out minIndex + perRound
    if bound ≤ v then none
    else raiseRoundsChecked bound count perRound threshold n (setValue out minIndex v)
      (if threshold ≤ v then (minIndex + 1) % count else minIndex)

/-- `raiseLeftover` with its `checked_add(&T::one()).expect(..)`. -/
def raiseLeftoverChecked (bound count threshold : Nat) :
    Nat → List (Nat × Nat) → Nat → Option (List (Nat × Nat))
  | 0, out, _ => some out
  | leftover + 1, out, minIndex =>
    let v := valueAt out minIndex + 1
    if bound ≤ v then none
    else raiseLeftoverChecked bound count threshold leftover (setValue out minIndex v)
      (if threshold ≤ v then (minIndex + 1) % count else minIndex)

/-- `lowerRounds` with the overflow check of `leftover += remainder`. -/
def lowerRoundsChecked (bound count perRound threshold : Nat) :
    Nat → List (Nat × Nat) → Nat → Nat → Option (List (Nat × Nat) × Nat × Nat)
  | 0, out, maxIndex, leftover => some (out, maxIndex, leftover)
  | n + 1, out, maxIndex, leftover =>
    let v := valueAt out maxIndex
    let v' := v - perRound
    let maxIndex' := if v' ≤ threshold then prevIndex count maxIndex else maxIndex
    if perRound ≤ v then
      lowerRoundsChecked bound count perRound threshold n (setValue out maxIndex v') maxIndex' leftover
    -- `saturating_sub`, and the remainder goes into `leftover`
    else if bound ≤ leftover + (perRound - v) then none
    else lowerRoundsChecked bound count perRound threshold n (setValue out maxIndex v') maxIndex'
      (leftover + (perRound - v))

/-- `raise` with the checks of its two loops. -/
def raiseChecked (bound count targetedSum diff : Nat) (out : List (Nat × Nat)) :
    Option (List (Nat × Nat)) := do
  let perRound := diff / count
  let threshold := targetedSum / count
  let rounds ← if perRound = 0 then some (out, 0)
    else raiseRoundsChecked bound count perRound threshold count out 0
  raiseLeftoverChecked bound count threshold (diff % count) rounds.1 rounds.2

/-- `lower` with the `.first().expect(..)` that reads the threshold and the
checks of its first loop; the unit loop has to end within its fuel. -/
def lowerChecked (bound count diff : Nat) (out : List (Nat × Nat)) : Option (List (Nat × Nat)) := do
  let perRound := diff / count
  let first ← out.head?
  let threshold := first.2
  let rounds ← if perRound = 0 then some (out, count - 1, diff % count)
    else lowerRoundsChecked bound count perRound threshold count out (count - 1) (diff % count)
  let result := lowerLeftover count threshold (rounds.2.2 * count + count) rounds.1 rounds.2.1
    rounds.2.2
  if result.2 = 0 then some result.1 else none

/-- `normalize(input, targeted_sum)` as a debug build runs it: `none` is a
panic. -/
def normalizeChecked (bound : Nat) (input : List Nat) (targetedSum : Nat) :
    Option (Except String (List Nat)) :=
  match checkedSum bound 0 input with
  | none => some (.error "sum of input cannot fit in `T`")
  | some sum =>
    let count := input.length
    if bound ≤ count then some (.error "length of `inputs` cannot fit in `T`")
    else if count = 0 then some (.ok [])
    else
      let diff := max targetedSum sum - min targetedSum sum
      if diff = 0 then some (.ok input)
      else do
        let outputWithIdx := (input.zipIdx.map Prod.swap).insertionSort (fun a b => a.2 ≤ b.2)
        let out ← if sum < targetedSum then raiseChecked bound count targetedSum diff outputWithIdx
          else lowerChecked bound count diff outputWithIdx
        -- `debug_assert_eq!` on the fold `acc + *x`
        if checkedSum bound 0 (out.map Prod.snd) = some targetedSum then
          some (.ok ((out.insertionSort (fun a b => a.1 ≤ b.1)).map Prod.snd))
        else none

/-! ## No check fails -/

section Loops

variable {bound count : Nat}

theorem raiseRoundsChecked_eq (perRound threshold : Nat) (hc : 0 < count) :
    ∀ (n : Nat) (out : List (Nat × Nat)) (i : Nat), out.length = count → i < count →
      sumValues out + n * perRound < bound →
      raiseRoundsChecked bound count perRound threshold n out i =
        some (raiseRounds count perRound threshold n out i) := by
  intro n
  induction n with
  | zero => intro out i _ _ _; rfl
  | succ n ih =>
    intro out i hl hi hb
    have hi' : i < out.length := hl ▸ hi
    have hv := valueAt_le_sumValues hi'
    have hsum := sumValues_setValue hi' (valueAt out i + perRound)
    rw [Nat.succ_mul] at hb
    have hfit : ¬ bound ≤ valueAt out i + perRound := by omega
    simp only [raiseRoundsChecked, raiseRounds, hfit, if_false]
    exact ih _ _ (by simp [hl]) (raiseIndex_lt hc hi _) (by omega)

theorem raiseLeftoverChecked_eq (threshold : Nat) (hc : 0 < count) :
    ∀ (leftover : Nat) (out : List (Nat × Nat)) (i : Nat), out.length = count → i < count →
      sumValues out + leftover < bound →
      raiseLeftoverChecked bound count threshold leftover out i =
        some (raiseLeftover count threshold leftover out i) := by
  intro leftover
  induction leftover with
  | zero => intro out i _ _ _; rfl
  | succ leftover ih =>
    intro out i hl hi hb
    have hi' : i < out.length := hl ▸ hi
    have hv := valueAt_le_sumValues hi'
    have hsum := sumValues_setValue hi' (valueAt out i + 1)
    have hfit : ¬ bound ≤ valueAt out i + 1 := by omega
    simp only [raiseLeftoverChecked, raiseLeftover, hfit, if_false]
    exact ih _ _ (by simp [hl]) (raiseIndex_lt hc hi _) (by omega)

theorem lowerRoundsChecked_eq (perRound threshold : Nat) (hc : 0 < count) :
    ∀ (n : Nat) (out : List (Nat × Nat)) (i leftover : Nat), out.length = count → i < count →
      leftover + n * perRound ≤ sumValues out → sumValues out < bound →
      lowerRoundsChecked bound count perRound threshold n out i leftover =
        some (lowerRounds count perRound threshold n out i leftover) := by
  intro n
  induction n with
  | zero => intro out i leftover _ _ _ _; rfl
  | succ n ih =>
    intro out i leftover hl hi hinv hb
    have hi' : i < out.length := hl ▸ hi
    have hsum := sumValues_setValue hi' (valueAt out i - perRound)
    have hnext := lowerIndex_lt hc hi (valueAt out i - perRound ≤ threshold)
    rw [Nat.succ_mul] at hinv
    by_cases hp : perRound ≤ valueAt out i
    · -- `checked_sub` succeeds and the leftover is unchanged
      simp only [lowerRoundsChecked, lowerRounds, hp, if_true]
      exact ih _ _ _ (by simp [hl]) hnext (by omega) (by omega)
    · have hfit : ¬ bound ≤ leftover + (perRound - valueAt out i) := by omega
      simp only [lowerRoundsChecked, lowerRounds, hp, hfit, if_false]
      exact ih _ _ _ (by simp [hl]) hnext (by omega) (by omega)

theorem raiseChecked_eq {targetedSum diff : Nat} {out : List (Nat × Nat)} (hc : 0 < count)
    (hl : out.length = count) (hb : sumValues out + diff < bound) :
    raiseChecked bound count targetedSum diff out = some (raise count targetedSum diff out) := by
  have hdiff := Nat.div_add_mod diff count
  by_cases hp : diff / count = 0
  · rw [hp, Nat.mul_zero, Nat.zero_add] at hdiff
    simp only [raiseChecked, raise, hp, if_true, Option.bind_eq_bind, Option.bind_some]
    exact raiseLeftoverChecked_eq _ hc _ _ _ hl hc (by omega)
  · obtain ⟨h1, h2, h3⟩ := raiseRounds_spec (diff / count) (targetedSum / count) hc count out 0 hl hc
    have hrounds := @raiseRoundsChecked_eq bound count (diff / count) (targetedSum / count) hc
      count out 0 hl hc (by omega)
    simp only [raiseChecked, raise, hp, if_false, hrounds, Option.bind_eq_bind, Option.bind_some]
    exact raiseLeftoverChecked_eq _ hc _ _ _ h1 h2 (by omega)

theorem lowerChecked_eq {diff : Nat} {out : List (Nat × Nat)} (hc : 0 < count)
    (hl : out.length = count) (hdiff : diff ≤ sumValues out) (hb : sumValues out < bound) :
    lowerChecked bound count diff out = some (lower count diff out).1 := by
  obtain ⟨hend, -, -⟩ := lower_spec hc hl hdiff
  -- the vector is not empty, so `.first()` is its head
  obtain ⟨x, xs, rfl⟩ : ∃ x xs, out = x :: xs :=
    List.exists_cons_of_length_pos (by omega)
  have hdm := Nat.div_add_mod diff count
  by_cases hp : diff / count = 0
  · simp only [lower, hp, if_true, List.headD_cons] at hend
    simp only [lowerChecked, lower, hp, List.head?_cons, List.headD_cons, hend,
      Option.bind_eq_bind, Option.bind_some, ↓reduceIte]
  · have hrounds := @lowerRoundsChecked_eq bound count (diff / count) x.2 hc count (x :: xs)
      (count - 1) (diff % count) hl (by omega) (by omega) hb
    simp only [lower, hp, if_false, List.headD_cons] at hend
    simp only [lowerChecked, lower, hp, List.head?_cons, List.headD_cons, hrounds, hend,
      Option.bind_eq_bind, Option.bind_some, ↓reduceIte]

end Loops

theorem checkedSum_values {bound : Nat} {out : List (Nat × Nat)} (h : sumValues out < bound) :
    checkedSum bound 0 (out.map Prod.snd) = some (sumValues out) := by
  rw [checkedSum_eq bound _ 0 (by omega), Nat.zero_add]
  exact if_pos h

/-- For a `targeted_sum` of `T`, `normalize` panics nowhere: the debug build
returns what the exact model returns. -/
theorem normalizeChecked_eq {bound : Nat} (input : List Nat) {targetedSum : Nat}
    (ht : targetedSum < bound) :
    normalizeChecked bound input targetedSum = some (normalize bound input targetedSum) := by
  unfold normalizeChecked normalize
  cases hs : checkedSum bound 0 input with
  | none => rfl
  | some sum =>
    obtain ⟨hsum, hlt⟩ := checkedSum_eq_some hs
    rw [Nat.zero_add] at hsum
    subst hsum
    simp only
    split_ifs with hlen h0 hd hup
    · rfl
    · rfl
    · rfl
    all_goals
      have hne : input ≠ [] := fun h => h0 (by simp [h])
      have hb := hlt hne
      have hc : 0 < input.length := Nat.pos_of_ne_zero h0
      set w := (input.zipIdx.map Prod.swap).insertionSort (fun a b => a.2 ≤ b.2) with hw
      have hwl : w.length = input.length := by simp [hw]
      have hws : sumValues w = input.sum := sumValues_outputWithIdx input
    · -- the sum is short: the raising branch reaches the target
      have hraise := @raiseChecked_eq bound _ targetedSum
        (max targetedSum input.sum - min targetedSum input.sum) _ hc hwl (by omega)
      obtain ⟨-, h2⟩ := @raise_spec _ targetedSum
        (max targetedSum input.sum - min targetedSum input.sum) _ hc hwl
      have htarget : sumValues (raise input.length targetedSum
          (max targetedSum input.sum - min targetedSum input.sum) w) = targetedSum := by omega
      simp only [hraise, Option.bind_eq_bind, Option.bind_some, checkedSum_values (htarget ▸ ht),
        htarget, if_true]
    · -- the sum is over: the lowering branch reaches the target
      have hdiff : max targetedSum input.sum - min targetedSum input.sum ≤ sumValues w := by omega
      have hlower := @lowerChecked_eq bound _ _ _ hc hwl hdiff (by omega)
      obtain ⟨-, -, h2⟩ := lower_spec hc hwl hdiff
      have htarget : sumValues (lower input.length
          (max targetedSum input.sum - min targetedSum input.sum) w).1 = targetedSum := by omega
      simp only [hlower, Option.bind_eq_bind, Option.bind_some, checkedSum_values (htarget ▸ ht),
        htarget, if_true]


/-- `normalize` fails exactly when the sum of the input, or else its length,
is not a value of `T`, and the error says which. -/
theorem normalize_eq_error_iff {bound : Nat} (hb : 0 < bound) (input : List Nat)
    (targetedSum : Nat) (e : String) :
    normalize bound input targetedSum = .error e ↔
      (bound ≤ input.sum ∧ e = "sum of input cannot fit in `T`") ∨
        (input.sum < bound ∧ bound ≤ input.length ∧ e = "length of `inputs` cannot fit in `T`") := by
  have hchk := checkedSum_eq bound input 0 hb
  rw [Nat.zero_add] at hchk
  unfold normalize
  rw [hchk]
  by_cases hs : input.sum < bound
  · have hs' : ¬ bound ≤ input.sum := Nat.not_le.mpr hs
    simp only [hs, if_true]
    -- past the two checks every result is `Ok`
    split_ifs with hl <;> simp [hs', hl, eq_comm]
  · simp [hs, Nat.not_lt.mp hs, eq_comm]

/-! ## `Normalizable` for `Vec<P>` -/

namespace PerThing

/-- `Normalizable` for `Vec<P>`: the parts, as `UpperOf<P>` values (below
`upperBound`), normalized to the target's parts, then each saturated into
`P::Inner` (below `innerBound`) and rebuilt with `from_parts`. -/
def normalize {accuracy : Nat} (innerBound upperBound : Nat) (ps : List (PerThing accuracy))
    (targetedSum : PerThing accuracy) : Except String (List (PerThing accuracy)) := do
  let uppers := ps.map PerThing.parts
  let normalized ← SpArithmetic.normalize upperBound uppers targetedSum.parts
  pure (normalized.map fun i => fromParts (min i (innerBound - 1)))

/-- On non-empty parts whose sum and number fit in `UpperOf<P>`, the
per-things returned add up to the target. -/
theorem normalize_parts_sum {accuracy innerBound upperBound : Nat} (hacc : accuracy < innerBound)
    {ps : List (PerThing accuracy)} (t : PerThing accuracy)
    (hsum : (ps.map parts).sum < upperBound) (hlen : ps.length < upperBound) (hne : ps ≠ []) :
    ∃ qs, PerThing.normalize innerBound upperBound ps t = .ok qs ∧ qs.length = ps.length ∧
      (qs.map parts).sum = t.parts := by
  obtain ⟨out, hout, hl, hs⟩ := SpArithmetic.normalize_spec upperBound (ps.map parts) t.parts hsum
    (by simpa using hlen)
  have hsum' : out.sum = t.parts := hs (by simpa using hne)
  -- every value is at most the target's parts, so the saturation and `from_parts` keep it
  have hkeep : ∀ i ∈ out, (fromParts (min i (innerBound - 1)) : PerThing accuracy).parts = id i := by
    intro i hi
    have hle : i ≤ t.parts := hsum' ▸ List.le_sum_of_mem hi
    have := t.le_accuracy
    rw [fromParts_parts, id]
    omega
  have hmap : (out.map fun i => (fromParts (min i (innerBound - 1)) : PerThing accuracy)).map parts =
      out := by
    rw [List.map_map]
    conv_rhs => rw [← List.map_id out]
    exact List.map_congr_left hkeep
  refine ⟨out.map fun i => fromParts (min i (innerBound - 1)), ?_, by simp [hl], by rw [hmap, hsum']⟩
  simp [PerThing.normalize, hout]

end PerThing

theorem normalize_hits_target :
    (∀ (bound : Nat) (input : List Nat) (targetedSum : Nat), targetedSum < bound →
      normalizeChecked bound input targetedSum = some (normalize bound input targetedSum) ∧
      ((∃ e, normalize bound input targetedSum = .error e) ↔
        bound ≤ input.sum ∨ bound ≤ input.length) ∧
      (input.sum < bound → input.length < bound →
        ∃ ys, normalize bound input targetedSum = .ok ys ∧ ys.length = input.length ∧
          (input ≠ [] → ys.sum = targetedSum))) ∧
    (∀ (accuracy innerBound upperBound : Nat) (ps : List (PerThing accuracy))
      (t : PerThing accuracy), accuracy < innerBound → (ps.map PerThing.parts).sum < upperBound →
      ps.length < upperBound → ps ≠ [] →
      ∃ qs, PerThing.normalize innerBound upperBound ps t = .ok qs ∧
        (qs.map PerThing.parts).sum = t.parts) := by
  refine ⟨fun bound input targetedSum ht => ⟨normalizeChecked_eq input ht, ?_,
    normalize_spec bound input targetedSum⟩, ?_⟩
  · have hb : 0 < bound := by omega
    constructor
    · rintro ⟨e, he⟩
      rcases (normalize_eq_error_iff hb input targetedSum e).mp he with ⟨h, -⟩ | ⟨-, h, -⟩
      · exact .inl h
      · exact .inr h
    · intro h
      by_cases hs : bound ≤ input.sum
      · exact ⟨_, (normalize_eq_error_iff hb input targetedSum _).mpr (.inl ⟨hs, rfl⟩)⟩
      · exact ⟨_, (normalize_eq_error_iff hb input targetedSum _).mpr
          (.inr ⟨by omega, h.resolve_left hs, rfl⟩)⟩
  · intro accuracy innerBound upperBound ps t hacc hsum hlen hne
    obtain ⟨qs, hq, -, hs⟩ := PerThing.normalize_parts_sum hacc t hsum hlen hne
    exact ⟨qs, hq, hs⟩

theorem normalize_misses_target :
    normalize 256 [] 5 = .ok [] ∧
      PerThing.normalize 256 65536 (List.replicate 65536 (PerThing.zero : PerThing 100)) PerThing.one =
        .error "length of `inputs` cannot fit in `T`" := by
  refine ⟨by decide, ?_⟩
  -- zero parts add up to zero, but there are more of them than a `u16` counts
  have h : normalize 65536 ((List.replicate 65536 (PerThing.zero : PerThing 100)).map PerThing.parts)
      100 = .error "length of `inputs` cannot fit in `T`" :=
    (normalize_eq_error_iff (by norm_num) _ _ _).mpr (.inr ⟨by
      rw [List.map_replicate, List.sum_replicate, PerThing.zero_parts, nsmul_zero]; norm_num, by
      rw [List.length_map, List.length_replicate], rfl⟩)
  -- the inner error passes through the bind of `PerThing.normalize`
  exact congrArg (· >>= fun normalized : List Nat =>
    (pure (normalized.map fun i => PerThing.fromParts (min i (256 - 1))) : Except String (List (PerThing 100)))) h

theorem normalize_hits_target_percent :
    normalizeChecked 256 [8, 9, 7, 10] 40 = some (.ok [10, 10, 10, 10]) ∧
      ∃ qs, PerThing.normalize 256 65536 [(⟨30, by decide⟩ : PerThing 100), ⟨40, by decide⟩]
        ⟨100, by decide⟩ = .ok qs ∧ (qs.map PerThing.parts).sum = 100 := by
  refine ⟨?_, normalize_hits_target.2 100 256 65536 _ _ (by decide) (by decide) (by decide)
    (by simp)⟩
  rw [(normalize_hits_target.1 256 [8, 9, 7, 10] 40 (by decide)).1]
  decide

end SpArithmetic
