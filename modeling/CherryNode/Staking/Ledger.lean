import Mathlib

/-!
# pallet-staking: the staking ledger

A `StakingLedger` accounts for a stash's bonded funds: `active` is at stake,
and each `UnlockChunk` becomes free at its era.  `consolidate_unlocked` drops
the chunks whose era has come, `rebond` takes chunks back into `active`,
newest first, and `slash` takes from `active`, then from the chunks oldest
first.

`LedgerOk bound` is what a stored ledger keeps: `total` is `active` plus the
chunks, chunks are positive, their eras non-decreasing and at most `bound`,
and at most `MAX_UNLOCKING_CHUNKS`.  The three methods keep it.  `rebond`
takes `min(value, sum of the chunks)` from a suffix of the chunks
(`rebond_take`); `slash` reduces its parts in order (`SlashedParts`) and
reports between `min(value, total)` and that plus `minimum_balance` per part
reduced (`slash_parts`).  Balances are `Nat`: every subtraction is one the
code bounds.
-/

namespace PalletStaking

/-- `MAX_UNLOCKING_CHUNKS`. -/
def maxUnlockingChunks : Nat := 32

/-- `UnlockChunk`. -/
structure UnlockChunk where
  value : Nat
  era : Nat
  deriving DecidableEq, Repr

/-- `StakingLedger`; `claimed_rewards` are the eras whose rewards the stash has
claimed, read and written by `payout_stakers` only. -/
structure StakingLedger (Acc : Type) where
  stash : Acc
  total : Nat
  active : Nat
  unlocking : List UnlockChunk
  claimedRewards : List Nat
  deriving DecidableEq, Repr

variable {Acc : Type}

namespace StakingLedger

/-- `consolidate_unlocked`: the chunks of eras up to `current_era` leave, and
their values leave `total`, one `saturating_sub` each. -/
def consolidateUnlocked (l : StakingLedger Acc) (currentEra : Nat) : StakingLedger Acc :=
  let total := l.unlocking.foldl (fun total chunk => if chunk.era > currentEra then total else total - chunk.value)
    l.total
  { l with total, unlocking := l.unlocking.filter fun chunk => chunk.era > currentEra }

/-- The `while let Some(last)` loop of `rebond`, over the chunks newest first:
the active balance, the amount rebonded so far, and the chunks left. -/
def rebondLoop (value : Nat) : Nat → Nat → List UnlockChunk → Nat × Nat × List UnlockChunk
  | active, unlockingBalance, [] => (active, unlockingBalance, [])
  | active, unlockingBalance, last :: rest =>
    if unlockingBalance + last.value ≤ value then
      -- the chunk is popped; the loop goes on while less than `value` is rebonded
      if unlockingBalance + last.value ≥ value then (active + last.value, unlockingBalance + last.value, rest)
      else rebondLoop value (active + last.value) (unlockingBalance + last.value) rest
    else
      -- part of the chunk is rebonded: `unlocking_balance` reaches `value` and the loop breaks
      let diff := value - unlockingBalance
      (active + diff, unlockingBalance + diff, { last with value := last.value - diff } :: rest)

/-- `rebond`: the ledger and the amount rebonded. -/
def rebond (l : StakingLedger Acc) (value : Nat) : StakingLedger Acc × Nat :=
  let (active, unlockingBalance, rest) := rebondLoop value l.active 0 l.unlocking.reverse
  ({ l with active, unlocking := rest.reverse }, unlockingBalance)

/-- `slash_out_of`: at most `value` is slashed from `target`, and a remainder
at or under `minimum_balance` goes with it.  The total, the target and the
value still to slash. -/
def slashOutOf (minimumBalance total target value : Nat) : Nat × Nat × Nat :=
  let slashFromTarget := min value target
  if slashFromTarget ≠ 0 then
    let target := target - slashFromTarget
    if target ≤ minimumBalance then
      -- the dust is slashed too, and added to `value` before `slash_from_target` leaves it
      (total - (slashFromTarget + target), 0, value + target - (slashFromTarget + target))
    else (total - slashFromTarget, target, value - slashFromTarget)
  else (total, target, value)

/-- The lazy `map` and `take_while(is_zero)` of `slash` over the chunks: each
chunk is slashed in turn until one is left non-zero, which is slashed too;
the chunks after it are not visited.  The total, the value left, the chunks,
and the `count` of zeroed ones in front. -/
def slashChunks (minimumBalance : Nat) : Nat → Nat → List UnlockChunk → Nat × Nat × List UnlockChunk × Nat
  | total, value, [] => (total, value, [], 0)
  | total, value, chunk :: rest =>
    let (total, v, value) := slashOutOf minimumBalance total chunk.value value
    if v = 0 then
      let (total, value, rest, count) := slashChunks minimumBalance total value rest
      (total, value, { chunk with value := v } :: rest, count + 1)
    else (total, value, { chunk with value := v } :: rest, 0)

/-- `slash`: the ledger, with the zeroed chunks in front drained, and the
amount slashed. -/
def slash (l : StakingLedger Acc) (value minimumBalance : Nat) : StakingLedger Acc × Nat :=
  let (total, active, value) := slashOutOf minimumBalance l.total l.active value
  let (total, _, unlocking, i) := slashChunks minimumBalance total value l.unlocking
  ({ l with total, active, unlocking := unlocking.drop i }, l.total - total)

end StakingLedger

/-- The sum of the chunks' values. -/
def chunkSum (chunks : List UnlockChunk) : Nat := (chunks.map (·.value)).sum

@[simp] theorem chunkSum_nil : chunkSum [] = 0 := rfl

@[simp] theorem chunkSum_cons (c : UnlockChunk) (l : List UnlockChunk) :
    chunkSum (c :: l) = c.value + chunkSum l := by
  simp [chunkSum]

@[simp] theorem chunkSum_append (l₁ l₂ : List UnlockChunk) : chunkSum (l₁ ++ l₂) = chunkSum l₁ + chunkSum l₂ := by
  simp [chunkSum]

@[simp] theorem chunkSum_reverse (l : List UnlockChunk) : chunkSum l.reverse = chunkSum l := by
  simp [chunkSum]

/-- The parts `ps` after a slash has left them as `qs`: no part grows, a
reduced part is emptied or left above `minimumBalance`, and after a part left
non-empty every part is as it was. -/
def SlashedParts (minimumBalance : Nat) : List Nat → List Nat → Prop
  | [], [] => True
  | p :: ps, q :: qs =>
    q ≤ p ∧ (q < p → q = 0 ∨ minimumBalance < q) ∧ (q ≠ 0 → qs = ps) ∧ SlashedParts minimumBalance ps qs
  | _, _ => False

/-- The number of parts `qs` leaves below `ps`. -/
def reducedCount : List Nat → List Nat → Nat
  | p :: ps, q :: qs => (if q < p then 1 else 0) + reducedCount ps qs
  | _, _ => 0

theorem slashedParts_refl (minimumBalance : Nat) : ∀ ps : List Nat, SlashedParts minimumBalance ps ps
  | [] => trivial
  | p :: ps => ⟨Nat.le_refl p, fun h => absurd h (Nat.lt_irrefl p), fun _ => rfl, slashedParts_refl minimumBalance ps⟩

@[simp] theorem reducedCount_self : ∀ ps : List Nat, reducedCount ps ps = 0
  | [] => rfl
  | p :: ps => by simp [reducedCount, reducedCount_self ps]

/-- What a stored ledger keeps, with `bound` the era of a chunk unbonded now. -/
structure LedgerOk (bound : Nat) (l : StakingLedger Acc) : Prop where
  total_eq : l.total = l.active + chunkSum l.unlocking
  value_pos : ∀ c ∈ l.unlocking, 0 < c.value
  eras_sorted : l.unlocking.Pairwise fun a b => a.era ≤ b.era
  length_le : l.unlocking.length ≤ maxUnlockingChunks
  era_le : ∀ c ∈ l.unlocking, c.era ≤ bound

namespace LedgerOk

variable {b : Nat} {l l' : StakingLedger Acc}

theorem mono (h : LedgerOk b l) {b' : Nat} (hb : b ≤ b') : LedgerOk b' l :=
  { h with era_le := fun c hc => Nat.le_trans (h.era_le c hc) hb }

/-- **Chunks taken away.**  A ledger whose chunk eras are a sublist of a good
ledger's, whose chunks are positive and whose `total` is exact, is good. -/
theorem of_eras_sublist (h : LedgerOk b l)
    (heras : (l'.unlocking.map (·.era)).Sublist (l.unlocking.map (·.era)))
    (htotal : l'.total = l'.active + chunkSum l'.unlocking) (hpos : ∀ c ∈ l'.unlocking, 0 < c.value) :
    LedgerOk b l' where
  total_eq := htotal
  value_pos := hpos
  eras_sorted := by
    have hsorted : (l.unlocking.map (·.era)).Pairwise (· ≤ ·) := List.pairwise_map.mpr h.eras_sorted
    exact List.pairwise_map.mp (hsorted.sublist heras)
  length_le := by
    have hlen := heras.length_le
    simp only [List.length_map] at hlen
    exact Nat.le_trans hlen h.length_le
  era_le := by
    intro c hc
    obtain ⟨c', hc', heq⟩ := List.mem_map.mp (heras.subset (List.mem_map_of_mem (f := (·.era)) hc))
    exact heq ▸ h.era_le c' hc'

end LedgerOk

namespace StakingLedger

variable {b : Nat}

/-! ### `consolidate_unlocked` -/

theorem foldl_consolidate (currentEra : Nat) :
    ∀ (chunks : List UnlockChunk) (total : Nat),
      chunks.foldl (fun total chunk => if chunk.era > currentEra then total else total - chunk.value) total =
        total - chunkSum (chunks.filter fun chunk => !decide (chunk.era > currentEra))
  | [], total => by simp
  | chunk :: rest, total => by
    rw [List.foldl_cons, foldl_consolidate currentEra rest]
    by_cases hera : chunk.era > currentEra
    · simp [hera]
    · simp only [hera, List.filter_cons, decide_false, Bool.not_false, ↓reduceIte, chunkSum_cons]
      omega

theorem consolidateUnlocked_ok {l : StakingLedger Acc} (h : LedgerOk b l) (currentEra : Nat) :
    LedgerOk b (l.consolidateUnlocked currentEra) := by
  refine h.of_eras_sublist (List.filter_sublist.map _) ?_ fun c hc => h.value_pos c (List.mem_of_mem_filter hc)
  have hsplit := List.sum_map_filter_add_sum_map_filter_not (fun chunk : UnlockChunk => chunk.era > currentEra)
    (·.value) l.unlocking
  simp only [consolidateUnlocked, foldl_consolidate, h.total_eq, chunkSum, decide_not] at hsplit ⊢
  omega

/-! ### `rebond` -/

/-- **Loop invariant of `rebond`.**  What the loop rebonds moves from the
chunks to `active`; the chunks left are the newest dropped, the one it stops
in reduced but positive. -/
theorem rebondLoop_spec (value : Nat) :
    ∀ (active unlockingBalance : Nat) (chunks : List UnlockChunk), (∀ c ∈ chunks, 0 < c.value) →
      let r := rebondLoop value active unlockingBalance chunks
      r.1 + chunkSum r.2.2 = active + chunkSum chunks ∧ (r.2.2.map (·.era)).Sublist (chunks.map (·.era)) ∧
        ∀ c ∈ r.2.2, 0 < c.value
  | active, unlockingBalance, [], _ => by simp [rebondLoop]
  | active, unlockingBalance, last :: rest, hpos => by
    have hrest : ∀ c ∈ rest, 0 < c.value := fun c hc => hpos c (List.mem_cons_of_mem _ hc)
    have hlast : 0 < last.value := hpos last List.mem_cons_self
    unfold rebondLoop
    split_ifs with hfit hdone
    · -- popped, and the loop breaks
      refine ⟨by simp; omega, ?_, hrest⟩
      simp only [List.map_cons]
      exact List.sublist_cons_self _ _
    · -- popped, and the loop goes on
      obtain ⟨hsum, heras, hpos'⟩ := rebondLoop_spec value (active + last.value) (unlockingBalance + last.value) rest
        hrest
      refine ⟨by simp only [chunkSum_cons] at hsum ⊢; omega, heras.trans ?_, hpos'⟩
      simp only [List.map_cons]
      exact List.sublist_cons_self _ _
    · -- the last chunk is reduced by what is still missing
      refine ⟨by simp; omega, by simp, ?_⟩
      intro c hc
      rcases List.mem_cons.mp hc with rfl | hc
      · simp only; omega
      · exact hrest c hc

variable {l : StakingLedger Acc} {minimumBalance total target value total' target' value' : Nat}

theorem rebond_ok (h : LedgerOk b l) (value : Nat) : LedgerOk b (l.rebond value).1 := by
  have hpos : ∀ c ∈ l.unlocking.reverse, 0 < c.value := fun c hc => h.value_pos c (List.mem_reverse.mp hc)
  have hspec := rebondLoop_spec value l.active 0 l.unlocking.reverse hpos
  rcases hr : rebondLoop value l.active 0 l.unlocking.reverse with ⟨active', rebonded, rest⟩
  rw [hr] at hspec
  obtain ⟨hsum, heras, hpos'⟩ := hspec
  simp only [rebond, hr]
  refine h.of_eras_sublist ?_ ?_ ?_
  · simpa [List.map_reverse] using heras.reverse
  · simp only [chunkSum_reverse] at hsum ⊢
    rw [h.total_eq]
    omega
  · simpa using hpos'

/-! ### What `rebond` and `slash` take -/

/-- **What the `rebond` loop takes.**  Over the chunks newest first, the loop
rebonds what is missing to `value`, at most what the chunks hold: a prefix of
them is popped, and the chunk after it is reduced or left. -/
theorem rebondLoop_take (value : Nat) :
    ∀ (active unlockingBalance : Nat) (chunks : List UnlockChunk), unlockingBalance ≤ value →
      (∀ c ∈ chunks, 0 < c.value) →
      let r := rebondLoop value active unlockingBalance chunks
      r.2.1 = unlockingBalance + min (value - unlockingBalance) (chunkSum chunks) ∧
        r.1 = active + (r.2.1 - unlockingBalance) ∧
        chunkSum r.2.2 + (r.2.1 - unlockingBalance) = chunkSum chunks ∧
        ∃ popped rest, chunks = popped ++ rest ∧ (r.2.2 = rest ∨
          ∃ c cs v, rest = c :: cs ∧ 0 < v ∧ v < c.value ∧ r.2.2 = { c with value := v } :: cs)
  | active, unlockingBalance, [], _, _ =>
    ⟨by simp [rebondLoop], by simp [rebondLoop], by simp [rebondLoop], [], [], rfl, .inl rfl⟩
  | active, unlockingBalance, last :: rest, hub, hpos => by
    have hrest : ∀ c ∈ rest, 0 < c.value := fun c hc => hpos c (List.mem_cons_of_mem _ hc)
    unfold rebondLoop
    split_ifs with hfit hdone
    · -- the chunk is popped and `value` is reached
      refine ⟨by simp only [chunkSum_cons]; omega, by simp, by simp only [chunkSum_cons]; omega, [last], rest, rfl,
        .inl rfl⟩
    · -- the chunk is popped and the loop goes on
      obtain ⟨h1, h2, hsum, popped, rest', hsplit, hrest'⟩ :=
        rebondLoop_take value (active + last.value) (unlockingBalance + last.value) rest (by omega) hrest
      refine ⟨by simp only [chunkSum_cons] at h1 ⊢; omega, by omega, by simp only [chunkSum_cons]; omega,
        last :: popped, rest', ?_, hrest'⟩
      rw [hsplit, List.cons_append]
    · -- the chunk holds more than is missing: it gives the difference and the loop stops
      refine ⟨by simp only [chunkSum_cons]; omega, by dsimp only; omega, by simp only [chunkSum_cons]; omega,
        [], last :: rest, rfl, ?_⟩
      by_cases hdiff : value - unlockingBalance = 0
      · left
        simp only [hdiff, Nat.sub_zero]
      · exact .inr ⟨last, rest, last.value - (value - unlockingBalance), rfl, by omega, by omega, rfl⟩

/-- `rebond(value)` takes `min(value, sum of the chunks)` back into `active`,
from the newest chunks: the chunks left are a prefix of the old ones, the last
of them possibly reduced. -/
theorem rebond_take (hpos : ∀ c ∈ l.unlocking, 0 < c.value) (value : Nat) :
    (l.rebond value).2 = min value (chunkSum l.unlocking) ∧
      (l.rebond value).1.active = l.active + (l.rebond value).2 ∧
      (l.rebond value).1.total = l.total ∧
      chunkSum (l.rebond value).1.unlocking + (l.rebond value).2 = chunkSum l.unlocking ∧
      ∃ pre suf, l.unlocking = pre ++ suf ∧ ((l.rebond value).1.unlocking = pre ∨
        ∃ c cs v, suf = c :: cs ∧ 0 < v ∧ v < c.value ∧
          (l.rebond value).1.unlocking = pre ++ [{ c with value := v }]) := by
  have hpos' : ∀ c ∈ l.unlocking.reverse, 0 < c.value := fun c hc => hpos c (List.mem_reverse.mp hc)
  obtain ⟨h1, h2, hsum, popped, rest, hsplit, hrest⟩ :=
    rebondLoop_take value l.active 0 l.unlocking.reverse (Nat.zero_le _) hpos'
  rcases hr : rebondLoop value l.active 0 l.unlocking.reverse with ⟨active', rebonded, rest'⟩
  rw [hr] at h1 h2 hsum hrest
  simp only [rebond, hr, chunkSum_reverse] at h1 h2 hsum ⊢
  refine ⟨by omega, by omega, trivial, by omega, ?_⟩
  -- the chunks newest first are `popped ++ rest`; oldest first, `rest.reverse ++ popped.reverse`
  have hunl : l.unlocking = rest.reverse ++ popped.reverse := by
    rw [← List.reverse_append, ← hsplit, List.reverse_reverse]
  rcases hrest with rfl | ⟨c, cs, v, rfl, hv, hvc, rfl⟩
  · exact ⟨rest'.reverse, popped.reverse, hunl, .inl rfl⟩
  · refine ⟨cs.reverse, c :: popped.reverse, ?_, .inr ⟨c, popped.reverse, v, rfl, hv, hvc, ?_⟩⟩
    · rw [hunl, List.reverse_cons, List.append_assoc, List.singleton_append]
    · rw [List.reverse_cons]

/-! ### `slash` -/

theorem slashOutOf_total (h : target ≤ total)
    (hs : slashOutOf minimumBalance total target value = (total', target', value')) :
    total' + target = total + target' ∧ target' ≤ target := by
  simp only [slashOutOf] at hs
  split_ifs at hs <;> cases hs <;> omega

/-- **Loop invariant of the chunk slashing.**  What leaves the chunks leaves
the total exactly; the eras stay; the chunks counted are zero and, of
positive chunks, the rest stay positive. -/
theorem slashChunks_spec (minimumBalance : Nat) :
    ∀ (total value : Nat) (chunks : List UnlockChunk), chunkSum chunks ≤ total →
      ∀ {total' value' : Nat} {chunks' : List UnlockChunk} {count : Nat},
      slashChunks minimumBalance total value chunks = (total', value', chunks', count) →
      total' + chunkSum chunks = total + chunkSum chunks' ∧ chunks'.map (·.era) = chunks.map (·.era) ∧
        (∀ c ∈ chunks'.take count, c.value = 0) ∧
        ((∀ c ∈ chunks, 0 < c.value) → ∀ c ∈ chunks'.drop count, 0 < c.value)
  | total, value, [], _, _, _, _, _, hr => by
    simp only [slashChunks, Prod.mk.injEq] at hr
    obtain ⟨rfl, rfl, rfl, rfl⟩ := hr
    simp
  | total, value, chunk :: rest, hle, _, _, _, _, hr => by
    have hchunk : chunk.value ≤ total := by simp at hle; omega
    rcases hs : slashOutOf minimumBalance total chunk.value value with ⟨total₁, v, value₁⟩
    obtain ⟨htotal, -⟩ := slashOutOf_total hchunk hs
    simp only [slashChunks, hs] at hr
    split_ifs at hr with hzero
    · -- a zeroed chunk: the slashing goes on to the next one
      subst hzero
      rcases hrest : slashChunks minimumBalance total₁ value₁ rest with ⟨total₂, value₂, rest₂, count₂⟩
      rw [hrest] at hr
      simp only [Prod.mk.injEq] at hr
      obtain ⟨rfl, rfl, rfl, rfl⟩ := hr
      obtain ⟨hsum, heras, hzeros, hpos⟩ := slashChunks_spec minimumBalance _ _ rest (by simp at hle; omega) hrest
      refine ⟨by simp only [chunkSum_cons] at hsum ⊢; omega, by simp [heras], ?_, ?_⟩
      · intro c hc
        rcases List.mem_cons.mp hc with rfl | hc
        · rfl
        · exact hzeros c hc
      · intro hpos' c hc
        exact hpos (fun c hc => hpos' c (List.mem_cons_of_mem _ hc)) c hc
    · -- a chunk left non-zero: the chunks after it are not visited
      simp only [Prod.mk.injEq] at hr
      obtain ⟨rfl, rfl, rfl, rfl⟩ := hr
      refine ⟨by simp only [chunkSum_cons]; omega, by simp, by simp, ?_⟩
      intro hpos' c hc
      rcases List.mem_cons.mp hc with rfl | hc
      · exact Nat.pos_of_ne_zero hzero
      · exact hpos' c (List.mem_cons_of_mem _ hc)

/-- Everything one `slash_out_of` does: it takes `min(value, target)` of
`value` from the target, and a remainder at or under `minimum_balance` on top
without taking it from `value`; a target it leaves non-empty has used `value`
up. -/
theorem slashOutOf_spec
    (h : target ≤ total) (hs : slashOutOf minimumBalance total target value = (total', target', value')) :
    total' + target = total + target' ∧ target' ≤ target ∧
      (target' < target → target' = 0 ∨ minimumBalance < target') ∧
      value' = value - min value target ∧ (target' ≠ 0 → value' = 0) ∧
      min value target ≤ target - target' ∧
      target - target' ≤ min value target + (if target' < target then minimumBalance else 0) := by
  simp only [slashOutOf] at hs
  split_ifs at hs <;> cases hs <;> split_ifs <;> omega

/-- With nothing left to slash, the chunk loop stops at the first chunk. -/
theorem slashChunks_zero (minimumBalance total : Nat) :
    ∀ chunks : List UnlockChunk, (∀ c ∈ chunks, 0 < c.value) →
      slashChunks minimumBalance total 0 chunks = (total, 0, chunks, 0)
  | [], _ => rfl
  | c :: cs, hpos => by
    have hc : c.value ≠ 0 := Nat.ne_of_gt (hpos c List.mem_cons_self)
    simp [slashChunks, slashOutOf, hc]

/-- **What the chunk loop takes.**  Of positive chunks, it takes what is left of
`value` from the oldest first, plus at most `minimum_balance` of dust from each
chunk it reduces, and drains exactly the chunks it emptied. -/
theorem slashChunks_parts (minimumBalance : Nat) :
    ∀ (total value : Nat) (chunks : List UnlockChunk), chunkSum chunks ≤ total → (∀ c ∈ chunks, 0 < c.value) →
      ∀ {total' value' : Nat} {chunks' : List UnlockChunk} {count : Nat},
      slashChunks minimumBalance total value chunks = (total', value', chunks', count) →
      SlashedParts minimumBalance (chunks.map (·.value)) (chunks'.map (·.value)) ∧
        chunks'.drop count = chunks'.dropWhile (·.value == 0) ∧
        value' + min value (chunkSum chunks) = value ∧
        min value (chunkSum chunks) ≤ chunkSum chunks - chunkSum chunks' ∧
        chunkSum chunks - chunkSum chunks' ≤ min value (chunkSum chunks) +
          reducedCount (chunks.map (·.value)) (chunks'.map (·.value)) * minimumBalance ∧
        chunkSum chunks' ≤ chunkSum chunks
  | total, value, [], _, _, _, _, _, _, hr => by
    simp only [slashChunks, Prod.mk.injEq] at hr
    obtain ⟨rfl, rfl, rfl, rfl⟩ := hr
    simp [SlashedParts]
  | total, value, chunk :: rest, hle, hpos, _, _, _, _, hr => by
    have hchunk : chunk.value ≤ total := by simp at hle; omega
    have hrest : ∀ c ∈ rest, 0 < c.value := fun c hc => hpos c (List.mem_cons_of_mem _ hc)
    have hp : 0 < chunk.value := hpos chunk List.mem_cons_self
    rcases hs : slashOutOf minimumBalance total chunk.value value with ⟨total₁, v, value₁⟩
    obtain ⟨htot, hvle, hdust, hval, hleft, hlow, hup⟩ := slashOutOf_spec hchunk hs
    simp only [slashChunks, hs] at hr
    split_ifs at hr with hzero
    · -- emptied: the slashing goes on to the next chunk
      subst hzero
      rcases hrest' : slashChunks minimumBalance total₁ value₁ rest with ⟨total₂, value₂, rest₂, count₂⟩
      rw [hrest'] at hr
      simp only [Prod.mk.injEq] at hr
      obtain ⟨rfl, rfl, rfl, rfl⟩ := hr
      obtain ⟨hparts, hdrop, hval₂, hlow₂, hup₂, hle₂⟩ :=
        slashChunks_parts minimumBalance total₁ value₁ rest (by simp at hle; omega) hrest hrest'
      rw [if_pos hp] at hup
      simp only [List.map_cons, chunkSum_cons, reducedCount, if_pos hp, Nat.add_mul, Nat.one_mul]
      refine ⟨⟨Nat.zero_le _, fun _ => .inl rfl, fun h => absurd rfl h, hparts⟩, by simp [hdrop], by omega,
        by omega, by omega, by omega⟩
    · -- left non-empty: `value` is used up and the chunks after it are not visited
      simp only [Prod.mk.injEq] at hr
      obtain ⟨rfl, rfl, rfl, rfl⟩ := hr
      simp only [List.map_cons, chunkSum_cons, reducedCount, reducedCount_self, Nat.add_zero]
      refine ⟨⟨hvle, hdust, fun _ => rfl, slashedParts_refl _ _⟩, by simp [hzero], by omega, by omega, ?_, by omega⟩
      split_ifs at hup ⊢ <;> omega

/-- `slash(value, minimum_balance)` over the parts `active`, then the chunks
oldest first: what it reports is what left `total`, at least
`min(value, total)` and at most that plus `minimum_balance` for each part it
reduced, and the chunks it drained are the leading ones it emptied. -/
theorem slash_parts (htotal : l.total = l.active + chunkSum l.unlocking)
    (hpos : ∀ c ∈ l.unlocking, 0 < c.value) (value minimumBalance : Nat) :
    ∃ (active' : Nat) (chunks' : List UnlockChunk),
      SlashedParts minimumBalance (l.active :: l.unlocking.map (·.value)) (active' :: chunks'.map (·.value)) ∧
      chunks'.map (·.era) = l.unlocking.map (·.era) ∧
      (l.slash value minimumBalance).1.active = active' ∧
      (l.slash value minimumBalance).1.unlocking = chunks'.dropWhile (·.value == 0) ∧
      (l.slash value minimumBalance).2 = l.total - (l.slash value minimumBalance).1.total ∧
      min value l.total ≤ (l.slash value minimumBalance).2 ∧
      (l.slash value minimumBalance).2 ≤ min value l.total +
        reducedCount (l.active :: l.unlocking.map (·.value)) (active' :: chunks'.map (·.value)) *
          minimumBalance := by
  have hactive : l.active ≤ l.total := by omega
  rcases hs : slashOutOf minimumBalance l.total l.active value with ⟨total₁, active₁, value₁⟩
  obtain ⟨htot, hle, hdust, hval, hleft, hlow, hup⟩ := slashOutOf_spec hactive hs
  rcases hc : slashChunks minimumBalance total₁ value₁ l.unlocking with ⟨total₂, value₂, chunks, count⟩
  obtain ⟨hsum, heras, -, -⟩ := slashChunks_spec minimumBalance total₁ value₁ l.unlocking (by omega) hc
  obtain ⟨hparts, hdrop, hval₂, hlow₂, hup₂, hle₂⟩ :=
    slashChunks_parts minimumBalance total₁ value₁ l.unlocking (by omega) hpos hc
  -- `active` left non-empty: nothing is left to slash, and the chunks are as they were
  have hkeep : active₁ ≠ 0 → chunks.map (·.value) = l.unlocking.map (·.value) := by
    intro hne
    rw [hleft hne, slashChunks_zero minimumBalance total₁ l.unlocking hpos] at hc
    simp only [Prod.mk.injEq] at hc
    rw [hc.2.2.1]
  refine ⟨active₁, chunks, ⟨hle, hdust, hkeep, hparts⟩, heras, by simp [slash, hs, hc],
    by simp [slash, hs, hc, hdrop], rfl, ?_, ?_⟩
  · simp only [slash, hs, hc]
    omega
  · simp only [slash, hs, hc, reducedCount, Nat.add_mul]
    split_ifs at hup ⊢ <;> omega

theorem slash_ok (h : LedgerOk b l) (value minimumBalance : Nat) : LedgerOk b (l.slash value minimumBalance).1 := by
  have hactive : l.active ≤ l.total := by rw [h.total_eq]; omega
  rcases hs : slashOutOf minimumBalance l.total l.active value with ⟨total₁, active₁, value₁⟩
  obtain ⟨htotal, -⟩ := slashOutOf_total hactive hs
  rcases hc : slashChunks minimumBalance total₁ value₁ l.unlocking with ⟨total₂, value₂, chunks, count⟩
  obtain ⟨hsum, heras, hzeros, hpos⟩ :=
    slashChunks_spec minimumBalance total₁ value₁ l.unlocking (by rw [h.total_eq] at htotal; omega) hc
  -- the drained chunks are zero, so the chunks kept carry the whole sum
  have hdrained : chunkSum chunks = chunkSum (chunks.drop count) := by
    have hsplit := List.sum_take_add_sum_drop (chunks.map (·.value)) count
    have hzero : ((chunks.map (·.value)).take count).sum = 0 := by
      rw [← List.map_take, List.sum_eq_zero]
      intro x hx
      obtain ⟨c, hc, rfl⟩ := List.mem_map.mp hx
      exact hzeros c hc
    simp only [chunkSum, List.map_drop] at hsplit ⊢
    omega
  simp only [slash, hs, hc]
  refine h.of_eras_sublist ?_ ?_ (hpos h.value_pos)
  · rw [List.map_drop, heras]
    exact List.drop_sublist _ _
  · rw [h.total_eq] at htotal
    simp only
    omega

theorem rebond_slash_exact {l : StakingLedger Acc} (htotal : l.total = l.active + chunkSum l.unlocking)
    (hpos : ∀ c ∈ l.unlocking, 0 < c.value) (value minimumBalance : Nat) :
    ((l.rebond value).2 = min value (chunkSum l.unlocking) ∧
      (l.rebond value).1.active = l.active + (l.rebond value).2 ∧
      (l.rebond value).1.total = l.total ∧
      chunkSum (l.rebond value).1.unlocking + (l.rebond value).2 = chunkSum l.unlocking ∧
      ∃ pre suf, l.unlocking = pre ++ suf ∧ ((l.rebond value).1.unlocking = pre ∨
        ∃ c cs v, suf = c :: cs ∧ 0 < v ∧ v < c.value ∧
          (l.rebond value).1.unlocking = pre ++ [{ c with value := v }])) ∧
    ∃ (active' : Nat) (chunks' : List UnlockChunk),
      SlashedParts minimumBalance (l.active :: l.unlocking.map (·.value)) (active' :: chunks'.map (·.value)) ∧
      chunks'.map (·.era) = l.unlocking.map (·.era) ∧
      (l.slash value minimumBalance).1.active = active' ∧
      (l.slash value minimumBalance).1.unlocking = chunks'.dropWhile (·.value == 0) ∧
      (l.slash value minimumBalance).2 = l.total - (l.slash value minimumBalance).1.total ∧
      min value l.total ≤ (l.slash value minimumBalance).2 ∧
      (l.slash value minimumBalance).2 ≤ min value l.total +
        reducedCount (l.active :: l.unlocking.map (·.value)) (active' :: chunks'.map (·.value)) *
          minimumBalance :=
  ⟨rebond_take hpos value, slash_parts htotal hpos value minimumBalance⟩

theorem rebond_slash_exact_two_chunks :
    ((⟨0, 30, 10, [⟨10, 1⟩, ⟨10, 2⟩], []⟩ : StakingLedger Nat).rebond 15).2 = 15 ∧
      min 15 30 ≤ ((⟨0, 30, 10, [⟨10, 1⟩, ⟨10, 2⟩], []⟩ : StakingLedger Nat).slash 15 3).2 := by
  obtain ⟨⟨hr, -⟩, -, -, -, -, -, -, -, hmin, -⟩ :=
    rebond_slash_exact (l := (⟨0, 30, 10, [⟨10, 1⟩, ⟨10, 2⟩], []⟩ : StakingLedger Nat)) (by decide) (by decide) 15 3
  exact ⟨hr, hmin⟩

end StakingLedger

end PalletStaking
