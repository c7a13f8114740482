import Mathlib
import CherryNode.TxPool.Ready

/-!
# The dependency links of the ready queue

The `unlocks` lists are the dependency graph's back-links: a ready transaction
lists those waiting for one of its tags, and `BestIterator` releases a
transaction once as many of its dependencies as it requires were yielded.  Two
runs of admissible operations show what the links do not keep: after
`remove_subtree` of a dependent its provider still lists it
(`removeSubtree_keeps_stale_unlock`), because the shadowed `hash` of
`remove_subtree_with_tag_filter` removes the provider's own hash; and when the
dependent is imported again each provider lists it twice, so `get()` yields it
before a provider and then again (`get_yields_dependent_twice`).
-/

namespace TxPool

variable {Hash Tag : Type} [LinearOrder Hash] [LinearOrder Tag]

/-- The back-links are exact: the `unlocks` of a ready transaction list, once
each, the ready transactions that require a tag `provided_tags` maps to it. -/
def UnlocksExact (q : ReadyTransactions Hash Tag) : Prop :=
  ∀ h r, q.ready.get? h = some r → r.unlocks.Nodup ∧
    ∀ h', h' ∈ r.unlocks ↔
      ∃ r', q.ready.get? h' = some r' ∧ ∃ t ∈ r'.transaction.transaction.requires, q.providedTags.get? t = some h

/-- Import `1`, providing tag `10`; import `2`, requiring it; remove `2`. -/
def staleUnlockRun : List (ReadyOp Nat Nat) :=
  [.import ⟨1, 1, 1, 64, [], [10]⟩, .import ⟨1, 2, 1, 64, [10], []⟩, .removeSubtree [2]]

/-- The queue `staleUnlockRun` ends in. -/
def staleUnlockQueue : ReadyTransactions Nat Nat :=
  (staleUnlockRun.foldlM ReadyTransactions.step .default).getD .default

theorem removeSubtree_keeps_stale_unlock :
    staleUnlockRun.foldlM ReadyTransactions.step .default = some staleUnlockQueue ∧
      ReadyReachable staleUnlockQueue ∧
      (staleUnlockQueue.ready.get? 1).map ReadyTx.unlocks = some [2] ∧ staleUnlockQueue.ready.get? 2 = none ∧
      ¬ UnlocksExact staleUnlockQueue := by
  have hrun : staleUnlockRun.foldlM ReadyTransactions.step .default = some staleUnlockQueue := rfl
  have hone : (staleUnlockQueue.ready.get? 1).map ReadyTx.unlocks = some [2] := by decide
  have htwo : staleUnlockQueue.ready.get? 2 = none := by decide
  refine ⟨hrun, ReadyReachable.foldlM (by decide) .default hrun, hone, htwo, fun h => ?_⟩
  obtain ⟨r, hr, hunlocks⟩ := Option.map_eq_some_iff.mp hone
  obtain ⟨r', hr', -⟩ := ((h 1 r hr).2 2).mp (by simp [hunlocks])
  rw [htwo] at hr'
  cases hr'

/-- Import `1` and `3`, providing tags `10` and `20`; import `2`, requiring
both; remove `2`; import `2` again. -/
def dependentTwiceRun : List (ReadyOp Nat Nat) :=
  [.import ⟨1, 1, 1, 64, [], [10]⟩, .import ⟨1, 3, 1, 64, [], [20]⟩, .import ⟨1, 2, 2, 64, [10, 20], []⟩,
    .removeSubtree [2], .import ⟨1, 2, 2, 64, [10, 20], []⟩]

/-- The queue `dependentTwiceRun` ends in. -/
def dependentTwiceQueue : ReadyTransactions Nat Nat :=
  (dependentTwiceRun.foldlM ReadyTransactions.step .default).getD .default

theorem get_yields_dependent_twice :
    dependentTwiceRun.foldlM ReadyTransactions.step .default = some dependentTwiceQueue ∧
      ReadyReachable dependentTwiceQueue ∧
      (dependentTwiceQueue.get.take 10).map Transaction.hash = [1, 2, 3, 2] := by
  have hrun : dependentTwiceRun.foldlM ReadyTransactions.step .default = some dependentTwiceQueue := rfl
  exact ⟨hrun, ReadyReachable.foldlM (by decide) .default hrun, by decide⟩

end TxPool
