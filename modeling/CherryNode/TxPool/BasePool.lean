import Mathlib
import CherryNode.Lib.PointwiseFold
import CherryNode.TxPool.Ready

/-!
# The base pool: a future and a ready queue

`BasePool` (`graph/base_pool.rs`) sends an imported transaction to the future
queue while a required tag is neither provided by the ready queue nor recently
pruned, and to the ready queue otherwise, with the future transactions its tags
unlock (`import_to_ready`).  Those are taken out of the future queue
(`satisfy_tags`) before the first ready import, which returns at once when it
fails: an `Err` can lose a future transaction it reports nowhere
(`import_error_loses_future`).  The future queue stays consistent on every run
(`BasePoolReachable.futureOk`).
-/

namespace TxPool

/-- `Imported`: where an imported transaction went. -/
inductive Imported (Hash Tag : Type)
  | ready (hash : Hash) (promoted failed : List Hash) (removed : List (Transaction Hash Tag))
  | future (hash : Hash)

/-- `PruneStatus`. -/
structure PruneStatus (Hash Tag : Type) where
  promoted : List (Imported Hash Tag)
  failed : List Hash
  pruned : List (Transaction Hash Tag)

/-- `Limit`: a bound on the number of transactions of a queue and on their size. -/
structure Limit where
  count : Nat
  totalBytes : Nat

/-- `is_exceeded`. -/
def Limit.isExceeded (l : Limit) (count bytes : Nat) : Bool := l.count < count || l.totalBytes < bytes

/-- `RECENTLY_PRUNED_TAGS`. -/
def recentlyPrunedTags : Nat := 2

variable {Hash Tag : Type} [LinearOrder Hash] [LinearOrder Tag]

/-- `BasePool`. -/
structure BasePool (Hash Tag : Type) [LinearOrder Hash] [LinearOrder Tag] where
  rejectFutureTransactions : Bool
  future : FutureTransactions Hash Tag
  ready : ReadyTransactions Hash Tag
  recentlyPruned : List (List Tag)
  recentlyPrunedIndex : Nat

namespace BasePool

/-- `new`. -/
def new (rejectFutureTransactions : Bool) : BasePool Hash Tag :=
  ⟨rejectFutureTransactions, .default, .default, List.replicate recentlyPrunedTags [], 0⟩

/-- `is_imported`. -/
def isImported (p : BasePool Hash Tag) (hash : Hash) : Bool := p.future.contains hash || p.ready.contains hash

/-- The `while let Some(tx) = to_import.pop()` loop of `import_to_ready`; the
`Err` result is its early `return Err(e)` for the first transaction. -/
def importToReadyLoop :
    Nat → List (WaitingTransaction Hash Tag) → Bool → List Hash → List Hash → List (Transaction Hash Tag) →
      BasePool Hash Tag →
      Option (Except (Error Hash) (List Hash × List Hash × List (Transaction Hash Tag)) × BasePool Hash Tag)
  | 0, _, _, _, _, _, _ => none
  | fuel + 1, toImport, first, promoted, failed, removed, p =>
    match toImport.pop? with
    | none => some (.ok (promoted, failed, removed), p)
    | some (tx, toImport) =>
      match p.future.satisfyTags tx.transaction.provides with
      | none => none
      | some (unlocked, future) =>
        match p.ready.import tx with
        | none => none
        | some (.ok replaced, ready) =>
          importToReadyLoop fuel (toImport ++ unlocked) false
            (if first then promoted else promoted ++ [tx.transaction.hash]) failed (removed ++ replaced)
            { p with future, ready }
        | some (.error e, ready) =>
          if first then some (.error e, { p with future, ready })
          else
            importToReadyLoop fuel (toImport ++ unlocked) false promoted (failed ++ [tx.transaction.hash])
              removed { p with future, ready }

/-- `import_to_ready`.  Every turn of its loop pops a transaction, and only
those leaving the future queue are pushed. -/
def importToReady (p : BasePool Hash Tag) (tx : WaitingTransaction Hash Tag) :
    Option (Except (Error Hash) (Imported Hash Tag) × BasePool Hash Tag) :=
  match importToReadyLoop (p.future.len + 2) [tx] true [] [] [] p with
  | none => none
  | some (.error e, p) => some (.error e, p)
  | some (.ok (promoted, failed, removed), p) =>
    -- a promoted transaction pushed the imported one out: a cycle
    if removed.any (·.hash == tx.transaction.hash) then
      match p.ready.removeSubtree promoted with
      | none => none
      | some (_, ready) => some (.error .cycleDetected, { p with ready })
    else some (.ok (.ready tx.transaction.hash promoted failed removed), p)

/-- `import`, at the instant `now`. -/
def «import» (p : BasePool Hash Tag) (tx : Transaction Hash Tag) (now : Nat) :
    Option (Except (Error Hash) (Imported Hash Tag) × BasePool Hash Tag) :=
  if p.isImported tx.hash then some (.error (.alreadyImported tx.hash), p)
  else
    let waiting := WaitingTransaction.new tx p.ready.providedTags p.recentlyPruned now
    if !waiting.isReady then
      if p.rejectFutureTransactions then some (.error .rejectedFutureTransaction, p)
      else
        match p.future.import waiting with
        | none => none
        | some future => some (.ok (.future tx.hash), { p with future })
    else p.importToReady waiting

/-- `remove_subtree`: from the ready queue with the dependants, and from the
future queue. -/
def removeSubtree (p : BasePool Hash Tag) (hashes : List Hash) :
    Option (List (Transaction Hash Tag) × BasePool Hash Tag) :=
  match p.ready.removeSubtree hashes with
  | none => none
  | some (removed, ready) => some (removed ++ (p.future.remove hashes).1, { p with ready, future := (p.future.remove hashes).2 })

/-- `clear_future`. -/
def clearFuture (p : BasePool Hash Tag) : List (Transaction Hash Tag) × BasePool Hash Tag :=
  (p.future.clear.1, { p with future := p.future.clear.2 })

/-- The fold of `enforce_limits` that finds the ready transaction inserted first. -/
def minimalReady (minimal : Option (TransactionRef Hash Tag)) (current : ReadyTx Hash Tag) :
    Option (TransactionRef Hash Tag) :=
  match minimal with
  | none => some current.transaction
  | some tx => if tx.insertionId > current.transaction.insertionId then some current.transaction else some tx

/-- The fold of `enforce_limits` that finds the future transaction imported first. -/
def minimalFuture (minimal : Option (WaitingTransaction Hash Tag)) (current : WaitingTransaction Hash Tag) :
    Option (WaitingTransaction Hash Tag) :=
  match minimal with
  | none => some current
  | some tx => if tx.importedAt > current.importedAt then some current else some tx

/-- The first loop of `enforce_limits`, over the ready queue. -/
def enforceReadyLoop (limit : Limit) :
    Nat → BasePool Hash Tag → List (Transaction Hash Tag) → Option (List (Transaction Hash Tag) × BasePool Hash Tag)
  | 0, _, _ => none
  | fuel + 1, p, removed =>
    if limit.isExceeded p.ready.len p.ready.bytes then
      match p.ready.fold minimalReady with
      | none => some (removed, p)
      | some minimal =>
        match p.removeSubtree [minimal.transaction.hash] with
        | none => none
        | some (r, p) => enforceReadyLoop limit fuel p (removed ++ r)
    else some (removed, p)

/-- The second loop of `enforce_limits`, over the future queue. -/
def enforceFutureLoop (limit : Limit) :
    Nat → BasePool Hash Tag → List (Transaction Hash Tag) → Option (List (Transaction Hash Tag) × BasePool Hash Tag)
  | 0, _, _ => none
  | fuel + 1, p, removed =>
    if limit.isExceeded p.future.len p.future.bytes then
      match p.future.fold minimalFuture with
      | none => some (removed, p)
      | some minimal =>
        match p.removeSubtree [minimal.transaction.hash] with
        | none => none
        | some (r, p) => enforceFutureLoop limit fuel p (removed ++ r)
    else some (removed, p)

/-- `enforce_limits`.  Each turn of a loop removes the transaction it found. -/
def enforceLimits (p : BasePool Hash Tag) (ready future : Limit) :
    Option (List (Transaction Hash Tag) × BasePool Hash Tag) :=
  match enforceReadyLoop ready (p.ready.len + 1) p [] with
  | none => none
  | some (removed, p) => enforceFutureLoop future (p.future.len + 1) p removed

/-- One turn of the loop of `prune_tags` over the tags, writing to the slot
`slot` of `recently_pruned`. -/
def pruneTag (slot : Nat)
    (acc : List (WaitingTransaction Hash Tag) × List (Transaction Hash Tag) × BasePool Hash Tag) (tag : Tag) :
    Option (List (WaitingTransaction Hash Tag) × List (Transaction Hash Tag) × BasePool Hash Tag) :=
  match acc.2.2.future.satisfyTags [tag] with
  | none => none
  | some (unlocked, future) =>
    match acc.2.2.ready.pruneTags tag with
    | none => none
    | some (pruned, ready) =>
      some (acc.1 ++ unlocked, acc.2.1 ++ pruned,
        { acc.2.2 with future, ready, recentlyPruned := acc.2.2.recentlyPruned.modify slot (·.insert tag) })

/-- One turn of the loop of `prune_tags` over the unlocked transactions. -/
def promote (acc : List (Imported Hash Tag) × List Hash × BasePool Hash Tag) (tx : WaitingTransaction Hash Tag) :
    Option (List (Imported Hash Tag) × List Hash × BasePool Hash Tag) :=
  match acc.2.2.importToReady tx with
  | none => none
  | some (.ok res, p) => some (acc.1 ++ [res], acc.2.1, p)
  | some (.error _, p) => some (acc.1, acc.2.1 ++ [tx.transaction.hash], p)

/-- `prune_tags`. -/
def pruneTags (p : BasePool Hash Tag) (tags : List Tag) : Option (PruneStatus Hash Tag × BasePool Hash Tag) :=
  let slot := p.recentlyPrunedIndex
  let p := { p with
    recentlyPruned := p.recentlyPruned.set slot []
    recentlyPrunedIndex := (slot + 1) % recentlyPrunedTags }
  match tags.foldlM (pruneTag slot) ([], [], p) with
  | none => none
  | some (toImport, pruned, p) =>
    match toImport.foldlM promote ([], [], p) with
    | none => none
    | some (promoted, failed, p) => some (⟨promoted, failed, pruned⟩, p)

end BasePool

/-! ## Runs of the pool -/

/-- The operations on the pool. -/
inductive PoolOp (Hash Tag : Type)
  | «import» (tx : Transaction Hash Tag) (now : Nat)
  | removeSubtree (hashes : List Hash)
  | pruneTags (tags : List Tag)
  | enforceLimits (ready future : Limit)
  | clearFuture

/-- One operation on the pool, its result dropped; `none` is a panic. -/
def BasePool.step (p : BasePool Hash Tag) : PoolOp Hash Tag → Option (BasePool Hash Tag)
  | .import tx now => (p.import tx now).map Prod.snd
  | .removeSubtree hashes => (p.removeSubtree hashes).map Prod.snd
  | .pruneTags tags => (p.pruneTags tags).map Prod.snd
  | .enforceLimits ready future => (p.enforceLimits ready future).map Prod.snd
  | .clearFuture => some p.clearFuture.2

/-- The pools reachable from `BasePool::new`. -/
inductive BasePoolReachable : BasePool Hash Tag → Prop
  | new (reject : Bool) : BasePoolReachable (.new reject)
  | step {p p' : BasePool Hash Tag} (op : PoolOp Hash Tag) (hp : BasePoolReachable p)
      (h : p.step op = some p') : BasePoolReachable p'

theorem BasePoolReachable.foldlM (ops : List (PoolOp Hash Tag)) :
    ∀ {p p' : BasePool Hash Tag}, BasePoolReachable p → ops.foldlM BasePool.step p = some p' →
      BasePoolReachable p' := by
  induction ops with
  | nil => intro p p' hp h; cases h; exact hp
  | cons op ops ih =>
    intro p p' hp h
    rw [List.foldlM_cons] at h
    obtain ⟨p₁, h₁, h⟩ := Option.bind_eq_some_iff.mp h
    exact ih (.step op hp h₁) h

/-! ## The future queue on every run -/

namespace BasePool

open FutureTransactions

variable {p p' : BasePool Hash Tag}

theorem importToReadyLoop_futureOk (fuel : Nat) :
    ∀ (toImport : List (WaitingTransaction Hash Tag)) (first : Bool) (promoted failed : List Hash)
      (removed : List (Transaction Hash Tag)) (p p' : BasePool Hash Tag) r,
      FutureOk p.future → importToReadyLoop fuel toImport first promoted failed removed p = some (r, p') →
      FutureOk p'.future := by
  induction fuel with
  | zero => intro _ _ _ _ _ _ _ _ _ h; cases h
  | succ fuel ih =>
    intro toImport first promoted failed removed p p' r hf h
    unfold importToReadyLoop at h
    cases hpop : toImport.pop? with
    | none =>
      simp only [hpop, Option.some.injEq, Prod.mk.injEq] at h
      rw [← h.2]
      exact hf
    | some x =>
      obtain ⟨tx, rest⟩ := x
      obtain ⟨unlocked, f', hsat, hf', -⟩ := satisfyTags_ok hf tx.transaction.provides
      simp only [hpop, hsat] at h
      split at h
      · cases h
      · exact ih _ _ _ _ _ _ _ _ hf' h
      · split at h
        · cases h
          exact hf'
        · exact ih _ _ _ _ _ _ _ _ hf' h

theorem importToReady_futureOk {tx : WaitingTransaction Hash Tag} {r} (hf : FutureOk p.future)
    (h : p.importToReady tx = some (r, p')) : FutureOk p'.future := by
  unfold importToReady at h
  split at h
  · cases h
  · rename_i hloop
    cases h
    exact importToReadyLoop_futureOk _ _ _ _ _ _ _ _ _ hf hloop
  · rename_i hloop
    have hf' := importToReadyLoop_futureOk _ _ _ _ _ _ _ _ _ hf hloop
    split at h
    · split at h
      · cases h
      · cases h
        exact hf'
    · cases h
      exact hf'

theorem import_futureOk {tx : Transaction Hash Tag} {now : Nat} {r} (hf : FutureOk p.future)
    (h : p.import tx now = some (r, p')) : FutureOk p'.future := by
  unfold BasePool.import at h
  split at h
  · cases h
    exact hf
  dsimp only at h
  split at h
  · split at h
    · cases h
      exact hf
    · split at h
      · cases h
      · rename_i future hfut
        cases h
        exact (FutureTransactions.import_ok hf hfut).1
  · exact importToReady_futureOk hf h

theorem removeSubtree_futureOk {hashes : List Hash} {r} (hf : FutureOk p.future)
    (h : p.removeSubtree hashes = some (r, p')) : FutureOk p'.future := by
  unfold BasePool.removeSubtree at h
  split at h
  · cases h
  · cases h
    exact remove_ok hf hashes

theorem enforceReadyLoop_futureOk (limit : Limit) (fuel : Nat) :
    ∀ (p p' : BasePool Hash Tag) (removed r : List (Transaction Hash Tag)),
      FutureOk p.future → enforceReadyLoop limit fuel p removed = some (r, p') → FutureOk p'.future := by
  induction fuel with
  | zero => intro _ _ _ _ _ h; cases h
  | succ fuel ih =>
    intro p p' removed r hf h
    unfold enforceReadyLoop at h
    split at h
    · split at h
      · cases h
        exact hf
      · split at h
        · cases h
        · rename_i hrem
          exact ih _ _ _ _ (removeSubtree_futureOk hf hrem) h
    · cases h
      exact hf

theorem enforceFutureLoop_futureOk (limit : Limit) (fuel : Nat) :
    ∀ (p p' : BasePool Hash Tag) (removed r : List (Transaction Hash Tag)),
      FutureOk p.future → enforceFutureLoop limit fuel p removed = some (r, p') → FutureOk p'.future := by
  induction fuel with
  | zero => intro _ _ _ _ _ h; cases h
  | succ fuel ih =>
    intro p p' removed r hf h
    unfold enforceFutureLoop at h
    split at h
    · split at h
      · cases h
        exact hf
      · split at h
        · cases h
        · rename_i hrem
          exact ih _ _ _ _ (removeSubtree_futureOk hf hrem) h
    · cases h
      exact hf

theorem enforceLimits_futureOk {ready future : Limit} {r} (hf : FutureOk p.future)
    (h : p.enforceLimits ready future = some (r, p')) : FutureOk p'.future := by
  unfold enforceLimits at h
  split at h
  · cases h
  · rename_i hready
    exact enforceFutureLoop_futureOk _ _ _ _ _ _ (enforceReadyLoop_futureOk _ _ _ _ _ _ hf hready) h

theorem pruneTag_futureOk (slot : Nat) (acc) (tag : Tag) (acc') (hacc : FutureOk acc.2.2.future)
    (h : pruneTag slot acc tag = some acc') : FutureOk (acc'.2.2 : BasePool Hash Tag).future := by
  unfold pruneTag at h
  obtain ⟨unlocked, f', hsat, hf', -⟩ := satisfyTags_ok hacc [tag]
  simp only [hsat] at h
  split at h
  · cases h
  · cases h
    exact hf'

theorem promote_futureOk (acc) (tx : WaitingTransaction Hash Tag) (acc') (hacc : FutureOk acc.2.2.future)
    (h : promote acc tx = some acc') : FutureOk (acc'.2.2 : BasePool Hash Tag).future := by
  unfold promote at h
  split at h
  · cases h
  · rename_i himp
    cases h
    exact importToReady_futureOk hacc himp
  · rename_i himp
    cases h
    exact importToReady_futureOk hacc himp

theorem pruneTags_futureOk {tags : List Tag} {r} (hf : FutureOk p.future)
    (h : p.pruneTags tags = some (r, p')) : FutureOk p'.future := by
  unfold BasePool.pruneTags at h
  dsimp only at h
  split at h
  · cases h
  · rename_i hpruned
    split at h
    · cases h
    · rename_i hpromoted
      cases h
      have hf₁ := PointwiseFold.foldlM_invariant (fun acc => FutureOk acc.2.2.future)
        (pruneTag_futureOk p.recentlyPrunedIndex) tags _ _ hf hpruned
      exact PointwiseFold.foldlM_invariant (fun acc => FutureOk acc.2.2.future) promote_futureOk _ _ _ hf₁ hpromoted

end BasePool

/-- **The future queue stays consistent on every run**: on every reachable
pool, each future transaction is stored under its hash and still waits for a
tag, and `wanted_tags` lists, once each, exactly the transactions waiting for
each tag. -/
theorem BasePoolReachable.futureOk {p : BasePool Hash Tag} (hp : BasePoolReachable p) :
    FutureTransactions.FutureOk p.future := by
  induction hp with
  | new => exact FutureTransactions.futureOk_default
  | @step p₀ _ op _ h hf =>
    cases op with
    | «import» tx now =>
      obtain ⟨⟨_, _⟩, himp, rfl⟩ := Option.map_eq_some_iff.mp h
      exact BasePool.import_futureOk hf himp
    | removeSubtree hashes =>
      obtain ⟨⟨_, _⟩, hrem, rfl⟩ := Option.map_eq_some_iff.mp h
      exact BasePool.removeSubtree_futureOk hf hrem
    | pruneTags tags =>
      obtain ⟨⟨_, _⟩, hprune, rfl⟩ := Option.map_eq_some_iff.mp h
      exact BasePool.pruneTags_futureOk hf hprune
    | enforceLimits ready future =>
      obtain ⟨⟨_, _⟩, henf, rfl⟩ := Option.map_eq_some_iff.mp h
      exact BasePool.enforceLimits_futureOk hf henf
    | clearFuture =>
      cases h
      exact FutureTransactions.futureOk_clear p₀.future

/-! ## An import that fails and loses a future transaction -/

/-- Import `1`, providing tag `100` at priority `10`, then `2`, which waits in
the future queue for tag `200`. -/
def lostFutureRun : List (PoolOp Nat Nat) :=
  [.import ⟨1, 1, 10, 64, [], [100]⟩ 0, .import ⟨1, 2, 1, 64, [200], []⟩ 1]

/-- The pool `lostFutureRun` ends in. -/
def lostFuturePool : BasePool Nat Nat := (lostFutureRun.foldlM BasePool.step (.new false)).getD (.new false)

theorem futureOk_lostFuturePool :
    BasePoolReachable lostFuturePool ∧ lostFuturePool.future.contains 2 = true ∧
      FutureTransactions.FutureOk lostFuturePool.future := by
  have hp : BasePoolReachable lostFuturePool := BasePoolReachable.foldlM lostFutureRun (.new false) rfl
  exact ⟨hp, by decide, BasePoolReachable.futureOk hp⟩

/-- Importing `3`, which provides both tags at priority `1`, takes `2` out of
the future queue and then fails, since it would replace `1`; `2` is in neither
queue afterwards and the error reports nothing of it. -/
theorem import_error_loses_future :
    lostFutureRun.foldlM BasePool.step (.new false) = some lostFuturePool ∧
      BasePoolReachable lostFuturePool ∧ lostFuturePool.isImported 2 = true ∧
      ∃ p', lostFuturePool.import ⟨1, 3, 1, 64, [], [100, 200]⟩ 2 = some (.error (.tooLowPriority 10 1), p') ∧
        p'.isImported 2 = false := by
  have hrun : lostFutureRun.foldlM BasePool.step (.new false) = some lostFuturePool := rfl
  refine ⟨hrun, BasePoolReachable.foldlM _ (.new false) hrun, by decide, ?_⟩
  refine ⟨_, rfl, by decide⟩

end TxPool
