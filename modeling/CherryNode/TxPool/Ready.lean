import CherryNode.Lib.Vec
import CherryNode.TxPool.Future

/-!
# The ready queue of the transaction pool

`ReadyTransactions` (`graph/ready.rs`) holds the transactions whose required
tags are all met.  `provided_tags` maps a tag to the ready transaction
providing it, `ready` a hash to the transaction with its `unlocks` (those
waiting for one of its tags) and its `requires_offset` (required tags met from
outside), and `best` holds those waiting for nothing in the queue.
`BestIterator` (`get`) walks the queue in dependency and priority order.

The `while let Some(..) = pop()` loops run on fuel (`none` when spent, which
`removeSubtreeLoop_isSome` and `pruneTagsLoop_ok` rule out), a failed `expect`
or assertion is `none`, and a `BTreeSet` of `TransactionRef`s is a list free of
`cmp`-equal elements (`RefSet`).
-/

namespace TxPool

/-- `TransactionRef`: a transaction and the id of its insertion. -/
structure TransactionRef (Hash Tag : Type) where
  transaction : Transaction Hash Tag
  insertionId : Nat
  deriving DecidableEq, Repr

/-- `ReadyTx`. -/
structure ReadyTx (Hash Tag : Type) where
  transaction : TransactionRef Hash Tag
  unlocks : List Hash
  requiresOffset : Nat
  deriving DecidableEq, Repr

/-- The variants of `error::Error` the pool returns. -/
inductive Error (Hash : Type) where
  | alreadyImported (hash : Hash)
  | tooLowPriority (old new : Nat)
  | cycleDetected
  | rejectedFutureTransaction
  deriving DecidableEq, Repr

variable {Hash Tag : Type}

/-- `Ord for TransactionRef`: higher priority first, then the shorter validity,
then the earlier insertion. -/
def TransactionRef.cmp (self other : TransactionRef Hash Tag) : Ordering :=
  (compare self.transaction.priority other.transaction.priority).then
    ((compare other.transaction.validTill self.transaction.validTill).then
      (compare other.insertionId self.insertionId))

/-- `remove_item`: remove the first occurrence by `swap_remove`. -/
def removeItem [BEq Hash] [LawfulBEq Hash] (vec : List Hash) (item : Hash) : List Hash :=
  vec.swapRemoveFirst item

namespace RefSet

/-- `BTreeSet::insert`: an element `cmp`-equal to one already there is not added. -/
def insert (s : List (TransactionRef Hash Tag)) (r : TransactionRef Hash Tag) : List (TransactionRef Hash Tag) :=
  if s.any fun x => x.cmp r == .eq then s else s ++ [r]

/-- `BTreeSet::remove` and `take`. -/
def remove (s : List (TransactionRef Hash Tag)) (r : TransactionRef Hash Tag) : List (TransactionRef Hash Tag) :=
  s.filter fun x => x.cmp r != .eq

/-- `iter().next_back()`: the greatest element under `cmp`. -/
def last? (s : List (TransactionRef Hash Tag)) : Option (TransactionRef Hash Tag) :=
  s.foldl (fun m x => match m with
    | none => some x
    | some y => if y.cmp x == .lt then some x else some y) none

end RefSet

variable [LinearOrder Hash] [LinearOrder Tag]

attribute [local instance] OrdMap.lawfulBEq

/-- `ReadyTransactions`. -/
structure ReadyTransactions (Hash Tag : Type) [LinearOrder Hash] [LinearOrder Tag] where
  insertionId : Nat
  providedTags : OrdMap Tag Hash
  ready : OrdMap Hash (ReadyTx Hash Tag)
  best : List (TransactionRef Hash Tag)

namespace ReadyTransactions

/-- `Default`. -/
def default : ReadyTransactions Hash Tag := ⟨0, .empty, .empty, []⟩

/-- `contains`. -/
def contains (q : ReadyTransactions Hash Tag) (hash : Hash) : Bool := q.ready.contains hash

/-- `len`. -/
def len (q : ReadyTransactions Hash Tag) : Nat := q.ready.size

/-- `bytes`: the tracked size of the map, the sum of the transactions' sizes. -/
def bytes (q : ReadyTransactions Hash Tag) : Nat :=
  (q.ready.toList.map fun e => e.2.transaction.transaction.bytes).sum

/-- `fold` over the ready transactions. -/
def fold {R : Type} (q : ReadyTransactions Hash Tag) (f : Option R → ReadyTx Hash Tag → Option R) :
    Option R :=
  (q.ready.toList.map Prod.snd).foldl f none

/-! ## `remove_subtree` -/

/-- One turn of the "remove from unlocks" loop of
`remove_subtree_with_tag_filter`.  The `hash` of `if let Some(hash)` shadows
the removed transaction's, so the provider's own hash leaves its `unlocks`. -/
def removeFromUnlocks (providedTags : OrdMap Tag Hash) (ready : OrdMap Hash (ReadyTx Hash Tag))
    (tag : Tag) : OrdMap Hash (ReadyTx Hash Tag) :=
  match providedTags.get? tag with
  | none => ready
  | some hash =>
    match ready.get? hash with
    | none => ready
    | some tx => ready.insert hash { tx with unlocks := removeItem tx.unlocks hash }

/-- The tags of a removed transaction that leave `provided_tags`: those outside
the filter. -/
def invalidated (filter : Option (List Tag)) (provides : List Tag) : List Tag :=
  provides.filter fun tag => (filter.map fun f => !f.contains tag).getD true

/-- The `while let Some(hash) = to_remove.pop()` loop of
`remove_subtree_with_tag_filter`. -/
def removeSubtreeLoop (filter : Option (List Tag)) :
    Nat → List Hash → ReadyTransactions Hash Tag → List (Transaction Hash Tag) →
      Option (List (Transaction Hash Tag) × ReadyTransactions Hash Tag)
  | 0, _, _, _ => none
  | fuel + 1, toRemove, q, removed =>
    match toRemove.pop? with
    | none => some (removed, q)
    | some (hash, toRemove) =>
      match q.ready.get? hash with
      | none => removeSubtreeLoop filter fuel toRemove q removed
      | some tx =>
        let providedTags := (invalidated filter tx.transaction.transaction.provides).foldl OrdMap.erase
          q.providedTags
        removeSubtreeLoop filter fuel
          (if (invalidated filter tx.transaction.transaction.provides).isEmpty then toRemove
            else toRemove ++ tx.unlocks)
          { q with
            providedTags := providedTags
            ready := tx.transaction.transaction.requires.foldl (removeFromUnlocks providedTags)
              (q.ready.erase hash)
            best := RefSet.remove q.best tx.transaction }
          (removed ++ [tx.transaction.transaction])

/-- The longest `unlocks` list in the queue. -/
def maxUnlocks (q : ReadyTransactions Hash Tag) : Nat :=
  (q.ready.toList.map fun e => e.2.unlocks.length).foldr max 0

/-- Fuel for the removal loop: every turn pops a hash, and a hash is pushed
only from the `unlocks` of a transaction leaving the queue. -/
def removeFuel (q : ReadyTransactions Hash Tag) (toRemove : List Hash) : Nat :=
  toRemove.length + q.ready.size * (q.maxUnlocks + 1) + 1

/-- `remove_subtree_with_tag_filter`: the removed transactions. -/
def removeSubtreeWithTagFilter (q : ReadyTransactions Hash Tag) (toRemove : List Hash)
    (filter : Option (List Tag)) : Option (List (Transaction Hash Tag) × ReadyTransactions Hash Tag) :=
  removeSubtreeLoop filter (q.removeFuel toRemove) toRemove q []

/-- `remove_subtree`. -/
def removeSubtree (q : ReadyTransactions Hash Tag) (hashes : List Hash) :
    Option (List (Transaction Hash Tag) × ReadyTransactions Hash Tag) :=
  q.removeSubtreeWithTagFilter hashes none

/-! ## `prune_tags` -/

/-- `find_previous` of `prune_tags`: the pruned transaction leaves the
`unlocks` of the provider of `tag`, whose tags are returned once nothing
waits for it any more. -/
def findPrevious (hash : Hash) (providedTags : OrdMap Tag Hash) (ready : OrdMap Hash (ReadyTx Hash Tag))
    (tag : Tag) : OrdMap Hash (ReadyTx Hash Tag) × Option (List Tag) :=
  match providedTags.get? tag with
  | none => (ready, none)
  | some prevHash =>
    match ready.get? prevHash with
    | none => (ready, none)
    | some tx2 =>
      (ready.insert prevHash { tx2 with unlocks := removeItem tx2.unlocks hash },
        if (removeItem tx2.unlocks hash).isEmpty then some tx2.transaction.transaction.provides else none)

/-- One turn of the loop of `prune_tags` over the pruned transaction's
required tags. -/
def prunePrevious (hash : Hash) (providedTags : OrdMap Tag Hash)
    (acc : OrdMap Hash (ReadyTx Hash Tag) × List Tag) (tag : Tag) : OrdMap Hash (ReadyTx Hash Tag) × List Tag :=
  match findPrevious hash providedTags acc.1 tag with
  | (ready, none) => (ready, acc.2)
  | (ready, some tagsToRemove) => (ready, acc.2 ++ tagsToRemove)

/-- One turn of the loop of `prune_tags` over the pruned transaction's
`unlocks`: one more required tag is met from outside the queue. -/
def promoteUnlocked (acc : OrdMap Hash (ReadyTx Hash Tag) × List (TransactionRef Hash Tag)) (hash : Hash) :
    OrdMap Hash (ReadyTx Hash Tag) × List (TransactionRef Hash Tag) :=
  match acc.1.get? hash with
  | none => acc
  | some tx =>
    (acc.1.insert hash { tx with requiresOffset := tx.requiresOffset + 1 },
      if tx.requiresOffset + 1 = tx.transaction.transaction.requires.length then
        RefSet.insert acc.2 tx.transaction
      else acc.2)

/-- One turn of the last loop of `prune_tags`, with its `assert_eq!`. -/
def clearProvided (currentTag : Tag) (hash : Hash) (providedTags : OrdMap Tag Hash) (tag : Tag) :
    Option (OrdMap Tag Hash) :=
  if providedTags.get? tag = (if currentTag = tag then none else some hash) then some (providedTags.erase tag)
  else none

/-- The `while let Some(tag) = to_remove.pop()` loop of `prune_tags`. -/
def pruneTagsLoop :
    Nat → List Tag → ReadyTransactions Hash Tag → List (Transaction Hash Tag) →
      Option (List (Transaction Hash Tag) × ReadyTransactions Hash Tag)
  | 0, _, _, _ => none
  | fuel + 1, toRemove, q, removed =>
    match toRemove.pop? with
    | none => some (removed, q)
    | some (tag, toRemove) =>
      match q.providedTags.get? tag with
      | none => pruneTagsLoop fuel toRemove q removed
      | some hash =>
        match q.ready.get? hash with
        | none => pruneTagsLoop fuel toRemove { q with providedTags := q.providedTags.erase tag } removed
        | some readyTx =>
          let tx := readyTx.transaction.transaction
          let previous := tx.requires.foldl (prunePrevious tx.hash (q.providedTags.erase tag))
            (q.ready.erase hash, toRemove)
          let unlocked := readyTx.unlocks.foldl promoteUnlocked
            (previous.1, RefSet.remove q.best readyTx.transaction)
          match tx.provides.foldlM (clearProvided tag tx.hash) (q.providedTags.erase tag) with
          | none => none
          | some providedTags =>
            pruneTagsLoop fuel previous.2 ⟨q.insertionId, providedTags, unlocked.1, unlocked.2⟩
              (removed ++ [tx])

/-- The most tags a transaction of the queue requires, and provides. -/
def maxRequires (q : ReadyTransactions Hash Tag) : Nat :=
  (q.ready.toList.map fun e => e.2.transaction.transaction.requires.length).foldr max 0

def maxProvides (q : ReadyTransactions Hash Tag) : Nat :=
  (q.ready.toList.map fun e => e.2.transaction.transaction.provides.length).foldr max 0

/-- Fuel for the pruning loop: every turn pops a tag, and tags are pushed
only when a transaction leaves the queue, at most the provided tags of one
transaction for each tag it requires. -/
def pruneFuel (q : ReadyTransactions Hash Tag) (toRemove : List Tag) : Nat :=
  toRemove.length + q.ready.size * (q.maxRequires * q.maxProvides + 1) + 1

/-- `prune_tags`: the pruned transactions. -/
def pruneTags (q : ReadyTransactions Hash Tag) (tag : Tag) :
    Option (List (Transaction Hash Tag) × ReadyTransactions Hash Tag) :=
  pruneTagsLoop (q.pruneFuel [tag]) [tag] q []

/-! ## `import` -/

/-- `replace_previous`: the transactions the new one replaces (those
providing one of its tags) leave with their subtrees, unless together they
have at least its priority; their `unlocks` are handed over. -/
def replacePrevious (q : ReadyTransactions Hash Tag) (tx : Transaction Hash Tag) :
    Option (Except (Error Hash) (List (Transaction Hash Tag) × List Hash) × ReadyTransactions Hash Tag) :=
  let replaceHashes := (tx.provides.filterMap q.providedTags.get?).dedup
  if replaceHashes.isEmpty then some (.ok ([], []), q)
  else
    let oldPriority := (replaceHashes.filterMap q.ready.get?).foldl
      (fun total t => min (total + t.transaction.transaction.priority) (2 ^ 64 - 1)) 0
    if oldPriority ≥ tx.priority then some (.error (.tooLowPriority oldPriority tx.priority), q)
    else
      let unlocks := (replaceHashes.filterMap q.ready.get?).foldl (fun list t => list ++ t.unlocks) []
      match q.removeSubtreeWithTagFilter replaceHashes (some tx.provides) with
      | none => none
      | some (removed, q) => some (.ok (removed, unlocks), q)

/-- One turn of `import`'s loop over the required tags: a tag provided in the
queue links the new transaction into its provider's `unlocks`; any other
counts towards `requires_offset`.  `none` is `expect(HASH_READY)` failing. -/
def linkRequired (hash : Hash) (providedTags : OrdMap Tag Hash)
    (acc : OrdMap Hash (ReadyTx Hash Tag) × Bool × Nat) (tag : Tag) :
    Option (OrdMap Hash (ReadyTx Hash Tag) × Bool × Nat) :=
  match providedTags.get? tag with
  | some other =>
    match acc.1.get? other with
    | none => none
    | some tx => some (acc.1.insert other { tx with unlocks := tx.unlocks ++ [hash] }, false, acc.2.2)
  | none => some (acc.1, acc.2.1, acc.2.2 + 1)

/-- `import`: the replaced transactions, or an error; `none` where an
assertion or `expect` fails. -/
def «import» (q : ReadyTransactions Hash Tag) (tx : WaitingTransaction Hash Tag) :
    Option (Except (Error Hash) (List (Transaction Hash Tag)) × ReadyTransactions Hash Tag) :=
  if !tx.isReady then none
  else if q.ready.contains tx.transaction.hash then none
  else
    let insertionId := q.insertionId + 1
    let hash := tx.transaction.hash
    match { q with insertionId }.replacePrevious tx.transaction with
    | none => none
    | some (.error e, q) => some (.error e, q)
    | some (.ok (replaced, unlocks), q) =>
      match tx.transaction.requires.foldlM (linkRequired hash q.providedTags) (q.ready, true, 0) with
      | none => none
      | some (ready, goesToBest, requiresOffset) =>
        let transaction : TransactionRef Hash Tag := ⟨tx.transaction, insertionId⟩
        some (.ok replaced,
          ⟨insertionId, tx.transaction.provides.foldl (fun p tag => p.insert tag hash) q.providedTags,
            ready.insert hash ⟨transaction, unlocks, requiresOffset⟩,
            if goesToBest then RefSet.insert q.best transaction else q.best⟩)

end ReadyTransactions

/-! ## The best iterator -/

/-- `BestIterator`: a snapshot of the queue, the transactions still waiting
for some of their dependencies with how many are met, and the ones free to go. -/
structure BestIterator (Hash Tag : Type) [LinearOrder Hash] [LinearOrder Tag] where
  all : OrdMap Hash (ReadyTx Hash Tag)
  awaiting : OrdMap Hash (Nat × TransactionRef Hash Tag)
  best : List (TransactionRef Hash Tag)

namespace BestIterator

/-- `best_or_awaiting`. -/
def bestOrAwaiting (it : BestIterator Hash Tag) (satisfied : Nat) (txRef : TransactionRef Hash Tag) :
    BestIterator Hash Tag :=
  if satisfied ≥ txRef.transaction.requires.length then { it with best := RefSet.insert it.best txRef }
  else { it with awaiting := it.awaiting.insert txRef.transaction.hash (satisfied, txRef) }

/-- One turn of `next`'s loop over the unlocks of the transaction it yields. -/
def unlock (it : BestIterator Hash Tag) (hash : Hash) : BestIterator Hash Tag :=
  match it.awaiting.get? hash with
  | some (satisfied, txRef) => { it with awaiting := it.awaiting.erase hash }.bestOrAwaiting (satisfied + 1) txRef
  | none =>
    match it.all.get? hash with
    | some next => it.bestOrAwaiting (next.requiresOffset + 1) next.transaction
    | none => it

/-- The `loop` of `next`: it goes round only for a best transaction gone from
the snapshot, and each round takes one out of `best`. -/
def nextLoop : Nat → BestIterator Hash Tag → Option (Transaction Hash Tag × BestIterator Hash Tag)
  | 0, _ => none
  | fuel + 1, it =>
    match RefSet.last? it.best with
    | none => none
    | some best =>
      match it.all.get? best.transaction.hash with
      | none => nextLoop fuel { it with best := RefSet.remove it.best best }
      | some ready =>
        some (best.transaction, ready.unlocks.foldl unlock { it with best := RefSet.remove it.best best })

/-- `next`. -/
def next (it : BestIterator Hash Tag) : Option (Transaction Hash Tag × BestIterator Hash Tag) :=
  nextLoop (it.best.length + 1) it

/-- The first `n` transactions the iterator yields. -/
def take : Nat → BestIterator Hash Tag → List (Transaction Hash Tag)
  | 0, _ => []
  | n + 1, it =>
    match it.next with
    | none => []
    | some (tx, it) => tx :: take n it

end BestIterator

/-- `get`: an iterator over a snapshot of the queue. -/
def ReadyTransactions.get (q : ReadyTransactions Hash Tag) : BestIterator Hash Tag :=
  ⟨q.ready, .empty, q.best⟩

/-! ## Runs of the queue -/

/-- The operations that change the ready queue.  A transaction is imported as
a `WaitingTransaction` that misses no tag (the instant of its import is not
read by the ready queue). -/
inductive ReadyOp (Hash Tag : Type)
  | «import» (tx : Transaction Hash Tag)
  | removeSubtree (hashes : List Hash)
  | pruneTags (tag : Tag)

/-- The imports the pool's contract is about: required and provided tags are
lists without repetitions, and no tag is both required and provided. -/
def ReadyOp.Admissible : ReadyOp Hash Tag → Prop
  | .import tx => tx.requires.Nodup ∧ tx.provides.Nodup ∧ ∀ t ∈ tx.requires, t ∉ tx.provides
  | .removeSubtree _ => True
  | .pruneTags _ => True

instance (op : ReadyOp Hash Tag) : Decidable op.Admissible := by
  cases op <;> unfold ReadyOp.Admissible <;> infer_instance

/-- One operation on the queue, its result dropped; `none` is a panic. -/
def ReadyTransactions.step (q : ReadyTransactions Hash Tag) : ReadyOp Hash Tag → Option (ReadyTransactions Hash Tag)
  | .import tx => (q.import ⟨tx, [], List.nodup_nil, 0⟩).map Prod.snd
  | .removeSubtree hashes => (q.removeSubtree hashes).map Prod.snd
  | .pruneTags tag => (q.pruneTags tag).map Prod.snd

/-- The queues reachable from the empty one by admissible operations. -/
inductive ReadyReachable : ReadyTransactions Hash Tag → Prop
  | default : ReadyReachable .default
  | step {q q' : ReadyTransactions Hash Tag} {op : ReadyOp Hash Tag} (hq : ReadyReachable q)
      (hop : op.Admissible) (h : q.step op = some q') : ReadyReachable q'

theorem ReadyReachable.foldlM {ops : List (ReadyOp Hash Tag)} (hops : ∀ op ∈ ops, op.Admissible) :
    ∀ {q q' : ReadyTransactions Hash Tag}, ReadyReachable q → ops.foldlM ReadyTransactions.step q = some q' →
      ReadyReachable q' := by
  induction ops with
  | nil => intro q q' hq h; cases h; exact hq
  | cons op ops ih =>
    intro q q' hq h
    rw [List.foldlM_cons] at h
    obtain ⟨q₁, h₁, h⟩ := Option.bind_eq_some_iff.mp h
    exact ih (fun op' hop' => hops op' (List.mem_cons_of_mem op hop')) (.step hq (hops op List.mem_cons_self) h₁) h

end TxPool
