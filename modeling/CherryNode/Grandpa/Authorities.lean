import CherryNode.ForkTree.Finalization
import CherryNode.Lib.BinarySearch

/-!
# sc-finality-grandpa: the authority set and its pending changes

`AuthoritySet` holds the current authorities and set id, the standard changes
awaiting finality in a fork tree, the forced changes awaiting depth in a list
ordered by `(effective_number, canon_height)`, and `authority_set_changes`,
the block at which each past set ended.  `add_pending_change` files a change;
`apply_standard_changes` enacts the one a finalized block reaches, through
`ForkTree::finalize_with_descendent_if`; `apply_forced_changes` returns the set
a forced change leads to.

`get_set_id` binary-searches `authority_set_changes`, so the end blocks must
increase; a forced change records the `median_last_finalized` of its signal,
which nothing compares with the end recorded before it.
-/

namespace FinalityGrandpa

open ForkTree

/-- `AuthorityList`: authorities with their weights. -/
abbrev AuthorityList (Id : Type) := List (Id × Nat)

/-- `DelayKind`. -/
inductive DelayKind (N : Type)
  | finalized
  | best (medianLastFinalized : N)
  deriving DecidableEq, Repr

/-- `PendingChange`. -/
structure PendingChange (Id H N : Type) where
  nextAuthorities : AuthorityList Id
  delay : N
  canonHeight : N
  canonHash : H
  delayKind : DelayKind N
  deriving DecidableEq, Repr

/-- `AuthoritySetChanges`: the set ids with the last block of each set. -/
structure AuthoritySetChanges (N : Type) where
  toList : List (Nat × N)
  deriving DecidableEq, Repr

/-- `AuthoritySet`. -/
structure AuthoritySet (Id H N : Type) where
  currentAuthorities : AuthorityList Id
  setId : Nat
  pendingStandardChanges : ForkTree H N (PendingChange Id H N)
  pendingForcedChanges : List (PendingChange Id H N)
  authoritySetChanges : AuthoritySetChanges N

/-- `Error`. -/
inductive Error (N E : Type)
  | invalidAuthoritySet
  | client (e : E)
  | duplicateAuthoritySetChange
  | multiplePendingForcedAuthoritySetChanges
  | forcedAuthoritySetChangeDependencyUnsatisfied (n : N)
  | forkTree (e : ForkTree.Error E)
  deriving DecidableEq, Repr

/-- `Status`. -/
structure Status (H N : Type) where
  changed : Bool
  newSetBlock : Option (H × N)
  deriving DecidableEq, Repr

/-- `AuthoritySetChangeId`. -/
inductive AuthoritySetChangeId (N : Type)
  | latest
  | set (setId : Nat) (blockNumber : N)
  | unknown
  deriving DecidableEq, Repr

variable {Id H N E : Type}

/-- `From<fork_tree::Error<E>>`. -/
def Error.ofForkTree : ForkTree.Error E → Error N E
  | .client e => .client e
  | .duplicate => .duplicateAuthoritySetChange
  | e => .forkTree e

abbrev AuthM (Id H N E : Type) := EStateM (Error N E) (AuthoritySet Id H N)

/-- `PendingChange::effective_number`. -/
def PendingChange.effectiveNumber [Add N] (change : PendingChange Id H N) : N :=
  change.canonHeight + change.delay

/-- `invalid_authority_list`: empty, or with a weight of zero. -/
def invalidAuthorityList (authorities : AuthorityList Id) : Bool :=
  authorities.isEmpty || authorities.any fun a => a.2 == 0

/-- `AuthoritySet::genesis`. -/
def AuthoritySet.genesis [DecidableEq H] [LinearOrder N] (initial : AuthorityList Id) :
    Option (AuthoritySet Id H N) :=
  if invalidAuthorityList initial then none
  else some ⟨initial, 0, ForkTree.new, [], ⟨[]⟩⟩

/-- `AuthoritySetChanges::append`. -/
def AuthoritySetChanges.append (changes : AuthoritySetChanges N) (setId : Nat) (blockNumber : N) :
    AuthoritySetChanges N :=
  ⟨changes.toList ++ [(setId, blockNumber)]⟩

/-- `AuthoritySetChanges::get_set_id`. -/
def AuthoritySetChanges.getSetId [LinearOrder N] (changes : AuthoritySetChanges N) (blockNumber : N) :
    AuthoritySetChangeId N :=
  if (changes.toList.getLast?.map fun last => decide (last.2 < blockNumber)).getD false then .latest
  else
    let idx :=
      match Slice.binarySearchBy changes.toList (fun c => compare c.2 blockNumber) with
      | .ok i => i
      | .error i => i
    match changes.toList[idx]? with
    | some (setId, n) => if idx = 0 ∧ setId ≠ 0 then .unknown else .set setId n
    | none => .unknown

/-- `authority_set_changes` as `get_set_id` reads it: set `k` at position `k`,
the end blocks increasing. -/
structure AuthoritySetChanges.Sorted [LinearOrder N] (changes : AuthoritySetChanges N) : Prop where
  ids : changes.toList.map Prod.fst = List.range changes.toList.length
  ends : (changes.toList.map Prod.snd).Pairwise (· < ·)

theorem AuthoritySetChanges.getSetId_of_sorted [LinearOrder N] {changes : AuthoritySetChanges N}
    (hs : changes.Sorted) {b : N} {i : Nat} {n : N} (hi : (changes.toList.map Prod.snd)[i]? = some n)
    (hb : b ≤ n) (hbefore : ∀ j m, j < i → (changes.toList.map Prod.snd)[j]? = some m → m < b) :
    changes.getSetId b = .set i n := by
  have hlen : i < changes.toList.length := by
    simpa using (List.getElem?_eq_some_iff.mp hi).1
  -- the set at position `i` has id `i`
  have hpair : changes.toList[i]? = some (i, n) := by
    have hid : (changes.toList.map Prod.fst)[i]? = some i := by
      rw [hs.ids, List.getElem?_range hlen]
    rw [List.getElem?_map, List.getElem?_eq_getElem hlen] at hi hid
    rw [List.getElem?_eq_getElem hlen]
    simp only [Option.map_some, Option.some.injEq] at hi hid
    rw [← hi]
    nth_rewrite 2 [← hid]
    rfl
  -- the last set ends at or after `n`, so the block is not past every end
  have hlast : ¬ (changes.toList.getLast?.map fun last => decide (last.2 < b)).getD false := by
    rw [List.getLast?_eq_getElem?]
    have hl : changes.toList.length - 1 < changes.toList.length := by omega
    rw [List.getElem?_eq_getElem hl]
    simp only [Option.map_some, Option.getD_some, decide_eq_true_eq, not_lt]
    rcases Nat.lt_or_ge i (changes.toList.length - 1) with hil | hil
    · have hlastEnd : (changes.toList.map Prod.snd)[changes.toList.length - 1]? =
          some changes.toList[changes.toList.length - 1].2 := by
        simp [List.getElem?_eq_getElem hl]
      exact le_of_lt (lt_of_le_of_lt hb (Slice.lt_of_getElem?_of_pairwise hs.ends hil hi hlastEnd))
    · have hieq : i = changes.toList.length - 1 := by omega
      subst hieq
      rw [List.getElem?_eq_getElem hl, Option.some.injEq] at hpair
      rw [hpair]
      exact hb
  -- the search over the end blocks stops at `i`, found or not
  have hidx := Slice.binarySearch_position hs.ends hi hb hbefore
  simp only [Slice.binarySearch, Slice.binarySearchBy_map] at hidx
  unfold getSetId
  rw [if_neg hlast]
  generalize Slice.binarySearchBy changes.toList (fun c => compare c.2 b) = r at hidx ⊢
  -- `unwrap_or_else(|i| i)`: the position, found or not
  obtain ⟨p, hp, hr⟩ : ∃ p, p = i ∧ (r = .ok p ∨ r = .error p) := by
    cases r with
    | ok p => exact ⟨p, hidx, .inl rfl⟩
    | error p => exact ⟨p, hidx, .inr rfl⟩
  subst hp
  -- the set at position `p` has id `p`, so the `Unknown` branch is not taken
  rcases hr with rfl | rfl <;> simp [hpair]

theorem AuthoritySetChanges.getSetId_between :
    (⟨[(0, 5), (1, 9)]⟩ : AuthoritySetChanges Nat).getSetId 7 = .set 1 9 :=
  getSetId_of_sorted ⟨by decide, by decide⟩ rfl (by decide) fun j m hj hm => by
    obtain rfl : j = 0 := by omega
    simp only [List.map_cons, List.getElem?_cons_zero, Option.some.injEq] at hm
    omega

section Calls

variable [DecidableEq H] [LinearOrder N] [Add N]

/-- `self.pending_standard_changes.<call>(..)?`: the tree's call on this field,
its error converted by `From`. -/
def withStandardChanges {α : Type} (x : TreeM H N (PendingChange Id H N) E α) : AuthM Id H N E α := fun s =>
  match x s.pendingStandardChanges with
  | .ok a t => .ok a { s with pendingStandardChanges := t }
  | .error e t => .error (Error.ofForkTree e) { s with pendingStandardChanges := t }

/-- `is_descendent_of(..)?`, a client error converted by `From<E>`. -/
def liftClient {α : Type} (r : Except E α) : AuthM Id H N E α :=
  match r with
  | .ok a => pure a
  | .error e => throw (.client e)

/-- `add_standard_change`. -/
def addStandardChange (pending : PendingChange Id H N) (isDescendentOf : H → H → Except E Bool) :
    AuthM Id H N E Unit := do
  let _ ← withStandardChanges
    (ForkTree.«import» pending.canonHash pending.canonHeight pending isDescendentOf)

/-- The loop of `add_forced_change` over the changes already pending. -/
def checkForcedChanges (pending : PendingChange Id H N) (isDescendentOf : H → H → Except E Bool) :
    List (PendingChange Id H N) → AuthM Id H N E Unit
  | [] => pure ()
  | change :: rest => do
    if change.canonHash = pending.canonHash then throw .duplicateAuthoritySetChange
    if ← liftClient (isDescendentOf change.canonHash pending.canonHash) then
      throw .multiplePendingForcedAuthoritySetChanges
    checkForcedChanges pending isDescendentOf rest

/-- The key the forced changes are ordered by: effective number, then signal block. -/
def forcedKey (change : PendingChange Id H N) : N × N := (change.effectiveNumber, change.canonHeight)

/-- `add_forced_change`. -/
def addForcedChange (pending : PendingChange Id H N) (isDescendentOf : H → H → Except E Bool) :
    AuthM Id H N E Unit := do
  checkForcedChanges pending isDescendentOf (← get).pendingForcedChanges
  let key := forcedKey pending
  let s ← get
  -- `binary_search_by_key(&key, ..)` on the tuple order, `unwrap_or_else(|i| i)`
  let idx :=
    match Slice.binarySearchBy s.pendingForcedChanges
      (fun change => (compare (forcedKey change).1 key.1).then (compare (forcedKey change).2 key.2)) with
    | .ok i => i
    | .error i => i
  set { s with pendingForcedChanges := s.pendingForcedChanges.insertIdx idx pending }

/-- `add_pending_change`. -/
def addPendingChange (pending : PendingChange Id H N) (isDescendentOf : H → H → Except E Bool) :
    AuthM Id H N E Unit := do
  if invalidAuthorityList pending.nextAuthorities then throw .invalidAuthoritySet
  match pending.delayKind with
  | .best _ => addForcedChange pending isDescendentOf
  | .finalized => addStandardChange pending isDescendentOf

/-- The check of `apply_forced_changes` that no pending standard change the
forced one depends on is left, over the roots of the tree. -/
def checkStandardDependencies (change : PendingChange Id H N) (medianLastFinalized : N)
    (isDescendentOf : H → H → Except E Bool) : List (Node H N (PendingChange Id H N)) → Except (Error N E) Unit
  | [] => pure ()
  | root :: rest => do
    if root.data.effectiveNumber ≤ medianLastFinalized then
      if ← (isDescendentOf root.data.canonHash change.canonHash).mapError .client then
        throw (.forcedAuthoritySetChangeDependencyUnsatisfied root.data.effectiveNumber)
    checkStandardDependencies change medianLastFinalized isDescendentOf rest

/-- The loop of `apply_forced_changes` over the changes due at `best_number`;
`none` where `unreachable!` panics. -/
def applyForcedLoop (s : AuthoritySet Id H N) (bestHash : H) (isDescendentOf : H → H → Except E Bool) :
    List (PendingChange Id H N) → Option (Except (Error N E) (Option (N × AuthoritySet Id H N)))
  | [] => some (.ok none)
  | change :: rest =>
    match (if change.canonHash = bestHash then .ok true else isDescendentOf change.canonHash bestHash) with
    | .error e => some (.error (.client e))
    | .ok false => applyForcedLoop s bestHash isDescendentOf rest
    | .ok true =>
      match change.delayKind with
      | .finalized => none
      | .best medianLastFinalized =>
        some do
          checkStandardDependencies change medianLastFinalized isDescendentOf s.pendingStandardChanges.roots
          -- the new set records where the old one ended: the median, as it is
          pure (some (medianLastFinalized,
            { currentAuthorities := change.nextAuthorities
              setId := s.setId + 1
              pendingStandardChanges := ForkTree.new
              pendingForcedChanges := []
              authoritySetChanges := s.authoritySetChanges.append s.setId medianLastFinalized }))

/-- `apply_forced_changes`: the set a forced change due at the best block
leads to, if any. -/
def applyForcedChanges (s : AuthoritySet Id H N) (bestHash : H) (bestNumber : N)
    (isDescendentOf : H → H → Except E Bool) : Option (Except (Error N E) (Option (N × AuthoritySet Id H N))) :=
  applyForcedLoop s bestHash isDescendentOf
    ((s.pendingForcedChanges.takeWhile fun c => c.effectiveNumber ≤ bestNumber).filter
      fun c => c.effectiveNumber = bestNumber)

/-- The loop of `apply_standard_changes` that puts back the forced changes
later than the finalized block and on its branch. -/
def retainForcedChanges (finalizedHash : H) (finalizedNumber : N) (isDescendentOf : H → H → Except E Bool) :
    List (PendingChange Id H N) → AuthM Id H N E Unit
  | [] => pure ()
  | change :: rest => do
    if change.effectiveNumber > finalizedNumber then
      if ← liftClient (isDescendentOf finalizedHash change.canonHash) then
        modify fun s => { s with pendingForcedChanges := s.pendingForcedChanges ++ [change] }
    retainForcedChanges finalizedHash finalizedNumber isDescendentOf rest

/-- `apply_standard_changes`. -/
def applyStandardChanges (finalizedHash : H) (finalizedNumber : N) (isDescendentOf : H → H → Except E Bool) :
    AuthM Id H N E (Status H N) := do
  let result ← withStandardChanges
    (ForkTree.finalizeWithDescendentIf finalizedHash finalizedNumber isDescendentOf
      fun change => decide (change.effectiveNumber ≤ finalizedNumber))
  match result with
  | .changed change =>
    let pendingForcedChanges := (← get).pendingForcedChanges
    modify fun s => { s with pendingForcedChanges := [] }
    retainForcedChanges finalizedHash finalizedNumber isDescendentOf pendingForcedChanges
    match change with
    | some change =>
      modify fun s =>
        { s with
          authoritySetChanges := s.authoritySetChanges.append s.setId finalizedNumber
          currentAuthorities := change.nextAuthorities
          setId := s.setId + 1 }
      pure ⟨true, some (finalizedHash, finalizedNumber)⟩
    | none => pure ⟨true, none⟩
  | .unchanged => pure ⟨false, none⟩

/-- A step of the import pipeline on the authority set: a change signalled,
a block finalized, or a best block that may enact a forced change.  A call
that returns `Err` leaves the set as it was. -/
inductive Op (Id H N : Type)
  | addPendingChange (pending : PendingChange Id H N)
  | applyStandardChanges (finalizedHash : H) (finalizedNumber : N)
  | applyForcedChanges (bestHash : H) (bestNumber : N)

/-- The set after one step. -/
def Op.apply (isDescendentOf : H → H → Except E Bool) (s : AuthoritySet Id H N) : Op Id H N → AuthoritySet Id H N
  | .addPendingChange pending =>
    match FinalityGrandpa.addPendingChange pending isDescendentOf s with
    | .ok _ s' => s'
    | .error _ _ => s
  | .applyStandardChanges finalizedHash finalizedNumber =>
    match FinalityGrandpa.applyStandardChanges finalizedHash finalizedNumber isDescendentOf s with
    | .ok _ s' => s'
    | .error _ _ => s
  | .applyForcedChanges bestHash bestNumber =>
    match FinalityGrandpa.applyForcedChanges s bestHash bestNumber isDescendentOf with
    | some (.ok (some (_, s'))) => s'
    | _ => s

end Calls

/-! ## A forced change after a standard one -/

/-- The set `AuthoritySet::genesis` builds for one authority. -/
def genesisSet : AuthoritySet Nat Nat Nat := ⟨[(7, 1)], 0, ForkTree.new, [], ⟨[]⟩⟩

/-- On one chain, where block `n` has number `n`: a standard change signalled
at 5 with delay 5, block 10 finalized, then a forced change signalled at 12
with delay 0 whose `median_last_finalized` is 5, enacted at block 12. -/
def standardThenForced : List (Op Nat Nat Nat) :=
  [.addPendingChange ⟨[(8, 1)], 5, 5, 5, .finalized⟩, .applyStandardChanges 10 10,
    .addPendingChange ⟨[(9, 1)], 0, 12, 12, .best 5⟩, .applyForcedChanges 12 12]

theorem forced_change_unsorts_set_changes :
    AuthoritySet.genesis [(7, 1)] = some genesisSet ∧
      (standardThenForced.foldl (Op.apply (exactOracle (E := Unit) natBranch)) genesisSet).authoritySetChanges =
        ⟨[(0, 10), (1, 5)]⟩ ∧
      (standardThenForced.foldl (Op.apply (exactOracle (E := Unit) natBranch)) genesisSet).authoritySetChanges.getSetId 7 =
        .latest := by
  refine ⟨rfl, by decide +kernel, by decide +kernel⟩

end FinalityGrandpa
