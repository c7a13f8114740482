import CherryNode.Lib.OrdMap
import CherryNode.Lib.Bitmask

/-!
# `NonCanonicalOverlay`: the window of blocks not yet canonical

A model of `client/state-db/src/noncanonical.rs`.  Level by level from the
block after the last canonicalized one, the overlay keeps each inserted block's
hash, journal index in its level (a bit of `used_indicies`), journal key, and
the keys it inserted and deleted.  `values` counts the overlays inserting each
key, `parents` holds each block's parent, and `pinned_insertions` the keys of
blocks discarded while pinned.

`HashMap`s are ordered maps, as nothing depends on their order; `VecDeque`s and
`Vec`s are lists.  Each `expect`, `debug_assert!` and panicking index ends the
call with a `Panic`, as in a debug build.  Counters are `Nat`: a `u32` would
need four billion overlays to overflow.
-/

namespace StateDb

/-- `state_db::Error`, as far as the overlay returns it. -/
inductive Error
  | invalidBlock
  | invalidBlockNumber
  | invalidParent
  | tooManySiblingBlocks
  deriving DecidableEq, Repr

/-- What ends a call of the overlay early. -/
inductive Panic
  /-- "there is a parent entry for each entry in levels; qed" -/
  | parentEntry
  /-- "For each key in overlays there's a value in values" -/
  | missingValue
  /-- `debug_assert!(false, "Trying to discard missing value")` -/
  | discardMissing
  /-- `*counter -= 1` on a zero value counter -/
  | counterUnderflow
  /-- the `debug_assert!` of `insert_values`: a key inserted again with another value -/
  | valueMismatch
  /-- the other `expect`s, `debug_assert!`s and indexing of the code -/
  | other
  deriving DecidableEq, Repr

/-- `ChangeSet`: keys inserted with their values, and keys deleted. -/
structure ChangeSet (K V : Type) where
  inserted : List (K × V)
  deleted : List K

def ChangeSet.empty {K V : Type} : ChangeSet K V := ⟨[], []⟩

/-- The keys the overlay writes in the meta column: `to_journal_key(block, index)` and
`to_meta_key(LAST_CANONICAL, &())`. -/
inductive MetaKey
  | journal (block index : Nat)
  | lastCanonical
  deriving DecidableEq, Repr

/-- `JournalRecord`: what `insert` writes for a block. -/
structure JournalRecord (H K V : Type) where
  hash : H
  parentHash : H
  inserted : List (K × V)
  deleted : List K

/-- The values of the meta column, decoded. -/
inductive MetaValue (H K V : Type)
  | journal (record : JournalRecord H K V)
  | lastCanonical (hash : H) (number : Nat)

/-- `CommitSet`: the changes of the data and of the meta column. -/
structure CommitSet (H K V : Type) where
  data : ChangeSet K V
  «meta» : ChangeSet MetaKey (MetaValue H K V)

def CommitSet.empty {H K V : Type} : CommitSet H K V := ⟨.empty, .empty⟩

/-- `BlockOverlay`. -/
structure BlockOverlay (H K : Type) where
  hash : H
  journalIndex : Nat
  journalKey : MetaKey
  inserted : List K
  deleted : List K

/-- `OverlayLevel`: the blocks of one number, and the journal indices they use. -/
structure OverlayLevel (H K : Type) where
  blocks : List (BlockOverlay H K)
  usedIndicies : UInt64

/-- `MAX_BLOCKS_PER_LEVEL`. -/
def maxBlocksPerLevel : Nat := 32

namespace OverlayLevel

variable {H K : Type}

/-- `OverlayLevel::new`. -/
def new : OverlayLevel H K := ⟨[], 0⟩

/-- `OverlayLevel::push`. -/
def push (level : OverlayLevel H K) (overlay : BlockOverlay H K) : OverlayLevel H K :=
  ⟨level.blocks ++ [overlay], level.usedIndicies ||| Bitmask.bit overlay.journalIndex⟩

/-- `OverlayLevel::available_index`. -/
def availableIndex (level : OverlayLevel H K) : Nat := Bitmask.trailingOnes level.usedIndicies

/-- `OverlayLevel::remove`: the overlay at `index`, taken out with its journal
index freed; `none` where `Vec::remove` panics. -/
def remove (level : OverlayLevel H K) (index : Nat) : Option (BlockOverlay H K × OverlayLevel H K) :=
  level.blocks[index]?.map fun overlay =>
    (overlay, ⟨level.blocks.eraseIdx index, level.usedIndicies &&& ~~~Bitmask.bit overlay.journalIndex⟩)

end OverlayLevel

/-- `NonCanonicalOverlay`. -/
structure NonCanonicalOverlay (H K V : Type) [LinearOrder H] [LinearOrder K] where
  lastCanonicalized : Option (H × Nat)
  levels : List (OverlayLevel H K)
  parents : OrdMap H H
  pendingCanonicalizations : List H
  pendingInsertions : List H
  values : OrdMap K (Nat × V)
  pinned : OrdMap H Nat
  pinnedInsertions : OrdMap H (List K × Nat)

/-- What discarding blocks changes beside the levels: `values`, `parents` and
`pinned_insertions`. -/
structure Discard (H K V : Type) [LinearOrder H] [LinearOrder K] where
  values : OrdMap K (Nat × V)
  parents : OrdMap H H
  pinnedInsertions : OrdMap H (List K × Nat)

variable {H K V : Type} [LinearOrder H] [LinearOrder K] [DecidableEq V]

attribute [local instance] OrdMap.lawfulBEq

/-! ## Values -/

/-- `insert_values`. -/
def insertValues (values : OrdMap K (Nat × V)) : List (K × V) → Except Panic (OrdMap K (Nat × V))
  | [] => .ok values
  | (k, v) :: inserted =>
    -- `debug_assert!(values.get(&k).map_or(true, |(_, value)| *value == v))`
    if (values.get? k).all (·.2 = v) then
      let entry := (values.get? k).getD (0, v)
      insertValues (values.insert k (entry.1 + 1, entry.2)) inserted
    else .error .valueMismatch

/-- `discard_values`. -/
def discardValues (values : OrdMap K (Nat × V)) : List K → Except Panic (OrdMap K (Nat × V))
  | [] => .ok values
  | k :: inserted =>
    match values.get? k with
    | none => .error .discardMissing
    | some (0, _) => .error .counterUnderflow
    | some (counter + 1, value) =>
      discardValues (if counter = 0 then values.erase k else values.insert k (counter, value)) inserted

/-! ## Discarding blocks -/

/-- `blocks.iter().position(|overlay| parents.get(&overlay.hash).expect(..) == hash)`. -/
def positionChild (parents : OrdMap H H) (hash : H) : List (BlockOverlay H K) → Except Panic (Option Nat)
  | [] => .ok none
  | overlay :: blocks =>
    match parents.get? overlay.hash with
    | none => .error .parentEntry
    | some parent =>
      if parent = hash then .ok (some 0) else (positionChild parents hash blocks).map (Option.map (· + 1))

/-- One more pinned block below, or the block itself pinned. -/
def withPinned (pinned : OrdMap H Nat) (overlay : BlockOverlay H K) (numPinned : Nat) : Nat :=
  if pinned.contains overlay.hash then numPinned + 1 else numPinned

/-- A block leaving the levels: kept in `pinned_insertions` while it or a block
below it is pinned, its values released and its parent forgotten otherwise. -/
def retire (overlay : BlockOverlay H K) (numPinned : Nat) (d : Discard H K V) : Except Panic (Discard H K V) :=
  if numPinned ≠ 0 then
    .ok { d with pinnedInsertions := d.pinnedInsertions.insert overlay.hash (overlay.inserted, numPinned) }
  else do
    let values ← discardValues d.values overlay.inserted
    pure { d with parents := d.parents.erase overlay.hash, values }

omit [LinearOrder H] [LinearOrder K] in
theorem remove_length {level level' : OverlayLevel H K} {index : Nat} {overlay : BlockOverlay H K}
    (h : level.remove index = some (overlay, level')) : level'.blocks.length < level.blocks.length := by
  simp only [OverlayLevel.remove, Option.map_eq_some_iff, Prod.mk.injEq] at h
  obtain ⟨o, ho, -, rfl⟩ := h
  have hi : index < level.blocks.length := (List.getElem?_eq_some_iff.mp ho).1
  simp [List.length_eraseIdx, hi]
  omega

/-- The `while let` loop of `discard_descendants` over the first level: each
child of `hash` is taken out, its own descendants discarded by `discardBelow`
from the levels below, and it is retired. -/
def discardLoop (pinned : OrdMap H Nat) (hash : H)
    (discardBelow : List (OverlayLevel H K) → Discard H K V → H →
      Except Panic (List (OverlayLevel H K) × Discard H K V × Nat))
    (level : OverlayLevel H K) (below : List (OverlayLevel H K)) (d : Discard H K V) (pinnedChildren : Nat) :
    Except Panic (OverlayLevel H K × List (OverlayLevel H K) × Discard H K V × Nat) :=
  match positionChild d.parents hash level.blocks with
  | .error e => .error e
  | .ok none => .ok (level, below, d, pinnedChildren)
  | .ok (some i) =>
    match _hremove : level.remove i with
    | none => .error .other
    | some (overlay, level') => do
      let (below, d, numPinned) ← discardBelow below d overlay.hash
      let numPinned := withPinned pinned overlay numPinned
      let d ← retire overlay numPinned d
      discardLoop pinned hash discardBelow level' below d (pinnedChildren + numPinned)
termination_by level.blocks.length
decreasing_by exact remove_length _hremove

/-- `discard_descendants`, over the levels from the next one down.  The code
splits the levels into a first one and the rest; `n` counts the levels, and is
their number wherever it is called. -/
def discardDescendants (pinned : OrdMap H Nat) :
    Nat → List (OverlayLevel H K) → Discard H K V → H →
      Except Panic (List (OverlayLevel H K) × Discard H K V × Nat)
  | 0, levels, d, _ => .ok (levels, d, 0)
  | _ + 1, [], d, _ => .ok ([], d, 0)
  | n + 1, level :: below, d, hash => do
    let (level, below, d, pinnedChildren) ← discardLoop pinned hash (discardDescendants pinned n) level below d 0
    pure (level :: below, d, pinnedChildren)

/-- `discard_journals`: the journal keys of the descendants of `hash` in the
levels given, each block's key before its own descendants'. -/
def discardJournals (parents : OrdMap H H) : List (OverlayLevel H K) → H → Except Panic (List MetaKey)
  | [], _ => .ok []
  | level :: levels, hash =>
    level.blocks.foldlM (fun discarded overlay => do
      let parent ← (parents.get? overlay.hash).elim (.error .parentEntry) .ok
      if parent = hash then
        let below ← discardJournals parents levels overlay.hash
        pure (discarded ++ overlay.journalKey :: below)
      else pure discarded) []

/-! ## The calls -/

namespace NonCanonicalOverlay

/-- `NonCanonicalOverlay::new` on a database with no meta data. -/
def empty : NonCanonicalOverlay H K V :=
  ⟨none, [], OrdMap.empty, [], [], OrdMap.empty, OrdMap.empty, OrdMap.empty⟩

/-- `front_block_number`. -/
def frontBlockNumber (s : NonCanonicalOverlay H K V) : Nat :=
  (s.lastCanonicalized.map fun c => c.2 + 1).getD 0

/-- The `Discard` parts of the overlay. -/
def discardParts (s : NonCanonicalOverlay H K V) : Discard H K V := ⟨s.values, s.parents, s.pinnedInsertions⟩

/-- The overlay with its `Discard` parts replaced. -/
def withDiscard (s : NonCanonicalOverlay H K V) (d : Discard H K V) : NonCanonicalOverlay H K V :=
  { s with values := d.values, parents := d.parents, pinnedInsertions := d.pinnedInsertions }

/-- The checks of `insert`: an error, or the `last_canonicalized` a first block
assumes for its parent. -/
def checkInsert (s : NonCanonicalOverlay H K V) (number : Nat) (parentHash : H) :
    Except Error (Option (H × Nat)) :=
  let front := s.frontBlockNumber
  if s.levels.isEmpty ∧ s.lastCanonicalized.isNone ∧ 0 < number then
    -- assume that parent was canonicalized
    .ok (some (parentHash, number - 1))
  else if s.lastCanonicalized.isSome then
    if number < front ∨ front + s.levels.length + 1 ≤ number then .error .invalidBlockNumber
    else if number = front then
      if s.lastCanonicalized = some (parentHash, number - 1) then .ok none else .error .invalidParent
    else if s.parents.contains parentHash then .ok none
    else .error .invalidParent
  else .ok none

/-- `NonCanonicalOverlay::insert`. -/
def insert (hash : H) (number : Nat) (parentHash : H) (changeset : ChangeSet K V)
    (s : NonCanonicalOverlay H K V) : Except Panic (Except Error (CommitSet H K V) × NonCanonicalOverlay H K V) :=
  let front := s.frontBlockNumber
  match s.checkInsert number parentHash with
  | .error e => .ok (.error e, s)
  | .ok assumed =>
    let (commit, s) := match assumed with
      | some lastCanonicalized =>
        ((⟨.empty, ⟨[(.lastCanonical, .lastCanonical lastCanonicalized.1 lastCanonicalized.2)], []⟩⟩ :
          CommitSet H K V), { s with lastCanonicalized })
      | none => (CommitSet.empty, s)
    -- a new level at the top, or the level of `number` below it
    let levelIndex := if s.levels.isEmpty ∨ number = front + s.levels.length then s.levels.length else number - front
    let levels := if levelIndex = s.levels.length then s.levels ++ [OverlayLevel.new] else s.levels
    match levels[levelIndex]? with
    | none => .error .other
    | some level =>
      if maxBlocksPerLevel ≤ level.blocks.length then .ok (.error .tooManySiblingBlocks, { s with levels })
      else
        let index := level.availableIndex
        let journalKey := MetaKey.journal number index
        let overlay : BlockOverlay H K :=
          ⟨hash, index, journalKey, changeset.inserted.map Prod.fst, changeset.deleted⟩
        let record : JournalRecord H K V := ⟨hash, parentHash, changeset.inserted, changeset.deleted⟩
        let commit := { commit with «meta» := { commit.«meta» with
          inserted := commit.«meta».inserted ++ [(journalKey, .journal record)] } }
        match insertValues s.values changeset.inserted with
        | .error e => .error e
        | .ok values =>
          .ok (.ok commit, { s with
            levels := levels.set levelIndex (level.push overlay),
            parents := s.parents.insert hash parentHash,
            values,
            pendingInsertions := s.pendingInsertions ++ [hash] })

/-- The journal keys `canonicalize` deletes: for every block of the level, the
keys of its descendants unless it is the one canonicalized, then its own. -/
def canonicalJournals (parents : OrdMap H H) (below : List (OverlayLevel H K)) (index : Nat) :
    List (BlockOverlay H K × Nat) → Except Panic (List MetaKey)
  | [] => .ok []
  | (overlay, i) :: rest => do
    let descendants ← if i ≠ index then discardJournals parents below overlay.hash else pure []
    let others ← canonicalJournals parents below index rest
    pure (descendants ++ overlay.journalKey :: others)

/-- `NonCanonicalOverlay::canonicalize`: the block is queued, and `commit`
receives its values, the deletion of the journals of the level and of the
other blocks' descendants, and the new `LAST_CANONICAL`. -/
def canonicalize (hash : H) (commit : CommitSet H K V) (s : NonCanonicalOverlay H K V) :
    Except Panic (Except Error (CommitSet H K V) × NonCanonicalOverlay H K V) :=
  match s.levels[s.pendingCanonicalizations.length]? with
  | none => .ok (.error .invalidBlock, s)
  | some level =>
    match level.blocks.findIdx? (·.hash = hash), level.blocks.find? (·.hash = hash) with
    | some index, some overlay => do
      let discarded ← canonicalJournals s.parents (s.levels.drop (s.pendingCanonicalizations.length + 1)) index
        level.blocks.zipIdx
      let inserted ← overlay.inserted.mapM fun k =>
        ((s.values.get? k).elim (.error .missingValue) fun entry => .ok (k, entry.2) : Except Panic (K × V))
      let canonicalized := (hash, s.frontBlockNumber + s.pendingCanonicalizations.length)
      pure (.ok ⟨⟨commit.data.inserted ++ inserted, commit.data.deleted ++ overlay.deleted⟩,
          ⟨commit.«meta».inserted ++ [(.lastCanonical, .lastCanonical canonicalized.1 canonicalized.2)],
            commit.«meta».deleted ++ discarded⟩⟩,
        { s with pendingCanonicalizations := s.pendingCanonicalizations ++ [hash] })
    | _, _ => .ok (.error .invalidBlock, s)

/-- One block of a canonicalized level: the canonical one is retired, the
others with their descendants. -/
def retireLevelBlock (pinned : OrdMap H Nat) (index : Nat)
    (st : List (OverlayLevel H K) × Discard H K V) (entry : BlockOverlay H K × Nat) :
    Except Panic (List (OverlayLevel H K) × Discard H K V) := do
  let (levels, d) := st
  let (overlay, i) := entry
  let (levels, d, pinnedChildren) ←
    if i ≠ index then discardDescendants pinned levels.length levels d overlay.hash else pure (levels, d, 0)
  let d ← retire overlay (withPinned pinned overlay pinnedChildren) d
  pure (levels, d)

/-- One queued canonicalization: the first level is dropped, block by block. -/
def applyCanonicalization (pinned : OrdMap H Nat) (st : List (OverlayLevel H K) × Discard H K V) (hash : H) :
    Except Panic (List (OverlayLevel H K) × Discard H K V) :=
  match st.1 with
  | [] => .error .other
  | level :: levels =>
    match level.blocks.findIdx? (·.hash = hash) with
    | none => .error .other
    | some index => level.blocks.zipIdx.foldlM (retireLevelBlock pinned index) (levels, st.2)

/-- `apply_canonicalizations`. -/
def applyCanonicalizations (s : NonCanonicalOverlay H K V) : Except Panic (NonCanonicalOverlay H K V) := do
  let count := s.pendingCanonicalizations.length
  let (levels, d) ← s.pendingCanonicalizations.foldlM (applyCanonicalization s.pinned) (s.levels, s.discardParts)
  let s' := { (s.withDiscard d) with levels, pendingCanonicalizations := [] }
  match s.pendingCanonicalizations.getLast? with
  | none => pure s'
  | some hash =>
    let number := (s.lastCanonicalized.map fun c => c.2 + count).getD (count - 1)
    pure { s' with lastCanonicalized := some (hash, number) }

/-- `revert_one`. -/
def revertOne (s : NonCanonicalOverlay H K V) :
    Except Panic (Option (CommitSet H K V) × NonCanonicalOverlay H K V) :=
  match s.levels.getLast? with
  | none => .ok (none, s)
  | some level => do
    let (deleted, parents, values) ← level.blocks.foldlM
      (fun (acc : List MetaKey × OrdMap H H × OrdMap K (Nat × V)) overlay => do
        let values ← discardValues acc.2.2 overlay.inserted
        pure (acc.1 ++ [overlay.journalKey], acc.2.1.erase overlay.hash, values))
      ([], s.parents, s.values)
    pure (some ⟨.empty, ⟨[], deleted⟩⟩, { s with levels := s.levels.dropLast, parents, values })

/-- The loop of `remove` over the levels from the top: the last level holding
the block, and the block's position there. -/
def lastLevelWith (hash : H) (levels : List (OverlayLevel H K)) : Option (Nat × Nat) :=
  (List.range levels.length).reverse.findSome? fun levelIndex =>
    (levels[levelIndex]?.bind fun level => level.blocks.findIdx? (·.hash = hash)).map (levelIndex, ·)

/-- `if self.levels.back().map_or(false, |l| l.blocks.is_empty()) { self.levels.pop_back(); }` -/
def popEmptyBack (levels : List (OverlayLevel H K)) : List (OverlayLevel H K) :=
  if (levels.getLast?.map (·.blocks.isEmpty)).getD false then levels.dropLast else levels

/-- `NonCanonicalOverlay::remove`. -/
def remove (hash : H) (s : NonCanonicalOverlay H K V) :
    Except Panic (Option (CommitSet H K V) × NonCanonicalOverlay H K V) :=
  match lastLevelWith hash s.levels with
  | none => .ok (none, { s with levels := popEmptyBack s.levels })
  | some (levelIndex, index) =>
    -- a block below the top level with children stays
    if levelIndex ≠ s.levels.length - 1 ∧ s.parents.toList.any (·.2 = hash) then .ok (none, s)
    else
      match s.levels[levelIndex]?.bind (·.remove index) with
      | none => .error .other
      | some (overlay, level) => do
        let values ← discardValues s.values overlay.inserted
        pure (some ⟨.empty, ⟨[], [overlay.journalKey]⟩⟩,
          { s with levels := popEmptyBack (s.levels.set levelIndex level),
                   parents := s.parents.erase overlay.hash, values })

/-- `levels.iter().position(|level| level.blocks.last().expect(..).hash == hash)`. -/
def positionLastIs (hash : H) : List (OverlayLevel H K) → Except Panic (Option Nat)
  | [] => .ok none
  | level :: levels =>
    match level.blocks.getLast? with
    | none => .error .other
    | some overlay =>
      if overlay.hash = hash then .ok (some 0) else (positionLastIs hash levels).map (Option.map (· + 1))

/-- One round of `revert_insertions`: the block, last in its level, is taken
out again. -/
def revertInsertion (s : NonCanonicalOverlay H K V) (hash : H) : Except Panic (NonCanonicalOverlay H K V) := do
  let parents := s.parents.erase hash
  let levelIndex ← (← positionLastIs hash s.levels).elim (.error .other) .ok
  match s.levels[levelIndex]?.bind fun level => level.remove (level.blocks.length - 1) with
  | none => .error .other
  | some (overlay, level) =>
    let values ← discardValues s.values overlay.inserted
    let levels := s.levels.set levelIndex level
    if level.blocks.isEmpty then
      -- `debug_assert_eq!(level_index, self.levels.len() - 1)`
      if levelIndex = levels.length - 1 then pure { s with levels := levels.dropLast, parents, values }
      else .error .other
    else pure { s with levels, parents, values }

/-- `apply_pending`. -/
def applyPending (s : NonCanonicalOverlay H K V) : Except Panic (NonCanonicalOverlay H K V) := do
  let s ← s.applyCanonicalizations
  pure { s with pendingInsertions := [] }

/-- `revert_pending`. -/
def revertPending (s : NonCanonicalOverlay H K V) : Except Panic (NonCanonicalOverlay H K V) :=
  s.pendingInsertions.reverse.foldlM revertInsertion { s with pendingCanonicalizations := [], pendingInsertions := [] }

/-- `pin`: a block whose insertion is pending is not pinned. -/
def pin (hash : H) (s : NonCanonicalOverlay H K V) : NonCanonicalOverlay H K V :=
  if hash ∈ s.pendingInsertions then s
  else { s with pinned := s.pinned.insert hash ((s.pinned.get? hash).getD 0 + 1) }

/-- The count a `pinned_insertions` entry holds. -/
def heldPins (pinnedInsertions : OrdMap H (List K × Nat)) : Nat :=
  (pinnedInsertions.toList.map fun e => e.2.2).sum

variable {pinnedInsertions : OrdMap H (List K × Nat)} {hash : H} {count : Nat}

omit [LinearOrder K] in
theorem heldPins_insert_lt {inserted inserted' : List K}
    (h : pinnedInsertions.get? hash = some (inserted, count + 1)) :
    heldPins (pinnedInsertions.insert hash (inserted', count)) < heldPins pinnedInsertions := by
  have herase := OrdMap.sum_values_erase pinnedInsertions hash fun e => e.2
  rw [h] at herase
  simp only [heldPins, OrdMap.sum_values_insert]
  simp only [Option.map_some, Option.getD_some] at herase
  omega

omit [LinearOrder K] in
theorem heldPins_erase_lt {inserted : List K}
    (h : pinnedInsertions.get? hash = some (inserted, count + 1)) :
    heldPins (pinnedInsertions.erase hash) < heldPins pinnedInsertions := by
  have herase := OrdMap.sum_values_erase pinnedInsertions hash fun e => e.2
  rw [h] at herase
  simp only [heldPins]
  simp only [Option.map_some, Option.getD_some] at herase
  omega

/-- The walk of `unpin` up the parents: each block kept for pinned blocks below
it gives up one, and is released when none is left. -/
def unpinWalk (parent : Option H) (d : Discard H K V) : Except Panic (Discard H K V) :=
  match parent with
  | none => .ok d
  | some hash =>
    match _hentry : d.pinnedInsertions.get? hash with
    | none => .ok d
    | some (_, 0) => .error .other
    | some (inserted, count + 1) =>
      if count = 0 then do
        let values ← discardValues d.values inserted
        unpinWalk (d.parents.get? hash)
          ⟨values, d.parents.erase hash, d.pinnedInsertions.erase hash⟩
      else unpinWalk (d.parents.get? hash) { d with pinnedInsertions := d.pinnedInsertions.insert hash (inserted, count) }
termination_by heldPins d.pinnedInsertions
decreasing_by
  · exact heldPins_erase_lt _hentry
  · exact heldPins_insert_lt _hentry

/-- `unpin`. -/
def unpin (hash : H) (s : NonCanonicalOverlay H K V) : Except Panic (NonCanonicalOverlay H K V) :=
  match s.pinned.get? hash with
  | none => .ok s
  | some 0 => .error .other
  | some (refs + 1) =>
    if refs = 0 then do
      let s := { s with pinned := s.pinned.erase hash }
      let d ← unpinWalk (some hash) s.discardParts
      pure (s.withDiscard d)
    else .ok { s with pinned := s.pinned.insert hash refs }

end NonCanonicalOverlay

/-- The calls on the overlay. -/
inductive Op (H K V : Type)
  | insert (hash : H) (number : Nat) (parentHash : H) (changeset : ChangeSet K V)
  | canonicalize (hash : H)
  | applyPending
  | revertPending
  | pin (hash : H)
  | unpin (hash : H)
  | remove (hash : H)
  | revertOne

/-- One call, its result dropped: `canonicalize` is given an empty commit set. -/
def Op.apply (s : NonCanonicalOverlay H K V) : Op H K V → Except Panic (NonCanonicalOverlay H K V)
  | .insert hash number parentHash changeset => (s.insert hash number parentHash changeset).map (·.2)
  | .canonicalize hash => (s.canonicalize hash .empty).map (·.2)
  | .applyPending => s.applyPending
  | .revertPending => s.revertPending
  | .pin hash => .ok (s.pin hash)
  | .unpin hash => s.unpin hash
  | .remove hash => (s.remove hash).map (·.2)
  | .revertOne => s.revertOne.map (·.2)

end StateDb
