import Mathlib
import CherryNode.Lib.OrdMap
import CherryNode.ForkTree.Basic

/-!
# `EpochChanges`: the epochs announced on each fork

A model of `client/consensus/epochs`.  `EpochChanges` keeps each announced
epoch twice: its header (start and end slot) as the data of a node of the fork
tree `inner`, and the whole epoch in the map `epochs`, under the block's hash
and number.  `import` writes both, also when the tree refuses the block as a
duplicate; `prune_finalized` prunes the tree and removes from the map what the
tree's `RemovedIterator` yields; `reset` starts both again from two blocks.

`is_descendent_of` comes from an `IsDescendentOfBuilder`, which is handed the
block being imported and its parent, as the block is not stored yet.
-/

namespace Epochs

open EStateRun

/-- `Epoch`: what the fork tree keeps of an epoch is its slots. -/
class Epoch (E : Type) (Slot : outParam Type) where
  startSlot : E → Slot
  endSlot : E → Slot

/-- `EpochHeader`: the slots `start_slot .. end_slot` of an epoch. -/
structure EpochHeader (Slot : Type) where
  startSlot : Slot
  endSlot : Slot
  deriving DecidableEq

/-- `From<&E> for EpochHeader<E>`. -/
def EpochHeader.of {E Slot : Type} [Epoch E Slot] (epoch : E) : EpochHeader Slot :=
  ⟨Epoch.startSlot epoch, Epoch.endSlot epoch⟩

/-- `PersistedEpoch`: the two epochs of genesis, or a regular one. -/
inductive PersistedEpoch (E : Type)
  | genesis (epoch0 epoch1 : E)
  | regular (epochN : E)
  deriving DecidableEq

/-- `PersistedEpochHeader`, stored in the fork tree. -/
inductive PersistedEpochHeader (Slot : Type)
  | genesis (epoch0 epoch1 : EpochHeader Slot)
  | regular (epochN : EpochHeader Slot)
  deriving DecidableEq

/-- `From<&PersistedEpoch<E>> for PersistedEpochHeader<E>`. -/
def PersistedEpochHeader.of {E Slot : Type} [Epoch E Slot] : PersistedEpoch E → PersistedEpochHeader Slot
  | .genesis epoch0 epoch1 => .genesis (.of epoch0) (.of epoch1)
  | .regular epochN => .regular (.of epochN)

/-- `EpochChanges`: the tree of epoch headers and the epochs, keyed by
`(hash, number)` in the order of `BTreeMap`. -/
structure EpochChanges (H N E Slot : Type) [LinearOrder H] [LinearOrder N] where
  inner : ForkTree.ForkTree H N (PersistedEpochHeader Slot)
  epochs : OrdMap (H ×ₗ N) (PersistedEpoch E)

/-- `IsDescendentOfBuilder::build_is_descendent_of`. -/
abbrev DescendentOfBuilder (H Err : Type) := Option (H × H) → H → H → Except Err Bool

/-- A call on `EpochChanges`; its errors are those of the fork tree. -/
abbrev ChangesM (H N E Slot Err α : Type) [LinearOrder H] [LinearOrder N] :=
  EStateM (ForkTree.Error Err) (EpochChanges H N E Slot) α

namespace EpochChanges

variable {H N E Slot Err : Type} [LinearOrder H] [LinearOrder N] [Epoch E Slot]

/-- `EpochChanges::new`. -/
def new : EpochChanges H N E Slot := ⟨ForkTree.ForkTree.new, OrdMap.empty⟩

/-- `EpochChanges::import`, given the epoch the `IncrementedEpoch` holds: the
map is written when the tree takes the block and also when it already has it. -/
def «import» (descendentOfBuilder : DescendentOfBuilder H Err) (hash : H) (number : N) (parentHash : H)
    (epoch : PersistedEpoch E) : ChangesM H N E Slot Err Unit := fun changes =>
  let isDescendentOf := descendentOfBuilder (some (hash, parentHash))
  let header := PersistedEpochHeader.of epoch
  match ForkTree.ForkTree.«import» hash number header isDescendentOf changes.inner with
  | .ok _ inner | .error .duplicate inner => .ok () ⟨inner, changes.epochs.insert (toLex (hash, number)) epoch⟩
  | .error e inner => .error e { changes with inner }

/-- The predicate of `prune_finalized`: the epoch announced at the node has
ended by `slot`. -/
def epochEnded [LinearOrder Slot] (slot : Slot) : PersistedEpochHeader Slot → Bool
  | .genesis _ epoch1 => decide (epoch1.endSlot ≤ slot)
  | .regular epochN => decide (epochN.endSlot ≤ slot)

/-- `EpochChanges::prune_finalized`: the epochs of the removed nodes leave the
map; an error of `prune` is returned before the map is touched. -/
def pruneFinalized [LinearOrder Slot] (descendentOfBuilder : DescendentOfBuilder H Err) (hash : H)
    (number : N) (slot : Slot) : ChangesM H N E Slot Err Unit := fun changes =>
  let isDescendentOf := descendentOfBuilder none
  match ForkTree.ForkTree.prune hash number isDescendentOf (epochEnded slot) changes.inner with
  | .ok removed inner =>
    .ok () ⟨inner, (ForkTree.ForkTree.removedItems removed).foldl
      (fun epochs (hash, number, _) => epochs.erase (toLex (hash, number))) changes.epochs⟩
  | .error e inner => .error e { changes with inner }

/-- `EpochChanges::reset`: both parts start again from `current`, announced at
`parent_hash`, and `next`, announced at `hash`.  The two imports' results are
dropped; their oracles answer without failing. -/
def reset [Sub N] [One N] (parentHash hash : H) (number : N) (current next : E) : EpochChanges H N E Slot :=
  let persisted := PersistedEpoch.regular current
  let inner := stateOf (ForkTree.ForkTree.«import» parentHash (number - 1) (PersistedEpochHeader.of persisted)
    (fun _ _ => (.ok false : Except Unit Bool)) ForkTree.ForkTree.new)
  let epochs := OrdMap.empty.insert (toLex (parentHash, number - 1)) persisted
  let persisted := PersistedEpoch.regular next
  let inner := stateOf (ForkTree.ForkTree.«import» hash number (PersistedEpochHeader.of persisted)
    (fun _ _ => (.ok true : Except Unit Bool)) inner)
  ⟨inner, epochs.insert (toLex (hash, number)) persisted⟩

end EpochChanges

/-- The calls that change `EpochChanges`. -/
inductive Op (H N E Slot : Type)
  | «import» (hash : H) (number : N) (parentHash : H) (epoch : PersistedEpoch E)
  | pruneFinalized (hash : H) (number : N) (slot : Slot)
  | reset (parentHash hash : H) (number : N) (current next : E)

variable {H N E Slot Err : Type} [LinearOrder H] [LinearOrder N] [Epoch E Slot] [LinearOrder Slot]
  [Sub N] [One N]

/-- One call, its result dropped: a failed call keeps the state it reached. -/
def Op.apply (descendentOfBuilder : DescendentOfBuilder H Err) (changes : EpochChanges H N E Slot) :
    Op H N E Slot → EpochChanges H N E Slot
  | .«import» hash number parentHash epoch =>
    stateOf (EpochChanges.«import» descendentOfBuilder hash number parentHash epoch changes)
  | .pruneFinalized hash number slot =>
    stateOf (EpochChanges.pruneFinalized descendentOfBuilder hash number slot changes)
  | .reset parentHash hash number current next => EpochChanges.reset parentHash hash number current next

end Epochs
