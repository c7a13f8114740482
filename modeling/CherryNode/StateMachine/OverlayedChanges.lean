import Mathlib
import CherryNode.StateMachine.Changeset

/-!
# `OverlayedChanges`: the change sets a block's execution writes

Three kinds of change set move together: the top one, one per child trie
(spawned from the top one on the trie's first write, at its depth and mode),
and the offchain overlay.  A transaction call or runtime switch goes to the top
change set first, its error the call's; the others then make the same call
under an `expect` of lockstep.  A rollback drops the child change sets it
leaves empty.  Keys and values are `K` and `W`; the offchain overlay is keyed
by prefix and key.  `extrinsic_index()` is the `x` passed to each write,
`key.starts_with(prefix)` is `hasPrefix`, `ChildInfo` and the statistics are
left out, and a panic is `none`.
-/

namespace StateMachine

/-- `OffchainOverlayedChange`. -/
inductive OffchainOverlayedChange (W : Type)
  | remove
  | setValue (value : W)
  deriving DecidableEq, Repr

/-- `OverlayedChanges`: the top change set, the child tries' by storage key,
and the offchain overlay. -/
structure OverlayedChanges (K W : Type) [LinearOrder K] where
  top : OverlayedMap K (Option W)
  children : OrdMap K (OverlayedMap K (Option W))
  offchain : OverlayedMap (K ×ₗ K) (OffchainOverlayedChange W)

namespace OverlayedChanges

variable {K W : Type} [LinearOrder K]

instance : Inhabited (OverlayedChanges K W) := ⟨⟨default, OrdMap.empty, default⟩⟩

/-- `transaction_depth`: the top change set's. -/
def transactionDepth (o : OverlayedChanges K W) : Nat := o.top.transactionDepth

/-- `set_storage`. -/
def setStorage (o : OverlayedChanges K W) (key : K) (val : Option W) (x : Option Nat) : OverlayedChanges K W :=
  { o with top := o.top.set key val x }

/-- A write to the change set of a child trie, spawned from the top one when
the trie has none (`entry(..).or_insert_with(|| top.spawn_child())`). -/
def withChild (o : OverlayedChanges K W) (storageKey : K)
    (write : OverlayedMap K (Option W) → OverlayedMap K (Option W)) : OverlayedChanges K W :=
  { o with children := o.children.insert storageKey (write ((o.children.get? storageKey).getD o.top.spawnChild)) }

/-- `set_child_storage`. -/
def setChildStorage (o : OverlayedChanges K W) (storageKey key : K) (val : Option W) (x : Option Nat) :
    OverlayedChanges K W :=
  o.withChild storageKey fun changeset => changeset.set key val x

/-- `clear_child_storage`. -/
def clearChildStorage (o : OverlayedChanges K W) (storageKey : K) (x : Option Nat) : OverlayedChanges K W :=
  o.withChild storageKey fun changeset => changeset.clearWhere (fun _ _ => true) x

/-- `clear_prefix`. -/
def clearPrefix (o : OverlayedChanges K W) (hasPrefix : K → Bool) (x : Option Nat) : OverlayedChanges K W :=
  { o with top := o.top.clearWhere (fun key _ => hasPrefix key) x }

/-- `clear_child_prefix`. -/
def clearChildPrefix (o : OverlayedChanges K W) (storageKey : K) (hasPrefix : K → Bool) (x : Option Nat) :
    OverlayedChanges K W :=
  o.withChild storageKey fun changeset => changeset.clearWhere (fun key _ => hasPrefix key) x

/-- `set_offchain_storage` under the prefix `storagePrefix`: a value is set,
`None` removes. -/
def setOffchainStorage (o : OverlayedChanges K W) (storagePrefix key : K) (value : Option W) :
    OverlayedChanges K W :=
  let change := match value with
    | some value => OffchainOverlayedChange.setValue value
    | none => .remove
  { o with offchain := o.offchain.set (toLex (storagePrefix, key)) change none }

/-- `start_transaction`. -/
def startTransaction (o : OverlayedChanges K W) : OverlayedChanges K W :=
  ⟨o.top.startTransaction, o.children.mapValues (·.startTransaction), o.offchain.startTransaction⟩

/-- `rollback_transaction`: the top change set decides; every child change
set rolls back (`expect`) and is dropped if then empty (`retain_map`). -/
def rollbackTransaction (o : OverlayedChanges K W) : Option (Except NoOpenTransaction (OverlayedChanges K W)) :=
  match o.top.rollbackTransaction with
  | none => none
  | some (.error e) => some (.error e)
  | some (.ok top) => do
    let children ← o.children.filterMapM fun _ changeset =>
      (changeset.rollbackTransaction.bind Except.toOption).map fun changeset =>
        if changeset.isEmpty then none else some changeset
    let offchain ← o.offchain.rollbackTransaction.bind Except.toOption
    pure (.ok ⟨top, children, offchain⟩)

/-- `commit_transaction`. -/
def commitTransaction (o : OverlayedChanges K W) : Option (Except NoOpenTransaction (OverlayedChanges K W)) :=
  match o.top.commitTransaction with
  | none => none
  | some (.error e) => some (.error e)
  | some (.ok top) => do
    let children ← o.children.filterMapM fun _ changeset =>
      (changeset.commitTransaction.bind Except.toOption).map some
    let offchain ← o.offchain.commitTransaction.bind Except.toOption
    pure (.ok ⟨top, children, offchain⟩)

/-- `enter_runtime`. -/
def enterRuntime (o : OverlayedChanges K W) : Option (Except AlreadyInRuntime (OverlayedChanges K W)) :=
  match o.top.enterRuntime with
  | .error e => some (.error e)
  | .ok top => do
    let children ← o.children.filterMapM fun _ changeset => changeset.enterRuntime.toOption.map some
    let offchain ← o.offchain.enterRuntime.toOption
    pure (.ok ⟨top, children, offchain⟩)

/-- `exit_runtime`. -/
def exitRuntime (o : OverlayedChanges K W) : Option (Except NotInRuntime (OverlayedChanges K W)) :=
  match o.top.exitRuntime with
  | none => none
  | some (.error e) => some (.error e)
  | some (.ok top) => do
    let children ← o.children.filterMapM fun _ changeset =>
      (changeset.exitRuntime.bind Except.toOption).map some
    let offchain ← o.offchain.exitRuntime.bind Except.toOption
    pure (.ok ⟨top, children, offchain⟩)

end OverlayedChanges

/-- The calls of a run on `OverlayedChanges`. -/
inductive ChangesOp (K W : Type)
  | setStorage (key : K) (val : Option W) (x : Option Nat)
  | setChildStorage (storageKey key : K) (val : Option W) (x : Option Nat)
  | clearChildStorage (storageKey : K) (x : Option Nat)
  | clearPrefix (hasPrefix : K → Bool) (x : Option Nat)
  | clearChildPrefix (storageKey : K) (hasPrefix : K → Bool) (x : Option Nat)
  | setOffchainStorage (storagePrefix key : K) (value : Option W)
  | startTransaction
  | commitTransaction
  | rollbackTransaction
  | enterRuntime
  | exitRuntime

/-- One call; `none` when it panics.  A call that returns an error leaves
`OverlayedChanges` as it was. -/
def ChangesOp.apply {K W : Type} [LinearOrder K] (o : OverlayedChanges K W) :
    ChangesOp K W → Option (OverlayedChanges K W)
  | .setStorage key val x => some (o.setStorage key val x)
  | .setChildStorage storageKey key val x => some (o.setChildStorage storageKey key val x)
  | .clearChildStorage storageKey x => some (o.clearChildStorage storageKey x)
  | .clearPrefix hasPrefix x => some (o.clearPrefix hasPrefix x)
  | .clearChildPrefix storageKey hasPrefix x => some (o.clearChildPrefix storageKey hasPrefix x)
  | .setOffchainStorage storagePrefix key value => some (o.setOffchainStorage storagePrefix key value)
  | .startTransaction => some o.startTransaction
  | .commitTransaction => o.commitTransaction.map fun r => r.toOption.getD o
  | .rollbackTransaction => o.rollbackTransaction.map fun r => r.toOption.getD o
  | .enterRuntime => o.enterRuntime.map fun r => r.toOption.getD o
  | .exitRuntime => o.exitRuntime.map fun r => r.toOption.getD o

end StateMachine
