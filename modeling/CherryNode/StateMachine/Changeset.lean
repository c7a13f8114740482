import Mathlib
import CherryNode.Lib.OrdMap

/-!
# `OverlayedMap`: the transactional overlay of `sp-state-machine`

A change set keeps per key the versions written in the open transactions that
wrote it, plus one committed version if any (`OverlayedEntry`), and per open
transaction the set of keys it wrote (`dirty_keys`).  Closing a transaction
visits its set: a rollback drops their newest version, a commit merges it into
the one below when there is one, and otherwise lets it stand for the level
below.  The source's `SmallVec` stacks, read and written only at the end, are
lists newest first; a dirty set is a list without repeats, and closing does not
depend on the visiting order.  A failed `expect` is `none`.
-/

namespace StateMachine

/-- `Extrinsics`: the indices of the extrinsics that wrote a version, in the
order they were recorded. -/
structure Extrinsics where
  indices : List Nat
  deriving DecidableEq, Repr

instance : Inhabited Extrinsics := ⟨⟨[]⟩⟩

/-- `Extrinsics::insert`: an index equal to the last one is not repeated. -/
def Extrinsics.insert (e : Extrinsics) (ext : Nat) : Extrinsics :=
  if some ext ≠ e.indices.getLast? then ⟨e.indices ++ [ext]⟩ else e

/-- `Extrinsics::extend`. -/
def Extrinsics.extend (e other : Extrinsics) : Extrinsics := ⟨e.indices ++ other.indices⟩

/-- `Extrinsics::copy_extrinsics_into`. -/
def Extrinsics.copyExtrinsicsInto (e : Extrinsics) (dest : Finset Nat) : Finset Nat :=
  e.indices.foldl (fun set x => Insert.insert x set) dest

/-- `InnerValue<V>`: one version of a value. -/
structure InnerValue (V : Type) where
  value : V
  extrinsics : Extrinsics
  deriving DecidableEq, Repr

/-- `OverlayedEntry<V>`: the versions of one key, newest first. -/
structure OverlayedEntry (V : Type) where
  transactions : List (InnerValue V)
  deriving DecidableEq, Repr

instance {V : Type} : Inhabited (OverlayedEntry V) := ⟨⟨[]⟩⟩

/-- `ExecutionMode`. -/
inductive ExecutionMode
  | client
  | runtime
  deriving DecidableEq, Repr

/-- `NoOpenTransaction`. -/
structure NoOpenTransaction where
  deriving DecidableEq, Repr

/-- `AlreadyInRuntime`. -/
structure AlreadyInRuntime where
  deriving DecidableEq, Repr

/-- `NotInRuntime`. -/
structure NotInRuntime where
  deriving DecidableEq, Repr

/-- `OverlayedMap<K, V>`. -/
structure OverlayedMap (K V : Type) [LinearOrder K] where
  changes : OrdMap K (OverlayedEntry V)
  dirtyKeys : List (List K)
  numClientTransactions : Nat
  executionMode : ExecutionMode

namespace OverlayedEntry

variable {V : Type}

/-- `value_ref`: the newest version. -/
def valueRef (e : OverlayedEntry V) : Option V := e.transactions.head?.map (·.value)

/-- `extrinsics`: every index recorded in any version. -/
def extrinsics (e : OverlayedEntry V) : Finset Nat :=
  e.transactions.foldl (fun set t => t.extrinsics.copyExtrinsicsInto set) ∅

/-- `OverlayedEntry::set`: a new version on the first write of a transaction
(or of an empty entry), otherwise the newest version is overwritten; the
index is recorded on the newest version. -/
def set (e : OverlayedEntry V) (value : V) (firstWriteInTx : Bool) (atExtrinsic : Option Nat) :
    OverlayedEntry V :=
  let transactions :=
    if firstWriteInTx || e.transactions.isEmpty then ⟨value, default⟩ :: e.transactions
    else match e.transactions with
      | t :: rest => { t with value := value } :: rest
      | [] => []
  match atExtrinsic, transactions with
  | some extrinsic, t :: rest => ⟨{ t with extrinsics := t.extrinsics.insert extrinsic } :: rest⟩
  | _, _ => ⟨transactions⟩

end OverlayedEntry

/-- `insert_dirty`: record `key` in the newest dirty set; true iff there is an
open transaction and this is its first write of `key`. -/
def insertDirty {K : Type} [DecidableEq K] (set : List (List K)) (key : K) : List (List K) × Bool :=
  match set with
  | [] => ([], false)
  | dk :: rest => if key ∈ dk then (set, false) else ((key :: dk) :: rest, true)

namespace OverlayedMap

variable {K V : Type} [LinearOrder K]

attribute [local instance] OrdMap.lawfulBEq

instance : Inhabited (OverlayedMap K V) := ⟨⟨OrdMap.empty, [], 0, .client⟩⟩

/-- `transaction_depth`. -/
def transactionDepth (m : OverlayedMap K V) : Nat := m.dirtyKeys.length

/-- `get`. -/
def get (m : OverlayedMap K V) (key : K) : Option (OverlayedEntry V) := m.changes.get? key

/-- `is_empty`. -/
def isEmpty (m : OverlayedMap K V) : Bool := m.changes.toList.isEmpty

/-- `spawn_child`: an empty change set at the same depth and in the same mode. -/
def spawnChild (m : OverlayedMap K V) : OverlayedMap K V :=
  ⟨OrdMap.empty, List.replicate m.transactionDepth [], m.numClientTransactions, m.executionMode⟩

/-- `OverlayedMap::set`. -/
def set (m : OverlayedMap K V) (key : K) (value : V) (atExtrinsic : Option Nat) : OverlayedMap K V :=
  let overlayed := (m.changes.get? key).getD default
  let (dirtyKeys, firstWriteInTx) := insertDirty m.dirtyKeys key
  { m with changes := m.changes.insert key (overlayed.set value firstWriteInTx atExtrinsic), dirtyKeys }

/-- `has_open_runtime_transactions`. -/
def hasOpenRuntimeTransactions (m : OverlayedMap K V) : Bool :=
  m.transactionDepth > m.numClientTransactions

/-- `start_transaction`. -/
def startTransaction (m : OverlayedMap K V) : OverlayedMap K V := { m with dirtyKeys := [] :: m.dirtyKeys }

/-- One key of the loop of `close_transaction`, the closed transaction's set
already popped. -/
def closeKey (rollback : Bool) (m : OverlayedMap K V) (key : K) : Option (OverlayedMap K V) :=
  match m.changes.get? key with
  | none => none
  | some overlayed =>
    if rollback then
      match overlayed.transactions with
      | [] => none
      -- an entry without versions is removed
      | [_] => some { m with changes := m.changes.erase key }
      | _ :: t :: rest => some { m with changes := m.changes.insert key ⟨t :: rest⟩ }
    else
      -- whether the level below has a version of `key`, which it records as written
      let (dirtyKeys, hasPredecessor) := match m.dirtyKeys with
        | dk :: more => if key ∈ dk then (m.dirtyKeys, true) else ((key :: dk) :: more, false)
        | [] => ([], decide (overlayed.transactions.length > 1))
      if hasPredecessor then
        match overlayed.transactions with
        | dropped :: t :: rest =>
          some { m with
            changes := m.changes.insert key
              ⟨{ t with value := dropped.value, extrinsics := t.extrinsics.extend dropped.extrinsics } :: rest⟩,
            dirtyKeys }
        | _ => none
      else some { m with dirtyKeys }

/-- `close_transaction`: `none` when it panics. -/
def closeTransaction (m : OverlayedMap K V) (rollback : Bool) :
    Option (Except NoOpenTransaction (OverlayedMap K V)) :=
  -- the runtime may not close a transaction the client started
  if m.executionMode = .runtime ∧ m.hasOpenRuntimeTransactions = false then some (.error ⟨⟩)
  else match m.dirtyKeys with
    | [] => some (.error ⟨⟩)
    | dk :: rest => (dk.foldlM (closeKey rollback) { m with dirtyKeys := rest }).map .ok

/-- `rollback_transaction`. -/
def rollbackTransaction (m : OverlayedMap K V) : Option (Except NoOpenTransaction (OverlayedMap K V)) :=
  m.closeTransaction true

/-- `commit_transaction`. -/
def commitTransaction (m : OverlayedMap K V) : Option (Except NoOpenTransaction (OverlayedMap K V)) :=
  m.closeTransaction false

/-- `enter_runtime`. -/
def enterRuntime (m : OverlayedMap K V) : Except AlreadyInRuntime (OverlayedMap K V) :=
  if m.executionMode = .runtime then .error ⟨⟩
  else .ok { m with executionMode := .runtime, numClientTransactions := m.transactionDepth }

/-- The loop of `exit_runtime`, given as fuel the number of transactions open;
each round closes one. -/
def rollbackRuntimeTransactions : Nat → OverlayedMap K V → Option (OverlayedMap K V)
  | 0, m => some m
  | fuel + 1, m =>
    if m.hasOpenRuntimeTransactions then
      match m.rollbackTransaction with
      | some (.ok m') => rollbackRuntimeTransactions fuel m'
      | _ => none
    else some m

/-- `exit_runtime`: roll back what the runtime left open. -/
def exitRuntime (m : OverlayedMap K V) : Option (Except NotInRuntime (OverlayedMap K V)) :=
  if m.executionMode = .client then some (.error ⟨⟩)
  else (rollbackRuntimeTransactions m.transactionDepth { m with executionMode := .client }).map .ok

/-- `drain_commited`: the committed value of every key; it panics with a
transaction open. -/
def drainCommited (m : OverlayedMap K V) : Option (List (K × V)) :=
  if m.transactionDepth = 0 then
    m.changes.toList.mapM fun (k, e) => e.transactions.head?.map fun t => (k, t.value)
  else none

section ChangeSet

variable {W : Type}

/-- What `OverlayedChangeSet::modify` does to the entry of its key: the key
gets a version of its own in the current transaction (a copy of the newest,
or `Some(init())` for a new key), and the caller then writes `f` of it through
the reference returned. -/
def modifyEntry (overlayed : OverlayedEntry (Option W)) (firstWriteInTx : Bool) (init : W)
    (f : Option W → Option W) (atExtrinsic : Option Nat) : OverlayedEntry (Option W) :=
  let cloneIntoNewTx := match overlayed.transactions with
    | tx :: _ => if firstWriteInTx then some tx.value else none
    | [] => some (some init)
  let overlayed := match cloneIntoNewTx with
    | some cloned => overlayed.set cloned firstWriteInTx atExtrinsic
    | none => overlayed
  match overlayed.transactions with
  | t :: rest => ⟨{ t with value := f t.value } :: rest⟩
  | [] => overlayed

/-- `OverlayedChangeSet::modify`. -/
def modify (m : OverlayedMap K (Option W)) (key : K) (init : W) (f : Option W → Option W)
    (atExtrinsic : Option Nat) : OverlayedMap K (Option W) :=
  let overlayed := (m.changes.get? key).getD default
  let (dirtyKeys, firstWriteInTx) := insertDirty m.dirtyKeys key
  { m with changes := m.changes.insert key (modifyEntry overlayed firstWriteInTx init f atExtrinsic), dirtyKeys }

/-- One stored key of the loop of `clear_where`, with the entry the loop
was given for it. -/
def clearKey (predicate : K → OverlayedEntry (Option W) → Bool) (atExtrinsic : Option Nat)
    (m : OverlayedMap K (Option W)) (kv : K × OverlayedEntry (Option W)) : OverlayedMap K (Option W) :=
  let (key, val) := kv
  if predicate key val then
    let (dirtyKeys, firstWriteInTx) := insertDirty m.dirtyKeys key
    { m with changes := m.changes.insert key (val.set none firstWriteInTx atExtrinsic), dirtyKeys }
  else m

/-- `OverlayedChangeSet::clear_where`: every stored key the predicate accepts
is set to `None`. -/
def clearWhere (m : OverlayedMap K (Option W)) (predicate : K → OverlayedEntry (Option W) → Bool)
    (atExtrinsic : Option Nat) : OverlayedMap K (Option W) :=
  m.changes.toList.foldl (clearKey predicate atExtrinsic) m

end ChangeSet

end OverlayedMap

/-- The calls a client makes on a change set of storage values, `clear_where`
with a predicate on keys as `OverlayedChanges` calls it. -/
inductive Op (K W : Type)
  | set (k : K) (v : Option W) (x : Option Nat)
  | modify (k : K) (init : W) (f : Option W → Option W) (x : Option Nat)
  | clearWhere (p : K → Bool) (x : Option Nat)
  | startTransaction
  | commitTransaction
  | rollbackTransaction

/-- One call; `none` when it panics.  A commit or a rollback that returns
`NoOpenTransaction` leaves the change set as it was. -/
def Op.apply {K W : Type} [LinearOrder K] (m : OverlayedMap K (Option W)) :
    Op K W → Option (OverlayedMap K (Option W))
  | .set k v x => some (m.set k v x)
  | .modify k init f x => some (m.modify k init f x)
  | .clearWhere p x => some (m.clearWhere (fun k _ => p k) x)
  | .startTransaction => some m.startTransaction
  | .commitTransaction => m.commitTransaction.map fun r => r.toOption.getD m
  | .rollbackTransaction => m.rollbackTransaction.map fun r => r.toOption.getD m

end StateMachine
