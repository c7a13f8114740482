import Mathlib
import CherryNode.Support.Dispatch
import CherryNode.Lib.Run
import CherryNode.Lib.IntType

/-!
# pallet-scheduler: the agenda, the lookup of named tasks, `on_initialize`

`Agenda[when]` is a vector of task slots; `Lookup[id]` is to hold the address
(block, index) of the named task `id`.  `on_initialize(now)` orders
`Agenda[now]` by priority and dispatches while the weight allows.  A task not
dispatched is appended to `Agenda[now + 1]` with its `Lookup` entry untouched
(`onInitialize_lookup`), so `do_cancel_named` then finds no slot, succeeds and
cancels nothing (`doCancelNamed_of_stale`), and the task still runs
(`cancel_named_misses_postponed_task`).

Block numbers are `Nat`; `resolve_time` saturates at `u32::MAX`, the node's
`BlockNumber`.  `Weight` is `u64` with `satAdd` its `saturating_add`.  A call
is a value of `C` with its weight, its dispatch the `Dispatched` event.
-/

namespace PalletScheduler

open Frame

/-- `Weight::MAX`, the bound of `saturating_add`. -/
def weightMax : Nat := 2 ^ 64 - 1

/-- `saturating_add` on `Weight`. -/
def satAdd (a b : Nat) : Nat := min (a + b) weightMax

/-- `RuntimeDbWeight`. -/
structure DbWeight where
  read : Nat
  write : Nat

/-- `reads_writes(r, w)`. -/
def DbWeight.readsWrites (db : DbWeight) (r w : Nat) : Nat :=
  satAdd (min (db.read * r) weightMax) (min (db.write * w) weightMax)

/-- The runtime's constants, and the weight `get_dispatch_info` gives a call. -/
structure Config (C : Type) where
  maximumWeight : Nat
  dbWeight : DbWeight
  weight : C → Nat

/-- `schedule::HARD_DEADLINE`. -/
def hardDeadline : UInt8 := 63

/-- `ScheduledV2`. -/
structure Scheduled (Id C Acc : Type) where
  maybeId : Option Id
  priority : UInt8
  call : C
  maybePeriodic : Option (Nat × Nat)
  origin : Origin Acc
  deriving DecidableEq, Repr

/-- `DispatchTime`. -/
inductive DispatchTime
  | at (x : Nat)
  | after (x : Nat)
  deriving DecidableEq, Repr

/-- `Error<T>`. -/
inductive Error
  | failedToSchedule
  | notFound
  | targetBlockNumberInPast
  | rescheduleNoChange
  deriving DecidableEq, Repr

/-- `Event<T>`; the result of a dispatch is not kept. -/
inductive Event (Id : Type)
  | scheduled (when index : Nat)
  | canceled (when index : Nat)
  | dispatched (task : Nat × Nat) (id : Option Id)
  deriving DecidableEq, Repr

/-- `Agenda`, `Lookup`, the system block number and the events deposited. -/
structure St (Id C Acc : Type) where
  agenda : Nat → List (Option (Scheduled Id C Acc))
  lookup : Id → Option (Nat × Nat)
  blockNumber : Nat
  events : List (Event Id)

variable {Id C Acc : Type}

namespace St

def empty : St Id C Acc := ⟨fun _ => [], fun _ => none, 0, []⟩

/-- `Agenda::<T>::append(when, item)`. -/
def append (s : St Id C Acc) (when : Nat) (item : Option (Scheduled Id C Acc)) : St Id C Acc :=
  { s with agenda := Function.update s.agenda when (s.agenda when ++ [item]) }

/-- `Agenda[when][index] = None`. -/
def clear (s : St Id C Acc) (when index : Nat) : St Id C Acc :=
  { s with agenda := Function.update s.agenda when ((s.agenda when).set index none) }

def deposit (s : St Id C Acc) (e : Event Id) : St Id C Acc :=
  { s with events := s.events ++ [e] }

@[simp] theorem append_lookup (s : St Id C Acc) (w : Nat) (t : Option (Scheduled Id C Acc)) :
    (s.append w t).lookup = s.lookup := rfl

@[simp] theorem append_agenda (s : St Id C Acc) (w : Nat) (t : Option (Scheduled Id C Acc)) :
    (s.append w t).agenda = Function.update s.agenda w (s.agenda w ++ [t]) := rfl

@[simp] theorem deposit_agenda (s : St Id C Acc) (e : Event Id) : (s.deposit e).agenda = s.agenda := rfl

@[simp] theorem deposit_lookup (s : St Id C Acc) (e : Event Id) : (s.deposit e).lookup = s.lookup := rfl

variable [DecidableEq Id]

def setLookup (s : St Id C Acc) (id : Id) (a : Option (Nat × Nat)) : St Id C Acc :=
  { s with lookup := Function.update s.lookup id a }

@[simp] theorem setLookup_agenda (s : St Id C Acc) (id : Id) (a : Option (Nat × Nat)) :
    (s.setLookup id a).agenda = s.agenda := rfl

@[simp] theorem setLookup_lookup (s : St Id C Acc) (id : Id) (a : Option (Nat × Nat)) :
    (s.setLookup id a).lookup = Function.update s.lookup id a := rfl

end St

variable [DecidableEq Id]

abbrev M (Id C Acc : Type) := Call (St Id C Acc) Error

/-- `resolve_time`: `At(x)` is `x`, `After(x)` the block `x + 1` after the
current one, saturating; a time not after the current block is refused. -/
def resolveTime (when : DispatchTime) : M Id C Acc Nat := do
  let now := (← get).blockNumber
  let when := match when with
    | .at x => x
    | .after x => U32.saturatingAdd (U32.saturatingAdd now x) 1
  ensure (¬ when ≤ now) .targetBlockNumberInPast
  pure when

/-- The sanitizing of `maybe_periodic`: a period needs more than one
repetition and a non-zero period, and one repetition is scheduled now. -/
def sanitizePeriodic (maybePeriodic : Option (Nat × Nat)) : Option (Nat × Nat) :=
  (maybePeriodic.filter fun p => p.2 > 1 && p.1 != 0).map fun (p, c) => (p, c - 1)

/-- `do_schedule`: the task is appended to `Agenda[when]`, at the index
`decode_len - 1`. -/
def doSchedule (when : DispatchTime) (maybePeriodic : Option (Nat × Nat)) (priority : UInt8)
    (origin : Origin Acc) (call : C) : M Id C Acc (Nat × Nat) := do
  let when ← resolveTime when
  modify (·.append when (some ⟨none, priority, call, sanitizePeriodic maybePeriodic, origin⟩))
  let index := ((← get).agenda when).length - 1
  modify (·.deposit (.scheduled when index))
  pure (when, index)

/-- The origin check of both cancellations: a given origin must be the task's. -/
def checkOrigin [DecidableEq Acc] (origin : Option (Origin Acc)) (slot : Option (Scheduled Id C Acc)) :
    M Id C Acc Unit :=
  match origin, slot with
  | some o, some t => if o ≠ t.origin then throw .badOrigin else pure ()
  | _, _ => pure ()

/-- `do_cancel`: the slot at the address is emptied; an address with no task
is `NotFound`. -/
def doCancel [DecidableEq Acc] (origin : Option (Origin Acc)) (address : Nat × Nat) : M Id C Acc Unit := do
  let (when, index) := address
  let s ← get
  let scheduled ← match (s.agenda when)[index]? with
    | none => pure none
    | some slot => do
      checkOrigin origin slot
      set (s.clear when index)
      pure slot
  match scheduled with
  | some t => do
    if let some id := t.maybeId then modify (·.setLookup id none)
    modify (·.deposit (.canceled when index))
  | none => throw (.module .notFound)

/-- The part both reschedulings share: the task at `(when, index)` is taken
and appended to `Agenda[newTime]`; its new index is returned. -/
def moveTask (when index newTime : Nat) : M Id C Acc Nat := do
  let s ← get
  let slot ← okOr (s.agenda when)[index]? .notFound
  let task ← okOr slot .notFound
  set ((s.clear when index).append newTime (some task))
  let newIndex := ((← get).agenda newTime).length - 1
  modify fun s => (s.deposit (.canceled when index)).deposit (.scheduled newTime newIndex)
  pure newIndex

/-- `do_reschedule`: moves the task at an address, whatever its `Lookup`. -/
def doReschedule (address : Nat × Nat) (newTime : DispatchTime) : M Id C Acc (Nat × Nat) := do
  let (when, index) := address
  let newTime ← resolveTime newTime
  if newTime = when then throw (.module .rescheduleNoChange)
  let newIndex ← moveTask when index newTime
  pure (newTime, newIndex)

/-- `do_schedule_named`: a fresh `id` is appended to `Agenda[when]` and its
address written to `Lookup`. -/
def doScheduleNamed (id : Id) (when : DispatchTime) (maybePeriodic : Option (Nat × Nat)) (priority : UInt8)
    (origin : Origin Acc) (call : C) : M Id C Acc (Nat × Nat) := do
  if ((← get).lookup id).isSome then throw (.module .failedToSchedule)
  let when ← resolveTime when
  modify (·.append when (some ⟨some id, priority, call, sanitizePeriodic maybePeriodic, origin⟩))
  let index := ((← get).agenda when).length - 1
  modify fun s => (s.setLookup id (some (when, index))).deposit (.scheduled when index)
  pure (when, index)

/-- `do_cancel_named`: the slot `Lookup[id]` names is emptied, if the agenda
has one there, and the entry removed. -/
def doCancelNamed [DecidableEq Acc] (origin : Option (Origin Acc)) (id : Id) : M Id C Acc Unit := do
  let s ← get
  match s.lookup id with
  | some (when, index) => do
    match (s.agenda when)[index]? with
    | some slot => do
      checkOrigin origin slot
      set (s.clear when index)
    | none => pure ()
    modify fun s => (s.setLookup id none).deposit (.canceled when index)
  | none => throw (.module .notFound)

/-- `do_reschedule_named`: moves the task `Lookup[id]` names and writes its new
address. -/
def doRescheduleNamed (id : Id) (newTime : DispatchTime) : M Id C Acc (Nat × Nat) := do
  let newTime ← resolveTime newTime
  let (when, index) ← okOr ((← get).lookup id) .notFound
  if newTime = when then throw (.module .rescheduleNoChange)
  let newIndex ← moveTask when index newTime
  modify (·.setLookup id (some (newTime, newIndex)))
  pure (newTime, newIndex)

/-! ### Spec lemmas of the calls -/

/-- `do_cancel_named` of an entry whose address holds no slot succeeds: it
removes the entry, deposits `Canceled`, and leaves the agenda as it was. -/
theorem doCancelNamed_of_stale [DecidableEq Acc] (origin : Option (Origin Acc)) {id : Id} {when index : Nat}
    {s : St Id C Acc} (hlookup : s.lookup id = some (when, index)) (hslot : (s.agenda when)[index]? = none) :
    doCancelNamed origin id s = .ok () ((s.setLookup id none).deposit (.canceled when index)) := by
  simp only [doCancelNamed, bind_apply, get_apply, hlookup, hslot, modify_apply]

/-! ## `on_initialize` -/

section Initialize

variable (cfg : Config C)

/-- The `scan` of `on_initialize`: the running weight after a task, with the
account, lookup and agenda accesses it may make. -/
def weighTask (cumulative : Nat) (t : Scheduled Id C Acc) : Nat :=
  let w := satAdd cumulative (cfg.weight t.call)
  let w := match t.origin with
    | .signed _ => satAdd w (cfg.dbWeight.readsWrites 1 1)
    | _ => w
  let w := if t.maybeId.isSome then satAdd w (cfg.dbWeight.readsWrites 0 1) else w
  if t.maybePeriodic.isSome then satAdd w (cfg.dbWeight.readsWrites 1 1) else w

/-- A dispatched task: a periodic one is appended to `now + period` with one
repetition fewer and, if named, re-addressed in `Lookup`; a last occurrence
loses its `Lookup` entry. -/
def dispatchTask (now index : Nat) (t : Scheduled Id C Acc) (s : St Id C Acc) : St Id C Acc :=
  let s := match t.maybePeriodic with
    | some (period, count) =>
      let t' := { t with maybePeriodic := if count > 1 then some (period, count - 1) else none }
      let next := now + period
      let s := match t.maybeId with
        | some id => s.setLookup id (some (next, (s.agenda next).length))
        | none => s
      s.append next (some t')
    | none => match t.maybeId with
      | some id => s.setLookup id none
      | none => s
  s.deposit (.dispatched (now, index) t.maybeId)

/-- One task of the sorted queue, at position `order`, with the storage, the
running weight and the last dispatched task's weight; a postponed task is
appended to `now + 1` before the next task is looked at. -/
def serviceTask (now : Nat) (acc : St Id C Acc × Nat × Nat) (item : (Nat × Scheduled Id C Acc) × Nat) :
    St Id C Acc × Nat × Nat :=
  let (s, cumulative, total) := acc
  let ((index, t), order) := item
  let cumulative := weighTask cfg cumulative t
  if t.priority ≤ hardDeadline ∨ cumulative ≤ cfg.maximumWeight ∨ order = 0 then
    (dispatchTask now index t s, cumulative, cumulative)
  else
    (s.append (now + 1) (some t), cumulative, total)

/-- The tasks of an agenda with their indices, empty slots left out. -/
def queued (agenda : List (Option (Scheduled Id C Acc))) : List (Nat × Scheduled Id C Acc) :=
  agenda.zipIdx.filterMap fun (s, index) => s.map (index, ·)

/-- `on_initialize(now)`: the agenda of `now` is taken, sorted by priority with
a stable sort (`insertionSort` is stable: `List.sublist_insertionSort`) and
serviced in order; the weight used is returned. -/
def onInitialize (now : Nat) (s : St Id C Acc) : St Id C Acc × Nat :=
  let queue := (queued (s.agenda now)).insertionSort fun a b => a.2.priority ≤ b.2.priority
  let s := { s with agenda := Function.update s.agenda now [] }
  let (s, _, total) := queue.zipIdx.foldl (serviceTask cfg now) (s, cfg.dbWeight.readsWrites 1 2, 0)
  (s, total)

/-! ### What one block does to `Lookup` -/

theorem onInitialize_fst (now : Nat) (s : St Id C Acc) :
    (onInitialize cfg now s).1 =
      (((queued (s.agenda now)).insertionSort fun a b => a.2.priority ≤ b.2.priority).zipIdx.foldl
        (serviceTask cfg now) ({ s with agenda := Function.update s.agenda now [] }, cfg.dbWeight.readsWrites 1 2, 0)).1 :=
  rfl

theorem dispatchTask_events (now index : Nat) (t : Scheduled Id C Acc) (s : St Id C Acc) :
    (dispatchTask now index t s).events = s.events ++ [.dispatched (now, index) t.maybeId] := by
  unfold dispatchTask
  rcases t.maybePeriodic with _ | ⟨period, count⟩ <;> rcases t.maybeId with _ | id <;> rfl

theorem dispatchTask_lookup (now index : Nat) (t : Scheduled Id C Acc) (s : St Id C Acc) {id : Id}
    (hid : t.maybeId ≠ some id) : (dispatchTask now index t s).lookup id = s.lookup id := by
  unfold dispatchTask
  rcases t.maybePeriodic with _ | ⟨period, count⟩ <;> rcases hm : t.maybeId with _ | id' <;>
    simp only [St.deposit_lookup, St.append_lookup, St.setLookup_lookup]
  all_goals
    have hne : id ≠ id' := fun h => hid (h ▸ hm)
    exact Function.update_of_ne hne _ _

/-- The events a block deposits, and what it did to `Lookup[id]`: left it, or
dispatched a task named `id`. -/
def LookupKept (s₀ : St Id C Acc) (now : Nat) (id : Id) (s : St Id C Acc) : Prop :=
  ∃ evs, s.events = s₀.events ++ evs ∧
    (s.lookup id = s₀.lookup id ∨ ∃ index, Event.dispatched (now, index) (some id) ∈ evs)

/-- **Step.**  Servicing one task, dispatched or postponed, keeps `LookupKept`. -/
theorem serviceTask_lookupKept (s₀ : St Id C Acc) (now : Nat) (id : Id)
    (acc : St Id C Acc × Nat × Nat) (item : (Nat × Scheduled Id C Acc) × Nat)
    (h : LookupKept s₀ now id acc.1) : LookupKept s₀ now id (serviceTask cfg now acc item).1 := by
  obtain ⟨s, c, tot⟩ := acc
  obtain ⟨⟨index, t⟩, order⟩ := item
  obtain ⟨evs, hevs, hlookup⟩ := h
  simp only [serviceTask]
  split_ifs
  · -- dispatched: one `Dispatched` event more
    refine ⟨evs ++ [.dispatched (now, index) t.maybeId], by rw [dispatchTask_events, hevs, List.append_assoc], ?_⟩
    by_cases ht : t.maybeId = some id
    · exact .inr ⟨index, by simp [ht]⟩
    · rw [dispatchTask_lookup now index t s ht]
      exact hlookup.imp_right fun ⟨i, hi⟩ => ⟨i, List.mem_append_left _ hi⟩
  · -- postponed: appended to `now + 1`, `Lookup` untouched
    exact ⟨evs, hevs, hlookup⟩

/-- **Run.**  `on_initialize(now)` changes `Lookup[id]` only by dispatching a
task named `id`: a postponed task keeps the entry it had. -/
theorem onInitialize_lookup (now : Nat) (s : St Id C Acc) (id : Id) :
    ∃ evs, (onInitialize cfg now s).1.events = s.events ++ evs ∧
      ((onInitialize cfg now s).1.lookup id = s.lookup id ∨
        ∃ index, Event.dispatched (now, index) (some id) ∈ evs) := by
  rw [onInitialize_fst]
  refine StepRun.Reachable.rec_invariant (fun acc => LookupKept s now id acc.1) ?_
    (fun acc item h => serviceTask_lookupKept cfg s now id acc item h) (StepRun.reachable_foldl _ _ _ .init)
  -- the agenda of `now` is taken first; `Lookup` and the events are as they were
  exact ⟨[], by simp, .inl rfl⟩

end Initialize

/-! ## The calls, one block after another -/

/-- The scheduler's entry points: a new block (the system block number moves
on and `on_initialize` runs at it), and the `do_*` functions behind the calls
and the `Anon` and `Named` traits. -/
inductive Op (Id C Acc : Type)
  | newBlock
  | schedule (when : DispatchTime) (maybePeriodic : Option (Nat × Nat)) (priority : UInt8) (origin : Origin Acc)
      (call : C)
  | cancel (origin : Option (Origin Acc)) (address : Nat × Nat)
  | reschedule (address : Nat × Nat) (newTime : DispatchTime)
  | scheduleNamed (id : Id) (when : DispatchTime) (maybePeriodic : Option (Nat × Nat)) (priority : UInt8)
      (origin : Origin Acc) (call : C)
  | cancelNamed (origin : Option (Origin Acc)) (id : Id)
  | rescheduleNamed (id : Id) (newTime : DispatchTime)

/-- The storage after one entry point. -/
def Op.apply [DecidableEq Acc] (cfg : Config C) (s : St Id C Acc) : Op Id C Acc → St Id C Acc
  | .newBlock => (onInitialize cfg (s.blockNumber + 1) { s with blockNumber := s.blockNumber + 1 }).1
  | .schedule when maybePeriodic priority origin call =>
    applyCall (discard (doSchedule when maybePeriodic priority origin call)) s
  | .cancel origin address => applyCall (doCancel origin address) s
  | .reschedule address newTime => applyCall (discard (doReschedule address newTime)) s
  | .scheduleNamed id when maybePeriodic priority origin call =>
    applyCall (discard (doScheduleNamed id when maybePeriodic priority origin call)) s
  | .cancelNamed origin id => applyCall (doCancelNamed origin id) s
  | .rescheduleNamed id newTime => applyCall (discard (doRescheduleNamed id newTime)) s

/-- A limit of 10 and free storage accesses; a call weighs its own value. -/
def tightWeight : Config Nat := ⟨10, ⟨0, 0⟩, id⟩

/-- Two named tasks of weight 10 and the lowest priority at block 2, then the
blocks 1 and 2: the second task does not fit in block 2 and is postponed to
block 3. -/
def postponeNamed : List (Op Nat Nat Nat) :=
  [.scheduleNamed 1 (.at 2) none 255 .root 10, .scheduleNamed 2 (.at 2) none 255 .root 10, .newBlock, .newBlock]

/-- After block 2, `Lookup[2]` still names slot 1 of the agenda of block 2,
which is gone; `do_cancel_named` of task 2 then succeeds without cancelling it,
and block 3 dispatches it. -/
theorem cancel_named_misses_postponed_task :
    ∃ s, postponeNamed.foldl (Op.apply tightWeight) St.empty = s ∧ s.lookup 2 = some (2, 1) ∧ s.agenda 2 = [] ∧
      doCancelNamed none 2 s = .ok () ((s.setLookup 2 none).deposit (.canceled 2 1)) ∧
      (Op.apply tightWeight ((s.setLookup 2 none).deposit (.canceled 2 1)) .newBlock).events.getLast? =
        some (.dispatched (3, 0) (some 2)) := by
  refine ⟨_, rfl, ?_⟩
  have hlookup : (postponeNamed.foldl (Op.apply tightWeight) St.empty).lookup 2 = some (2, 1) := by decide
  have hagenda : (postponeNamed.foldl (Op.apply tightWeight) St.empty).agenda 2 = [] := by decide
  exact ⟨hlookup, hagenda, doCancelNamed_of_stale none hlookup (by rw [hagenda]; rfl), by decide⟩

end PalletScheduler
