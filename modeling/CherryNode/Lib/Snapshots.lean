import Mathlib

/-!
# Stacks of snapshots

What nested transactions over a store mean: a stack of versions of the store,
the top one current and the bottom one committed.  Opening a transaction
pushes a copy of the top (`start`, with what a fresh level keeps of it);
committing pops the top and puts it in place of the version below (`commit`,
with how the two combine); rolling back drops the top (`rollback`).  Closing
with no transaction open fails.  A stack is never empty: its top is a field.
-/

/-- A stack of versions: the current one and, nearest first, those below. -/
structure Snapshots (α : Type) where
  top : α
  below : List α
  deriving DecidableEq, Repr

namespace Snapshots

variable {α β : Type}

/-- The number of open transactions. -/
def depth (s : Snapshots α) : Nat := s.below.length

/-- The versions, top first. -/
def toList (s : Snapshots α) : List α := s.top :: s.below

/-- A single version, with no transaction open. -/
def single (a : α) : Snapshots α := ⟨a, []⟩

/-- The committed version: the bottom of the stack. -/
def committed (s : Snapshots α) : α := s.below.getLastD s.top

def start (fresh : α → α) (s : Snapshots α) : Snapshots α := ⟨fresh s.top, s.top :: s.below⟩

def commit (merge : α → α → α) (s : Snapshots α) : Option (Snapshots α) :=
  match s.below with
  | [] => none
  | b :: rest => some ⟨merge s.top b, rest⟩

def rollback (s : Snapshots α) : Option (Snapshots α) :=
  match s.below with
  | [] => none
  | b :: rest => some ⟨b, rest⟩

def modifyTop (f : α → α) (s : Snapshots α) : Snapshots α := ⟨f s.top, s.below⟩

def map (f : α → β) (s : Snapshots α) : Snapshots β := ⟨f s.top, s.below.map f⟩

theorem commit_eq_none_iff (merge : α → α → α) (s : Snapshots α) : s.commit merge = none ↔ s.depth = 0 := by
  unfold commit depth
  cases s.below <;> simp

theorem rollback_eq_none_iff (s : Snapshots α) : s.rollback = none ↔ s.depth = 0 := by
  unfold rollback depth
  cases s.below <;> simp

theorem depth_of_rollback {s s' : Snapshots α} (h : s.rollback = some s') : s'.depth + 1 = s.depth := by
  unfold rollback at h
  unfold depth
  split at h
  · cases h
  · next b rest hb =>
    cases h
    rw [hb]
    rfl

theorem committed_of_depth_zero {s : Snapshots α} (h : s.depth = 0) : s.committed = s.top := by
  unfold committed
  rw [List.eq_nil_of_length_eq_zero h]
  rfl

/-! The operations commute with looking at one part of every version. -/

end Snapshots
