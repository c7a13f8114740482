import Mathlib
import CherryNode.StateMachine.Changeset
import CherryNode.Lib.Snapshots
import CherryNode.Lib.PointwiseFold
import CherryNode.Lib.Run

/-!
# `OverlayedMap` refines a stack of snapshots

What a change set is for: a stack of levels, the bottom one committed (`Level`:
every key's value and the indices of the extrinsics whose writes it holds).  A
write changes the top; `start_transaction` pushes a copy of its values; a
commit puts the top in place of the level below, with both levels' writes; a
rollback drops the top.

`Refines m s` relates the two key by key (`KeyAgrees`): an entry's versions are
those of the levels where the key was written, newest first, read off the dirty
sets.  Every operation keeps `Refines`, so the versions are where the source's
`expect`s look.  The indices an entry records are among the level's: `modify`
of a key the transaction already wrote does not record its index
(`modify_drops_extrinsic`).
-/

namespace StateMachine

/-- One level of the stack: the value of every key (`none` for a key never
written), and the indices of the extrinsics whose writes it holds. -/
structure Level (K V : Type) where
  values : K → Option V
  written : K → Finset Nat

namespace Level

variable {K V : Type} [DecidableEq K]
variable {k : K} {b : Option V × Finset Nat} {W : Type}

def empty : Level K V := ⟨fun _ => none, fun _ => ∅⟩

/-- What the level says of one key. -/
def atKey (l : Level K V) (k : K) : Option V × Finset Nat := (l.values k, l.written k)

def write (l : Level K V) (k : K) (v : V) (atExtrinsic : Option Nat) : Level K V :=
  ⟨Function.update l.values k (some v), Function.update l.written k (l.written k ∪ atExtrinsic.toFinset)⟩

/-- A new transaction starts from the values, with no writes. -/
def fresh (l : Level K V) : Level K V := ⟨l.values, fun _ => ∅⟩

/-- The top committed onto the level below: its values, the writes of both. -/
def merge (top below : Level K V) : Level K V := ⟨top.values, fun k => below.written k ∪ top.written k⟩

end Level

/-! ## The operations on the stack -/

namespace Spec

variable {K V W : Type} [DecidableEq K]

def set (k : K) (v : V) (atExtrinsic : Option Nat) (s : Snapshots (Level K V)) : Snapshots (Level K V) :=
  s.modifyTop (·.write k v atExtrinsic)

/-- `modify`: `f` of the current value, or of `Some(init)` for a key never
written. -/
def modify (k : K) (init : W) (f : Option W → Option W) (atExtrinsic : Option Nat)
    (s : Snapshots (Level K (Option W))) : Snapshots (Level K (Option W)) :=
  s.modifyTop fun l => l.write k (f ((l.values k).getD (some init))) atExtrinsic

/-- `clear_where`: every key written so far that `p` accepts is set to `None`. -/
def clearWhere (p : K → Bool) (atExtrinsic : Option Nat) (s : Snapshots (Level K (Option W))) :
    Snapshots (Level K (Option W)) :=
  s.modifyTop fun l =>
    ⟨fun k => if p k ∧ (l.values k).isSome then some none else l.values k,
      fun k => if p k ∧ (l.values k).isSome then l.written k ∪ atExtrinsic.toFinset else l.written k⟩

/-- The indices of the writes of `k` that were not rolled back. -/
def written (k : K) (s : Snapshots (Level K V)) : Finset Nat := s.toList.foldr (fun l acc => l.written k ∪ acc) ∅

end Spec

/-! ## One key -/

variable {K V : Type}

/-- The versions of an entry; none for a key with no entry. -/
def txsOf (e : Option (OverlayedEntry V)) : List (InnerValue V) := (e.map (·.transactions)).getD []

/-- Whether each open transaction, newest first, wrote `k`. -/
def marksOf [DecidableEq K] (dirtyKeys : List (List K)) (k : K) : List Bool :=
  dirtyKeys.map fun dk => decide (k ∈ dk)

/-- The indices a version recorded. -/
def InnerValue.recorded (t : InnerValue V) : Finset Nat := t.extrinsics.indices.toFinset

/-- The index a write records, if any. -/
def Extrinsics.record (e : Extrinsics) : Option Nat → Extrinsics
  | some ext => e.insert ext
  | none => e

theorem Extrinsics.toFinset_insert (e : Extrinsics) (ext : Nat) :
    (e.insert ext).indices.toFinset = e.indices.toFinset ∪ {ext} := by
  unfold Extrinsics.insert
  split_ifs with h
  · simp
  · have hmem : ext ∈ e.indices := List.mem_of_getLast? (not_not.mp h).symm
    rw [Finset.union_comm, Finset.singleton_union, Finset.insert_eq_of_mem (List.mem_toFinset.mpr hmem)]

theorem Extrinsics.toFinset_record (e : Extrinsics) (atExtrinsic : Option Nat) :
    (e.record atExtrinsic).indices.toFinset = e.indices.toFinset ∪ atExtrinsic.toFinset := by
  cases atExtrinsic with
  | none => simp [Extrinsics.record]
  | some ext => rw [Extrinsics.record, toFinset_insert, Option.toFinset_some]

theorem Extrinsics.toFinset_extend (e other : Extrinsics) :
    (e.extend other).indices.toFinset = e.indices.toFinset ∪ other.indices.toFinset :=
  List.toFinset_append

theorem Extrinsics.copyExtrinsicsInto_eq (e : Extrinsics) (dest : Finset Nat) :
    e.copyExtrinsicsInto dest = dest ∪ e.indices.toFinset := by
  obtain ⟨indices⟩ := e
  unfold Extrinsics.copyExtrinsicsInto
  induction indices generalizing dest with
  | nil => simp
  | cons i rest ih =>
    rw [List.foldl_cons, ih, List.toFinset_cons, Finset.insert_union, Finset.union_insert]

theorem OverlayedEntry.extrinsics_subset {e : OverlayedEntry V} {w : Finset Nat}
    (h : ∀ t ∈ e.transactions, t.recorded ⊆ w) : e.extrinsics ⊆ w := by
  obtain ⟨txs⟩ := e
  unfold OverlayedEntry.extrinsics
  dsimp only at h ⊢
  -- the loop adds the indices of one version at a time
  suffices ∀ acc ⊆ w, txs.foldl (fun set t => t.extrinsics.copyExtrinsicsInto set) acc ⊆ w from
    this ∅ (Finset.empty_subset w)
  induction txs with
  | nil => exact fun acc hacc => hacc
  | cons t rest ih =>
    intro acc hacc
    rw [List.foldl_cons]
    refine ih (fun t' ht' => h t' (List.mem_cons_of_mem _ ht')) _ ?_
    rw [Extrinsics.copyExtrinsicsInto_eq]
    exact Finset.union_subset hacc (h t List.mem_cons_self)

theorem OverlayedEntry.set_transactions (e : OverlayedEntry V) (v : V) (first : Bool) (x : Option Nat) :
    (e.set v first x).transactions =
      if first || e.transactions.isEmpty then ⟨v, (default : Extrinsics).record x⟩ :: e.transactions
      else match e.transactions with
        | t :: rest => ⟨v, t.extrinsics.record x⟩ :: rest
        | [] => [] := by
  obtain ⟨txs⟩ := e
  unfold OverlayedEntry.set
  cases x <;> cases txs <;> cases first <;> rfl

theorem OverlayedMap.modifyEntry_transactions {W : Type} (e : OverlayedEntry (Option W)) (first : Bool)
    (init : W) (f : Option W → Option W) (x : Option Nat) :
    (OverlayedMap.modifyEntry e first init f x).transactions =
      match e.transactions with
      | [] => [⟨f (some init), (default : Extrinsics).record x⟩]
      | t :: rest =>
        if first then ⟨f t.value, (default : Extrinsics).record x⟩ :: t :: rest
        else { t with value := f t.value } :: rest := by
  obtain ⟨txs⟩ := e
  cases txs <;> cases first <;> cases x <;> rfl

/-- The versions of a key, with the marks of the dirty sets, against what
the levels say of the key, top first: a written level holds the next
version; a level not written shows the value of the level below; the bottom
level holds the committed version, if any. -/
inductive KeyAgrees : List (InnerValue V) → List Bool → List (Option V × Finset Nat) → Prop
  | absent (w : Finset Nat) : KeyAgrees [] [] [(none, w)]
  | committed (t : InnerValue V) (w : Finset Nat) (hw : t.recorded ⊆ w) : KeyAgrees [t] [] [(some t.value, w)]
  | clean {txs : List (InnerValue V)} {ms : List Bool} {b : Option V × Finset Nat}
      {as : List (Option V × Finset Nat)} (w : Finset Nat) (h : KeyAgrees txs ms (b :: as)) :
      KeyAgrees txs (false :: ms) ((b.1, w) :: b :: as)
  | written {t : InnerValue V} {txs : List (InnerValue V)} {ms : List Bool} {as : List (Option V × Finset Nat)}
      (w : Finset Nat) (hw : t.recorded ⊆ w) (h : KeyAgrees txs ms as) :
      KeyAgrees (t :: txs) (true :: ms) ((some t.value, w) :: as)

/-- The marks after a write of the key: the newest transaction wrote it. -/
def markWritten : List Bool → List Bool
  | [] => []
  | _ :: rest => true :: rest

/-- Whether a write of the key is the first of the newest transaction. -/
def firstWrite : List Bool → Bool
  | [] => false
  | b :: _ => !b

section Dirty

variable [DecidableEq K]

theorem marksOf_insertDirty (dirtyKeys : List (List K)) (key k : K) :
    marksOf (insertDirty dirtyKeys key).1 k =
      if k = key then markWritten (marksOf dirtyKeys k) else marksOf dirtyKeys k := by
  cases dirtyKeys with
  | nil => split_ifs <;> rfl
  | cons dk rest =>
    dsimp only [insertDirty]
    by_cases hkey : key ∈ dk
    · rw [if_pos hkey]
      split_ifs with hk
      · subst hk
        simp [marksOf, markWritten, hkey]
      · rfl
    · rw [if_neg hkey]
      split_ifs with hk
      · subst hk
        simp [marksOf, markWritten]
      · simp [marksOf, hk]

theorem insertDirty_snd (dirtyKeys : List (List K)) (key : K) :
    (insertDirty dirtyKeys key).2 = firstWrite (marksOf dirtyKeys key) := by
  cases dirtyKeys with
  | nil => rfl
  | cons dk rest =>
    dsimp only [insertDirty]
    by_cases hkey : key ∈ dk <;> simp [hkey, marksOf, firstWrite]

theorem length_insertDirty (dirtyKeys : List (List K)) (key : K) :
    (insertDirty dirtyKeys key).1.length = dirtyKeys.length := by
  cases dirtyKeys with
  | nil => rfl
  | cons dk rest =>
    dsimp only [insertDirty]
    split_ifs <;> rfl

theorem nodup_insertDirty {dirtyKeys : List (List K)} (h : ∀ dk ∈ dirtyKeys, dk.Nodup) (key : K) :
    ∀ dk ∈ (insertDirty dirtyKeys key).1, dk.Nodup := by
  cases dirtyKeys with
  | nil => exact h
  | cons dk rest =>
    dsimp only [insertDirty]
    split_ifs with hkey
    · exact h
    · intro d hd
      rcases List.mem_cons.mp hd with rfl | hd
      · exact List.nodup_cons.mpr ⟨hkey, h dk List.mem_cons_self⟩
      · exact h d (List.mem_cons_of_mem _ hd)

end Dirty

/-- `m` implements `s`: the same depth, dirty sets without repeats, no entry
without versions, and every key agreeing with the levels. -/
structure Refines [LinearOrder K] (m : OverlayedMap K V) (s : Snapshots (Level K V)) : Prop where
  depth : m.transactionDepth = s.depth
  nodup : ∀ dk ∈ m.dirtyKeys, dk.Nodup
  nonempty : ∀ k, m.changes.get? k ≠ some ⟨[]⟩
  agrees : ∀ k, KeyAgrees (txsOf (m.changes.get? k)) (marksOf m.dirtyKeys k) (s.toList.map (·.atKey k))

namespace KeyAgrees

variable {txs : List (InnerValue V)} {ms : List Bool} {a : Option V × Finset Nat}
  {as : List (Option V × Finset Nat)}

theorem head_value {l : List (Option V × Finset Nat)} (h : KeyAgrees txs ms l) :
    l.head?.map Prod.fst = some (txs.head?.map (·.value)) := by
  induction h with
  | absent w => rfl
  | committed t w _ => rfl
  | clean w _ ih => exact ih
  | written w _ _ _ => rfl

theorem top_value (h : KeyAgrees txs ms (a :: as)) : a.1 = txs.head?.map (·.value) :=
  Option.some.inj h.head_value

theorem mono {b : Option V × Finset Nat} {w' : Finset Nat} (h : KeyAgrees txs ms (b :: as)) (hw : b.2 ⊆ w') :
    KeyAgrees txs ms ((b.1, w') :: as) := by
  cases h with
  | absent _ => exact .absent w'
  | committed t _ ht => exact .committed t w' (ht.trans hw)
  | clean _ h' => exact .clean w' h'
  | written _ ht h' => exact .written w' (ht.trans hw) h'

theorem recorded_subset {l : List (Option V × Finset Nat)} (h : KeyAgrees txs ms l) :
    ∀ t ∈ txs, t.recorded ⊆ l.foldr (fun a acc => a.2 ∪ acc) ∅ := by
  induction h with
  | absent w => exact fun t ht => absurd ht List.not_mem_nil
  | committed t w hw =>
    intro t' ht'
    rw [List.mem_singleton.mp ht']
    exact hw.trans Finset.subset_union_left
  | clean w _ ih => exact fun t ht => (ih t ht).trans Finset.subset_union_right
  | written w hw _ ih =>
    intro t' ht'
    rcases List.mem_cons.mp ht' with rfl | ht'
    · exact hw.trans Finset.subset_union_left
    · exact (ih t' ht').trans Finset.subset_union_right

theorem start (h : KeyAgrees txs ms (a :: as)) : KeyAgrees txs (false :: ms) ((a.1, ∅) :: a :: as) :=
  .clean ∅ h

theorem recorded_new (v : V) (x : Option Nat) (w : Finset Nat) :
    (⟨v, (default : Extrinsics).record x⟩ : InnerValue V).recorded ⊆ w ∪ x.toFinset := by
  rw [InnerValue.recorded, Extrinsics.toFinset_record]
  exact Finset.union_subset_union (Finset.empty_subset w) subset_rfl

theorem recorded_overwrite {t : InnerValue V} {w : Finset Nat} (v : V) (x : Option Nat) (hw : t.recorded ⊆ w) :
    (⟨v, t.extrinsics.record x⟩ : InnerValue V).recorded ⊆ w ∪ x.toFinset := by
  rw [InnerValue.recorded, Extrinsics.toFinset_record]
  exact Finset.union_subset_union hw subset_rfl

/-- A write of the key: a new version on the first write of the newest
transaction, the newest version overwritten otherwise. -/
theorem set (h : KeyAgrees txs ms (a :: as)) (v : V) (x : Option Nat) :
    KeyAgrees (OverlayedEntry.set ⟨txs⟩ v (firstWrite ms) x).transactions (markWritten ms)
      ((some v, a.2 ∪ x.toFinset) :: as) := by
  rw [OverlayedEntry.set_transactions]
  cases h with
  | absent w => exact .committed _ _ (recorded_new v x w)
  | committed t w hw => exact .committed _ _ (recorded_overwrite v x hw)
  | clean w h' => exact .written _ (recorded_new v x w) h'
  | written w hw h' => exact .written _ (recorded_overwrite v x hw) h'

/-- `modify` of the key: `f` of the newest value, or of `Some(init)`; the index
is recorded only when the key gets a new version. -/
theorem modify {W : Type} {txs : List (InnerValue (Option W))} {a : Option (Option W) × Finset Nat}
    {as : List (Option (Option W) × Finset Nat)} (h : KeyAgrees txs ms (a :: as)) (init : W)
    (f : Option W → Option W) (x : Option Nat) :
    KeyAgrees (OverlayedMap.modifyEntry ⟨txs⟩ (firstWrite ms) init f x).transactions (markWritten ms)
      ((some (f (a.1.getD (some init))), a.2 ∪ x.toFinset) :: as) := by
  rw [OverlayedMap.modifyEntry_transactions]
  cases h with
  | absent w => exact .committed _ _ (recorded_new _ x w)
  | committed t w hw => exact .committed _ _ (hw.trans Finset.subset_union_left)
  | clean w h' =>
    -- the first write of the transaction copies the value below
    have hb := h'.top_value
    cases txs with
    | nil =>
      rw [hb]
      exact .written _ (recorded_new _ x w) h'
    | cons t rest =>
      rw [hb]
      exact .written _ (recorded_new _ x w) h'
  | written w hw h' => exact .written _ (hw.trans Finset.subset_union_left) h'

end KeyAgrees

/-! ## The change set against the stack -/

theorem Level.atKey_write_self [DecidableEq K] (l : Level K V) (k : K) (v : V) (x : Option Nat) :
    (l.write k v x).atKey k = (some v, (l.atKey k).2 ∪ x.toFinset) := by
  simp [Level.write, Level.atKey]

theorem Level.atKey_write_of_ne [DecidableEq K] (l : Level K V) {k k' : K} (v : V) (x : Option Nat)
    (hk : k' ≠ k) : (l.write k v x).atKey k' = l.atKey k' := by
  simp [Level.write, Level.atKey, hk]

theorem txsOf_getD (e : Option (OverlayedEntry V)) : e.getD default = ⟨txsOf e⟩ := by
  cases e <;> rfl

theorem OverlayedEntry.set_ne_nil (e : OverlayedEntry V) (v : V) (first : Bool) (x : Option Nat) :
    (e.set v first x).transactions ≠ [] := by
  rw [OverlayedEntry.set_transactions]
  split_ifs with h
  · exact List.cons_ne_nil _ _
  · obtain ⟨txs⟩ := e
    cases txs with
    | nil => simp at h
    | cons t rest => exact List.cons_ne_nil _ _

/-! ## Closing a transaction, key by key -/

/-- What the change set holds of one key: its entry, and the marks. -/
def keyView [LinearOrder K] (m : OverlayedMap K V) (k : K) : Option (OverlayedEntry V) × List Bool :=
  (m.changes.get? k, marksOf m.dirtyKeys k)

theorem keyView_eq {k : K} [LinearOrder K] {m : OverlayedMap K V} {v : Option (OverlayedEntry V) × List Bool}
    (h : keyView m k = v) : m.changes.get? k = v.1 ∧ marksOf m.dirtyKeys k = v.2 :=
  Prod.ext_iff.mp h

/-- What the loop of `close_transaction` does to one key of the closed set,
from its entry and the marks of the transactions still open; `none` where the
source panics. -/
def closeLocal (rollback : Bool) :
    Option (OverlayedEntry V) × List Bool → Option (Option (OverlayedEntry V) × List Bool)
  | (none, _) => none
  | (some overlayed, marks) =>
    if rollback then
      match overlayed.transactions with
      | [] => none
      | [_] => some (none, marks)
      | _ :: t :: rest => some (some ⟨t :: rest⟩, marks)
    else
      let hasPredecessor := match marks with
        | b :: _ => b
        | [] => decide (overlayed.transactions.length > 1)
      if hasPredecessor then
        match overlayed.transactions with
        | dropped :: t :: rest =>
          some (some ⟨{ t with value := dropped.value, extrinsics := t.extrinsics.extend dropped.extrinsics } :: rest⟩,
            markWritten marks)
        | _ => none
      else some (some overlayed, markWritten marks)

namespace KeyAgrees

variable {e : Option (OverlayedEntry V)} {ms : List Bool} {a : Option V × Finset Nat}
  {as : List (Option V × Finset Nat)}

theorem rollback_written (h : KeyAgrees (txsOf e) (true :: ms) (a :: as)) (he : e ≠ some ⟨[]⟩) :
    ∃ r, closeLocal true (e, ms) = some r ∧ r.1 ≠ some ⟨[]⟩ ∧ KeyAgrees (txsOf r.1) r.2 as := by
  rcases e with _ | ⟨⟨txs⟩⟩
  · cases h
  · cases h with
    | @written t rest _ _ w _ h' =>
      cases rest with
      | nil => exact ⟨(none, ms), rfl, by simp, h'⟩
      | cons t' rest => exact ⟨(some ⟨t' :: rest⟩, ms), rfl, by simp, h'⟩

theorem rollback_clean {txs : List (InnerValue V)} (h : KeyAgrees txs (false :: ms) (a :: as)) :
    KeyAgrees txs ms as := by
  cases h with
  | clean w h' => exact h'

theorem commit_written {b : Option V × Finset Nat} (h : KeyAgrees (txsOf e) (true :: ms) (a :: b :: as))
    (he : e ≠ some ⟨[]⟩) :
    ∃ r, closeLocal false (e, ms) = some r ∧ r.1 ≠ some ⟨[]⟩ ∧
      KeyAgrees (txsOf r.1) r.2 ((a.1, b.2 ∪ a.2) :: as) := by
  rcases e with _ | ⟨⟨txs⟩⟩
  · cases h
  · cases h with
    | written w hw h' =>
      have hw' : ∀ w', _ ⊆ w' ∪ w := fun w' => hw.trans Finset.subset_union_right
      cases h' with
      | absent w' => exact ⟨_, rfl, by simp, .committed _ _ (hw' w')⟩
      | committed t' w' hw'' =>
        refine ⟨_, rfl, by simp, .committed _ _ ?_⟩
        rw [InnerValue.recorded, Extrinsics.toFinset_extend]
        exact Finset.union_subset_union hw'' hw
      | clean w' h'' => exact ⟨_, rfl, by simp, .written _ (hw' w') h''⟩
      | written w' hw'' h'' =>
        refine ⟨_, rfl, by simp, .written _ ?_ h''⟩
        rw [InnerValue.recorded, Extrinsics.toFinset_extend]
        exact Finset.union_subset_union hw'' hw

theorem commit_clean {b : Option V × Finset Nat} {txs : List (InnerValue V)}
    (h : KeyAgrees txs (false :: ms) (a :: b :: as)) : KeyAgrees txs ms ((a.1, b.2 ∪ a.2) :: as) := by
  cases h with
  | clean w h' => exact h'.mono Finset.subset_union_left

end KeyAgrees

section Close

variable [LinearOrder K]

/-- What a step of a loop over keys may do to the rest of the change set: at
most record one key in the newest dirty set. -/
def DirtyStep (m m' : OverlayedMap K V) : Prop :=
  (m'.dirtyKeys = m.dirtyKeys ∨ ∃ key, m'.dirtyKeys = (insertDirty m.dirtyKeys key).1) ∧
    m'.numClientTransactions = m.numClientTransactions ∧ m'.executionMode = m.executionMode

theorem foldlM_dirtyStep {ι : Type} {step : OverlayedMap K V → ι → Option (OverlayedMap K V)}
    (hstep : ∀ m i m', step m i = some m' → DirtyStep m m') (items : List ι) (m₀ m' : OverlayedMap K V)
    (h : items.foldlM step m₀ = some m') :
    m'.dirtyKeys.length = m₀.dirtyKeys.length ∧
      ((∀ d ∈ m₀.dirtyKeys, d.Nodup) → ∀ d ∈ m'.dirtyKeys, d.Nodup) ∧
      m'.numClientTransactions = m₀.numClientTransactions ∧ m'.executionMode = m₀.executionMode :=
  PointwiseFold.foldlM_invariant
    (fun m => m.dirtyKeys.length = m₀.dirtyKeys.length ∧
      ((∀ d ∈ m₀.dirtyKeys, d.Nodup) → ∀ d ∈ m.dirtyKeys, d.Nodup) ∧
      m.numClientTransactions = m₀.numClientTransactions ∧ m.executionMode = m₀.executionMode)
    (fun m i m' ⟨hlen, hnodup, hnct, hmode⟩ hs => by
      obtain ⟨hdirty, hnct', hmode'⟩ := hstep m i m' hs
      refine ⟨?_, fun h0 => ?_, hnct'.trans hnct, hmode'.trans hmode⟩
      · rcases hdirty with hdirty | ⟨key, hdirty⟩
        · rw [hdirty, hlen]
        · rw [hdirty, length_insertDirty, hlen]
      · rcases hdirty with hdirty | ⟨key, hdirty⟩
        · rw [hdirty]
          exact hnodup h0
        · rw [hdirty]
          exact nodup_insertDirty (hnodup h0) key)
    items m₀ m' ⟨rfl, id, rfl, rfl⟩ h

theorem closeKey_eq (rollback : Bool) (m : OverlayedMap K V) (key : K) :
    m.closeKey rollback key = (closeLocal rollback (keyView m key)).map fun r =>
      { m with
        changes := match r.1 with
          | some e => m.changes.insert key e
          | none => m.changes.erase key,
        dirtyKeys := if rollback then m.dirtyKeys else (insertDirty m.dirtyKeys key).1 } := by
  unfold OverlayedMap.closeKey keyView
  cases hget : m.changes.get? key with
  | none => rfl
  | some overlayed =>
    obtain ⟨txs⟩ := overlayed
    cases rollback with
    | true =>
      dsimp only [closeLocal, if_true]
      rcases txs with _ | ⟨t, _ | ⟨t', rest⟩⟩ <;> rfl
    | false =>
      dsimp only [closeLocal]
      cases hd : m.dirtyKeys with
      | nil =>
        rcases txs with _ | ⟨t, _ | ⟨t', rest⟩⟩
        · simp [marksOf, insertDirty, OrdMap.insert_of_get? hget]
        · simp [marksOf, insertDirty, OrdMap.insert_of_get? hget]
        · simp [marksOf, insertDirty]
      | cons dk more =>
        by_cases hk : key ∈ dk
        · rcases txs with _ | ⟨t, _ | ⟨t', rest⟩⟩ <;> simp [marksOf, insertDirty, hk, markWritten]
        · simp [marksOf, insertDirty, hk, markWritten, OrdMap.insert_of_get? hget]

theorem closeLocal_marks {rollback : Bool} {v r : Option (OverlayedEntry V) × List Bool}
    (h : closeLocal rollback v = some r) : r.2 = if rollback then v.2 else markWritten v.2 := by
  obtain ⟨e, marks⟩ := v
  cases e with
  | none => cases h
  | some overlayed =>
    cases rollback with
    | true =>
      simp only [closeLocal, if_true] at h
      split at h <;> cases h <;> rfl
    | false =>
      simp only [closeLocal, Bool.false_eq_true, if_false] at h
      split_ifs at h
      · split at h <;> cases h
        rfl
      · cases h
        rfl

theorem closeKey_pointwise (rollback : Bool) :
    PointwiseFold.Pointwise (fun (m : OverlayedMap K V) k => m.closeKey rollback k) id
      (fun k m => keyView m k) (fun _ => closeLocal rollback) where
  frame m i m' h j hj := by
    rw [closeKey_eq] at h
    have hij : i ≠ j := fun hij => hj (hij ▸ rfl)
    obtain ⟨⟨e, marks⟩, -, rfl⟩ := Option.map_eq_some_iff.mp h
    unfold keyView
    congr 1
    · cases e <;> simp [hij]
    · split_ifs
      · rfl
      · rw [marksOf_insertDirty, if_neg (Ne.symm hij)]
  at_self m i := by
    show (m.closeKey rollback i).map (fun m => keyView m i) = closeLocal rollback (keyView m i)
    rw [closeKey_eq, Option.map_map]
    cases hc : closeLocal rollback (keyView m i) with
    | none => rfl
    | some r =>
      have hmarks := closeLocal_marks hc
      obtain ⟨e, marks⟩ := r
      show some (keyView _ i) = some (e, marks)
      unfold keyView
      congr 1
      refine Prod.ext ?_ ?_
      · cases e <;> simp
      · dsimp only at hmarks ⊢
        rw [hmarks]
        split_ifs
        · rfl
        · rw [marksOf_insertDirty, if_pos rfl]
          rfl

theorem closeKey_dirtyStep {rollback : Bool} {m m' : OverlayedMap K V} {key : K}
    (h : m.closeKey rollback key = some m') : DirtyStep m m' := by
  rw [closeKey_eq] at h
  obtain ⟨r, -, rfl⟩ := Option.map_eq_some_iff.mp h
  refine ⟨?_, rfl, rfl⟩
  cases rollback
  · exact .inr ⟨key, rfl⟩
  · exact .inl rfl

/-- **The loop of `close_transaction`**: it does not panic when each key of
the closed set can be closed, closes each of them as `closeLocal` says, and
leaves the other keys, the depth, and the mode as they were. -/
theorem closeLoop (rollback : Bool) (m₀ : OverlayedMap K V) (dk : List K) (hnd : dk.Nodup)
    (hok : ∀ k ∈ dk, (closeLocal rollback (keyView m₀ k)).isSome) :
    ∃ m', dk.foldlM (OverlayedMap.closeKey rollback) m₀ = some m' ∧
      (∀ k ∈ dk, closeLocal rollback (keyView m₀ k) = some (keyView m' k)) ∧
      (∀ k, k ∉ dk → keyView m' k = keyView m₀ k) ∧
      m'.dirtyKeys.length = m₀.dirtyKeys.length ∧
      ((∀ d ∈ m₀.dirtyKeys, d.Nodup) → ∀ d ∈ m'.dirtyKeys, d.Nodup) ∧
      m'.numClientTransactions = m₀.numClientTransactions ∧ m'.executionMode = m₀.executionMode := by
  obtain ⟨m', hm', hin, hout⟩ :=
    PointwiseFold.foldlM_pointwise (closeKey_pointwise rollback) dk m₀ (by rwa [List.map_id]) hok
  exact ⟨m', hm', hin, fun k hk => hout k (by rwa [List.map_id]),
    foldlM_dirtyStep (fun _ _ _ => closeKey_dirtyStep) dk m₀ m' hm'⟩

end Close

/-! ## `clear_where`, key by key -/

section Clear

variable [LinearOrder K] {W : Type} (predicate : K → OverlayedEntry (Option W) → Bool) (x : Option Nat)

/-- What `clear_where` does to the view of a stored key, from the entry the
loop was given for it. -/
def clearLocal (kv : K × OverlayedEntry (Option W)) (v : Option (OverlayedEntry (Option W)) × List Bool) :
    Option (OverlayedEntry (Option W)) × List Bool :=
  if predicate kv.1 kv.2 then (some (kv.2.set none (firstWrite v.2) x), markWritten v.2) else v

theorem clearKey_eq (m : OverlayedMap K (Option W)) (kv : K × OverlayedEntry (Option W)) :
    m.clearKey predicate x kv =
      if predicate kv.1 kv.2 then
        { m with
          changes := m.changes.insert kv.1 (kv.2.set none (insertDirty m.dirtyKeys kv.1).2 x)
          dirtyKeys := (insertDirty m.dirtyKeys kv.1).1 }
      else m := rfl

theorem clearKey_pointwise :
    PointwiseFold.Pointwise (fun (m : OverlayedMap K (Option W)) kv => some (m.clearKey predicate x kv))
      Prod.fst (fun k m => keyView m k) (fun kv v => some (clearLocal predicate x kv v)) where
  frame m kv m' h j hj := by
    cases h
    rw [clearKey_eq]
    split_ifs
    · show keyView _ j = keyView m j
      unfold keyView
      rw [OrdMap.get?_insert, if_neg (Ne.symm hj), marksOf_insertDirty, if_neg hj]
    · rfl
  at_self m kv := by
    rw [Option.map_some, clearKey_eq]
    unfold clearLocal keyView
    split_ifs
    · simp only [OrdMap.get?_insert, marksOf_insertDirty, insertDirty_snd, if_true]
    · rfl

theorem clearKey_dirtyStep (m : OverlayedMap K (Option W)) (kv : K × OverlayedEntry (Option W)) :
    DirtyStep m (m.clearKey predicate x kv) := by
  rw [clearKey_eq]
  split_ifs
  · exact ⟨.inr ⟨kv.1, rfl⟩, rfl, rfl⟩
  · exact ⟨.inl rfl, rfl, rfl⟩

/-- **The loop of `clear_where`**: each stored key is cleared as `clearLocal`
says, from its entry; a key with no entry is left alone. -/
theorem clearLoop (m : OverlayedMap K (Option W)) :
    (∀ k e, m.changes.get? k = some e → keyView (m.clearWhere predicate x) k = clearLocal predicate x (k, e) (keyView m k)) ∧
      (∀ k, m.changes.get? k = none → keyView (m.clearWhere predicate x) k = keyView m k) ∧
      (m.clearWhere predicate x).dirtyKeys.length = m.dirtyKeys.length ∧
      ((∀ d ∈ m.dirtyKeys, d.Nodup) → ∀ d ∈ (m.clearWhere predicate x).dirtyKeys, d.Nodup) ∧
      (m.clearWhere predicate x).numClientTransactions = m.numClientTransactions ∧
      (m.clearWhere predicate x).executionMode = m.executionMode := by
  have hfold := PointwiseFold.foldlM_some (OverlayedMap.clearKey predicate x) m.changes.toList m
  obtain ⟨m', hm', hin, hout⟩ := PointwiseFold.foldlM_pointwise (clearKey_pointwise predicate x)
    m.changes.toList m (OrdMap.keys_nodup m.changes) (fun _ _ => rfl)
  have hm : m' = m.clearWhere predicate x := Option.some.inj (hm'.symm.trans hfold)
  subst hm
  have hframe := foldlM_dirtyStep (fun m kv _ h => Option.some.inj h ▸ clearKey_dirtyStep predicate x m kv)
    m.changes.toList m _ hm'
  refine ⟨fun k e he => (Option.some.inj (hin (k, e) (OrdMap.mem_toList_of_get? he))).symm, fun k hk => hout k ?_,
    hframe⟩
  intro hmem
  obtain ⟨e, he⟩ := (OrdMap.contains_iff_exists _ k).mp ((OrdMap.mem_keys _ k).mp hmem)
  rw [hk] at he
  cases he

end Clear

section Refinement

variable [LinearOrder K] {m : OverlayedMap K V} {s : Snapshots (Level K V)}

/-- **Rule for closing a transaction**: the levels after it against those
before, for a key the transaction wrote and for one it did not. -/
theorem Refines.closeWith (h : Refines m s) {dk : List K} {rest : List (List K)} (hd : m.dirtyKeys = dk :: rest)
    (rollback : Bool) (s' : Snapshots (Level K V)) (hdepth : s'.depth = rest.length)
    (hwritten : ∀ k e ms, KeyAgrees (txsOf e) (true :: ms) (s.toList.map (·.atKey k)) → e ≠ some ⟨[]⟩ →
      ∃ r, closeLocal rollback (e, ms) = some r ∧ r.1 ≠ some ⟨[]⟩ ∧
        KeyAgrees (txsOf r.1) r.2 (s'.toList.map (·.atKey k)))
    (hclean : ∀ k txs ms, KeyAgrees txs (false :: ms) (s.toList.map (·.atKey k)) →
      KeyAgrees txs ms (s'.toList.map (·.atKey k))) :
    ∃ m', dk.foldlM (OverlayedMap.closeKey rollback) { m with dirtyKeys := rest } = some m' ∧ Refines m' s' ∧
      m'.numClientTransactions = m.numClientTransactions ∧ m'.executionMode = m.executionMode := by
  have hnodup : ∀ d ∈ dk :: rest, d.Nodup := hd ▸ h.nodup
  -- the marks of a key: whether the closed transaction wrote it, then those still open
  have hmarks : ∀ k, marksOf m.dirtyKeys k = decide (k ∈ dk) :: marksOf rest k := fun k => by
    rw [hd]
    rfl
  have hagrees : ∀ k, k ∈ dk → KeyAgrees (txsOf (m.changes.get? k)) (true :: marksOf rest k)
      (s.toList.map (·.atKey k)) := fun k hk => by
    have := h.agrees k
    rwa [hmarks, decide_eq_true hk] at this
  obtain ⟨m', hm', hin, hout, hlen, hnd, hnct, hmode⟩ := closeLoop rollback { m with dirtyKeys := rest } dk
    (hnodup dk List.mem_cons_self)
    (fun k hk => by
      obtain ⟨r, hr, -⟩ := hwritten k _ _ (hagrees k hk) (h.nonempty k)
      exact Option.isSome_iff_exists.mpr ⟨r, hr⟩)
  refine ⟨m', hm', ⟨?_, hnd (fun d hd' => hnodup d (List.mem_cons_of_mem _ hd')), fun k => ?_, fun k => ?_⟩,
    hnct, hmode⟩
  · rw [OverlayedMap.transactionDepth, hlen, hdepth]
  · by_cases hk : k ∈ dk
    · obtain ⟨r, hr, hne, -⟩ := hwritten k _ _ (hagrees k hk) (h.nonempty k)
      have hview := Option.some.inj ((hin k hk).symm.trans hr)
      rw [show m'.changes.get? k = r.1 from congrArg Prod.fst hview]
      exact hne
    · rw [show m'.changes.get? k = m.changes.get? k from congrArg Prod.fst (hout k hk)]
      exact h.nonempty k
  · by_cases hk : k ∈ dk
    · obtain ⟨r, hr, -, hagree⟩ := hwritten k _ _ (hagrees k hk) (h.nonempty k)
      have hview := Option.some.inj ((hin k hk).symm.trans hr)
      rw [show m'.changes.get? k = r.1 from congrArg Prod.fst hview,
        show marksOf m'.dirtyKeys k = r.2 from congrArg Prod.snd hview]
      exact hagree
    · have hview := hout k hk
      rw [show m'.changes.get? k = m.changes.get? k from congrArg Prod.fst hview,
        show marksOf m'.dirtyKeys k = marksOf rest k from congrArg Prod.snd hview]
      have := h.agrees k
      rw [hmarks, decide_eq_false hk] at this
      exact hclean k _ _ this

theorem Refines.closeTransaction_of_depth_zero (h : Refines m s) (h0 : s.depth = 0) (rollback : Bool) :
    m.closeTransaction rollback = some (.error ⟨⟩) := by
  have hd : m.dirtyKeys = [] := List.eq_nil_of_length_eq_zero (h.depth.trans h0)
  unfold OverlayedMap.closeTransaction
  split_ifs
  · rfl
  · rw [hd]

/-- The guard of `close_transaction`: in runtime mode only the transactions the
runtime opened may be closed. -/
def OverlayedMap.MayClose (m : OverlayedMap K V) : Prop :=
  m.executionMode = .runtime → m.hasOpenRuntimeTransactions = true

theorem closeTransaction_of_mayClose {m : OverlayedMap K V} (hguard : m.MayClose) {dk : List K}
    {rest : List (List K)} (hd : m.dirtyKeys = dk :: rest) (rollback : Bool) :
    m.closeTransaction rollback = (dk.foldlM (OverlayedMap.closeKey rollback) { m with dirtyKeys := rest }).map .ok := by
  unfold OverlayedMap.closeTransaction
  have hopen : ¬(m.executionMode = .runtime ∧ m.hasOpenRuntimeTransactions = false) := by
    rintro ⟨hmode, hclosed⟩
    rw [hguard hmode] at hclosed
    cases hclosed
  rw [if_neg hopen, hd]

theorem Refines.exists_cons (h : Refines m s) (hpos : 0 < s.depth) :
    ∃ b bs dk rest, s.below = b :: bs ∧ m.dirtyKeys = dk :: rest ∧ bs.length = rest.length ∧
      ∀ k, s.toList.map (·.atKey k) = s.top.atKey k :: b.atKey k :: bs.map (·.atKey k) := by
  obtain ⟨b, bs, hb⟩ : ∃ b bs, s.below = b :: bs := List.exists_cons_of_length_pos hpos
  obtain ⟨dk, rest, hd⟩ : ∃ dk rest, m.dirtyKeys = dk :: rest :=
    List.exists_cons_of_length_pos (show 0 < m.transactionDepth from h.depth ▸ hpos)
  have hlen : bs.length = rest.length := by
    have := h.depth
    rw [OverlayedMap.transactionDepth, hd, Snapshots.depth, hb] at this
    exact (Nat.succ.inj this).symm
  refine ⟨b, bs, dk, rest, hb, hd, hlen, fun k => ?_⟩
  rw [Snapshots.toList, hb]
  rfl

theorem Refines.rollbackTransaction (h : Refines m s) (hguard : m.MayClose) (hpos : 0 < s.depth) :
    ∃ m' s', m.rollbackTransaction = some (.ok m') ∧ s.rollback = some s' ∧ Refines m' s' ∧
      m'.numClientTransactions = m.numClientTransactions ∧ m'.executionMode = m.executionMode := by
  obtain ⟨b, bs, dk, rest, hb, hd, hlen, hlevels⟩ := h.exists_cons hpos
  obtain ⟨m', hm', hr, hnct, hmode⟩ := h.closeWith hd true ⟨b, bs⟩ hlen
    (fun k e ms hk he => (hlevels k ▸ hk).rollback_written he)
    (fun k txs ms hk => (hlevels k ▸ hk).rollback_clean)
  refine ⟨m', ⟨b, bs⟩, ?_, ?_, hr, hnct, hmode⟩
  · rw [OverlayedMap.rollbackTransaction, closeTransaction_of_mayClose hguard hd, hm']
    rfl
  · unfold Snapshots.rollback
    rw [hb]

theorem Refines.commitTransaction (h : Refines m s) (hguard : m.MayClose) (hpos : 0 < s.depth) :
    ∃ m' s', m.commitTransaction = some (.ok m') ∧ s.commit Level.merge = some s' ∧ Refines m' s' ∧
      m'.numClientTransactions = m.numClientTransactions ∧ m'.executionMode = m.executionMode := by
  obtain ⟨b, bs, dk, rest, hb, hd, hlen, hlevels⟩ := h.exists_cons hpos
  obtain ⟨m', hm', hr, hnct, hmode⟩ := h.closeWith hd false ⟨Level.merge s.top b, bs⟩ hlen
    (fun k e ms hk he => (hlevels k ▸ hk).commit_written he)
    (fun k txs ms hk => (hlevels k ▸ hk).commit_clean)
  refine ⟨m', ⟨Level.merge s.top b, bs⟩, ?_, ?_, hr, hnct, hmode⟩
  · rw [OverlayedMap.commitTransaction, closeTransaction_of_mayClose hguard hd, hm']
    rfl
  · unfold Snapshots.commit
    rw [hb]

/-- **Rule for a write of one key**: the key's new entry against the new top
level and the levels below, every other key as it was. -/
theorem Refines.writeKey (h : Refines m s) (key : K) (e : OverlayedEntry V) (l : Level K V)
    (he : e.transactions ≠ [])
    (hagree : KeyAgrees e.transactions (markWritten (marksOf m.dirtyKeys key))
      (l.atKey key :: s.below.map (·.atKey key)))
    (hother : ∀ k, k ≠ key → l.atKey k = s.top.atKey k) :
    Refines { m with changes := m.changes.insert key e, dirtyKeys := (insertDirty m.dirtyKeys key).1 }
      ⟨l, s.below⟩ where
  depth := (length_insertDirty m.dirtyKeys key).trans h.depth
  nodup := nodup_insertDirty h.nodup key
  nonempty k := by
    rw [OrdMap.get?_insert]
    split_ifs with hk
    · intro he'
      exact he (congrArg OverlayedEntry.transactions (Option.some.inj he'))
    · exact h.nonempty k
  agrees k := by
    show KeyAgrees _ _ (l.atKey k :: s.below.map (·.atKey k))
    rw [OrdMap.get?_insert, marksOf_insertDirty]
    by_cases hk : k = key
    · subst hk
      rw [if_pos rfl, if_pos rfl]
      exact hagree
    · rw [if_neg (Ne.symm hk), if_neg hk, hother k hk]
      exact h.agrees k

theorem Refines.set (h : Refines m s) (key : K) (v : V) (x : Option Nat) :
    Refines (m.set key v x) (Spec.set key v x s) := by
  have hagree := (h.agrees key).set v x
  rw [← insertDirty_snd, ← txsOf_getD] at hagree
  refine h.writeKey key _ (s.top.write key v x) (OverlayedEntry.set_ne_nil _ _ _ _) ?_
    (fun k hk => Level.atKey_write_of_ne _ v x hk)
  rw [Level.atKey_write_self]
  exact hagree

theorem Refines.startTransaction (h : Refines m s) : Refines m.startTransaction (s.start Level.fresh) where
  depth := congrArg (· + 1) h.depth
  nodup := by
    intro dk hdk
    rcases List.mem_cons.mp hdk with rfl | hdk
    · exact List.nodup_nil
    · exact h.nodup dk hdk
  nonempty := h.nonempty
  agrees k := (h.agrees k).start

theorem OverlayedMap.modifyEntry_ne_nil {W : Type} (e : OverlayedEntry (Option W)) (first : Bool) (init : W)
    (f : Option W → Option W) (x : Option Nat) : (OverlayedMap.modifyEntry e first init f x).transactions ≠ [] := by
  obtain ⟨txs⟩ := e
  cases txs with
  | nil => simp [OverlayedMap.modifyEntry, OverlayedEntry.set_transactions]
  | cons t rest => cases first <;> simp [OverlayedMap.modifyEntry, OverlayedEntry.set_transactions]

theorem Refines.modify {W : Type} {m : OverlayedMap K (Option W)} {s : Snapshots (Level K (Option W))}
    (h : Refines m s) (key : K) (init : W) (f : Option W → Option W) (x : Option Nat) :
    Refines (m.modify key init f x) (Spec.modify key init f x s) := by
  have hagree := (h.agrees key).modify init f x
  rw [← insertDirty_snd, ← txsOf_getD] at hagree
  refine h.writeKey key _ _ (OverlayedMap.modifyEntry_ne_nil _ _ _ _ _) ?_
    (fun k hk => Level.atKey_write_of_ne _ _ x hk)
  rw [Level.atKey_write_self]
  exact hagree

omit [LinearOrder K] in
theorem Spec.atKey_clearWhere {W : Type} (p : K → Bool) (x : Option Nat) (s : Snapshots (Level K (Option W)))
    (k : K) :
    (Spec.clearWhere p x s).toList.map (·.atKey k) =
      (if p k ∧ (s.top.values k).isSome then (some none, s.top.written k ∪ x.toFinset) else s.top.atKey k) ::
        s.below.map (·.atKey k) := by
  unfold Spec.clearWhere Snapshots.modifyTop Snapshots.toList Level.atKey
  rw [List.map_cons]
  dsimp only
  split_ifs <;> rfl

theorem Refines.top_isSome {k : K} (h : Refines m s) {e : OverlayedEntry V} (he : m.changes.get? k = some e) :
    (s.top.values k).isSome := by
  have htop := (h.agrees k).top_value
  obtain ⟨t, rest, htxs⟩ := List.exists_cons_of_ne_nil fun hnil => h.nonempty k (by rw [he, ← hnil])
  dsimp only [Snapshots.toList, List.map_cons, Level.atKey] at htop
  rw [htop, he, txsOf, Option.map_some, Option.getD_some, htxs]
  rfl

theorem Refines.top_none {k : K} (h : Refines m s) (he : m.changes.get? k = none) : s.top.values k = none := by
  have htop := (h.agrees k).top_value
  dsimp only [Snapshots.toList, List.map_cons, Level.atKey] at htop
  rw [htop, he]
  rfl

theorem Refines.clearWhere {W : Type} {m : OverlayedMap K (Option W)} {s : Snapshots (Level K (Option W))}
    (h : Refines m s) (p : K → Bool) (x : Option Nat) :
    Refines (m.clearWhere (fun k _ => p k) x) (Spec.clearWhere p x s) := by
  obtain ⟨hin, hout, hlen, hnodup, -, -⟩ := clearLoop (fun k _ => p k) x m
  refine ⟨hlen.trans h.depth, hnodup h.nodup, fun k => ?_, fun k => ?_⟩
  · cases he : m.changes.get? k with
    | none =>
      rw [(keyView_eq (hout k he)).1]
      dsimp only [keyView]
      rw [he]
      exact (Option.some_ne_none _).symm
    | some e =>
      rw [(keyView_eq (hin k e he)).1]
      unfold clearLocal
      split_ifs
      · exact fun he' => OverlayedEntry.set_ne_nil e none _ x (congrArg OverlayedEntry.transactions (Option.some.inj he'))
      · exact h.nonempty k
  · have hagree := h.agrees k
    rw [Spec.atKey_clearWhere]
    cases he : m.changes.get? k with
    | none =>
      obtain ⟨hget, hmarks⟩ := keyView_eq (hout k he)
      rw [hget, hmarks, if_neg (fun hc => by rw [h.top_none he] at hc; exact Bool.false_ne_true hc.2)]
      exact hagree
    | some e =>
      obtain ⟨hget, hmarks⟩ := keyView_eq (hin k e he)
      rw [hget, hmarks]
      unfold clearLocal
      dsimp only
      by_cases hp : p k
      · rw [if_pos hp, if_pos ⟨hp, h.top_isSome he⟩]
        rw [he] at hagree
        exact hagree.set none x
      · rw [if_neg hp, if_neg (fun hc => hp hc.1)]
        exact hagree

/-! ## What the change set shows -/

theorem Refines.get_valueRef (h : Refines m s) (k : K) :
    (m.get k).bind OverlayedEntry.valueRef = s.top.values k := by
  have htop := (h.agrees k).top_value
  dsimp only [Snapshots.toList, List.map_cons, Level.atKey] at htop
  rw [htop]
  unfold OverlayedMap.get
  cases m.changes.get? k <;> rfl

theorem Refines.get_eq_none_iff (h : Refines m s) (k : K) : m.get k = none ↔ s.top.values k = none := by
  unfold OverlayedMap.get
  refine ⟨h.top_none, fun hv => ?_⟩
  cases he : m.changes.get? k with
  | none => rfl
  | some e =>
    have hsome := h.top_isSome he
    rw [hv] at hsome
    cases hsome

omit [LinearOrder K] in
theorem Spec.written_eq (k : K) (s : Snapshots (Level K V)) :
    Spec.written k s = (s.toList.map (·.atKey k)).foldr (fun a acc => a.2 ∪ acc) ∅ := by
  rw [Spec.written, List.foldr_map]
  rfl

theorem Refines.extrinsics_subset {k : K} (h : Refines m s) {e : OverlayedEntry V} (he : m.get k = some e) :
    e.extrinsics ⊆ Spec.written k s := by
  apply OverlayedEntry.extrinsics_subset
  have hrec := (h.agrees k).recorded_subset
  unfold OverlayedMap.get at he
  rw [he] at hrec
  rw [Spec.written_eq]
  exact hrec

theorem Refines.closeTransaction_eq_error_iff (h : Refines m s) (hguard : m.MayClose) (rollback : Bool) :
    m.closeTransaction rollback = some (.error ⟨⟩) ↔ s.depth = 0 := by
  refine ⟨fun herr => ?_, fun h0 => h.closeTransaction_of_depth_zero h0 rollback⟩
  by_contra h0
  have hpos : 0 < s.depth := Nat.pos_of_ne_zero h0
  cases rollback with
  | true =>
    obtain ⟨m', -, hok, -⟩ := h.rollbackTransaction hguard hpos
    rw [OverlayedMap.rollbackTransaction, herr] at hok
    cases hok
  | false =>
    obtain ⟨m', -, hok, -⟩ := h.commitTransaction hguard hpos
    rw [OverlayedMap.commitTransaction, herr] at hok
    cases hok

theorem Refines.drainCommited (h : Refines m s) (h0 : s.depth = 0) :
    ∃ l, m.drainCommited = some l ∧ (l.map Prod.fst).Nodup ∧
      ∀ k v, (k, v) ∈ l ↔ s.committed.values k = some v := by
  have hvalue : ∀ k e, m.changes.get? k = some e → s.top.values k = e.transactions.head?.map (·.value) :=
    fun k e he => by
      have htop := (h.agrees k).top_value
      dsimp only [Snapshots.toList, List.map_cons, Level.atKey] at htop
      rw [htop, he]
      rfl
  -- every entry has a newest version, so the map never meets `None`
  have hnewest : ∀ kv ∈ m.changes.toList, ∃ t, kv.2.transactions.head? = some t := by
    rintro ⟨k, e⟩ hkv
    obtain ⟨t, rest, htxs⟩ := List.exists_cons_of_ne_nil fun hnil =>
      h.nonempty k (by rw [OrdMap.get?_of_mem_toList hkv, ← hnil])
    exact ⟨t, by rw [htxs]; rfl⟩
  set f := fun (kv : K × OverlayedEntry V) => kv.2.transactions.head?.map fun t => (kv.1, t.value) with hf
  have hmap := PointwiseFold.mapM_eq_filterMap (f := f) m.changes.toList fun kv hkv => by
    obtain ⟨t, ht⟩ := hnewest kv hkv
    simp only [hf, ht, Option.map_some, Option.isSome_some]
  refine ⟨m.changes.toList.filterMap f, ?_, ?_, fun k v => ?_⟩
  · unfold OverlayedMap.drainCommited
    rw [if_pos (h.depth.trans h0)]
    exact hmap
  · -- the keys drained are the keys of the change set
    rw [List.map_filterMap, List.filterMap_congr (g := some ∘ Prod.fst), List.filterMap_eq_map]
    · exact OrdMap.keys_nodup m.changes
    · intro kv hkv
      obtain ⟨t, ht⟩ := hnewest kv hkv
      simp only [hf, ht, Option.map_some, Function.comp_apply]
  · rw [Snapshots.committed_of_depth_zero h0, List.mem_filterMap]
    constructor
    · rintro ⟨⟨k', e⟩, hkv, hdrained⟩
      obtain ⟨t, ht, hkt⟩ := Option.map_eq_some_iff.mp hdrained
      obtain ⟨rfl, rfl⟩ := Prod.mk.inj hkt
      rw [hvalue _ _ (OrdMap.get?_of_mem_toList hkv), ht]
      rfl
    · intro hv
      cases he : m.changes.get? k with
      | none =>
        rw [h.top_none he] at hv
        cases hv
      | some e =>
        refine ⟨(k, e), OrdMap.mem_toList_of_get? he, ?_⟩
        rw [hvalue k e he] at hv
        obtain ⟨t, ht, rfl⟩ := Option.map_eq_some_iff.mp hv
        simp only [hf, ht, Option.map_some]

theorem Refines.default : Refines (default : OverlayedMap K V) (Snapshots.single Level.empty) where
  depth := rfl
  nodup := fun _ hd => absurd hd List.not_mem_nil
  nonempty := fun _ => (Option.some_ne_none _).symm
  agrees := fun _ => .absent ∅

end Refinement

/-! ## Runs -/

section Run

variable {W : Type} [LinearOrder K]

/-- What each call does to the stack; closing with no transaction open leaves
it as it was. -/
def Op.spec (s : Snapshots (Level K (Option W))) : Op K W → Snapshots (Level K (Option W))
  | .set k v x => Spec.set k v x s
  | .modify k init f x => Spec.modify k init f x s
  | .clearWhere p x => Spec.clearWhere p x s
  | .startTransaction => s.start Level.fresh
  | .commitTransaction => (s.commit Level.merge).getD s
  | .rollbackTransaction => s.rollback.getD s

/-- The stack a run leads to from the empty store. -/
def Spec.run (ops : List (Op K W)) : Snapshots (Level K (Option W)) :=
  ops.foldl Op.spec (Snapshots.single Level.empty)

variable {m : OverlayedMap K (Option W)} {s : Snapshots (Level K (Option W))}

theorem Refines.close (h : Refines m s) (hguard : m.MayClose) (rollback : Bool) :
    ∃ m', (m.closeTransaction rollback).map (fun r => r.toOption.getD m) = some m' ∧
      Refines m' (((if rollback then s.rollback else s.commit Level.merge)).getD s) ∧
      m'.executionMode = m.executionMode := by
  by_cases h0 : s.depth = 0
  · refine ⟨m, by rw [h.closeTransaction_of_depth_zero h0]; rfl, ?_, rfl⟩
    cases rollback
    · rw [if_neg Bool.false_ne_true, (Snapshots.commit_eq_none_iff _ _).mpr h0]
      exact h
    · rw [if_pos rfl, (Snapshots.rollback_eq_none_iff _).mpr h0]
      exact h
  · have hpos : 0 < s.depth := Nat.pos_of_ne_zero h0
    cases rollback with
    | true =>
      obtain ⟨m', s', hm', hs', hr, -, hmode⟩ := h.rollbackTransaction hguard hpos
      refine ⟨m', ?_, ?_, hmode⟩
      · rw [← OverlayedMap.rollbackTransaction, hm']
        rfl
      · rw [if_pos rfl, hs']
        exact hr
    | false =>
      obtain ⟨m', s', hm', hs', hr, -, hmode⟩ := h.commitTransaction hguard hpos
      refine ⟨m', ?_, ?_, hmode⟩
      · rw [← OverlayedMap.commitTransaction, hm']
        rfl
      · rw [if_neg Bool.false_ne_true, hs']
        exact hr

/-- **One call of a client** keeps the refinement and never panics. -/
theorem Refines.apply (h : Refines m s) (hmode : m.executionMode = .client) (op : Op K W) :
    ∃ m', op.apply m = some m' ∧ (Refines m' (op.spec s) ∧ m'.executionMode = .client) := by
  -- a client closes only the transactions it opened
  have hguard : m.MayClose := fun hrt => by rw [hmode] at hrt; cases hrt
  cases op with
  | set k v x => exact ⟨_, rfl, h.set k v x, hmode⟩
  | modify k init f x => exact ⟨_, rfl, h.modify k init f x, hmode⟩
  | clearWhere p x => exact ⟨_, rfl, h.clearWhere p x, (clearLoop (fun k _ => p k) x m).2.2.2.2.2.trans hmode⟩
  | startTransaction => exact ⟨_, rfl, h.startTransaction, hmode⟩
  | commitTransaction =>
    obtain ⟨m', hm', hr, hmode'⟩ := h.close hguard false
    exact ⟨m', hm', hr, hmode'.trans hmode⟩
  | rollbackTransaction =>
    obtain ⟨m', hm', hr, hmode'⟩ := h.close hguard true
    exact ⟨m', hm', hr, hmode'.trans hmode⟩

/-- **Runs of a client**: from related change set and stack, a whole run
never panics and ends related. -/
theorem Refines.run (h : Refines m s) (hmode : m.executionMode = .client) (ops : List (Op K W)) :
    ∃ m', ops.foldlM Op.apply m = some m' ∧ (Refines m' (ops.foldl Op.spec s) ∧ m'.executionMode = .client) :=
  StepRun.foldlM_simulation (fun m s => Refines m s ∧ m.executionMode = .client)
    (fun _ _ op ⟨h, hmode⟩ => h.apply hmode op) ops m s ⟨h, hmode⟩

theorem changeset_refines_snapshots (ops : List (Op K W)) :
    ∃ m, ops.foldlM Op.apply default = some m ∧
      m.transactionDepth = (Spec.run ops).depth ∧
      (∀ k, (m.get k).bind OverlayedEntry.valueRef = (Spec.run ops).top.values k) ∧
      (∀ k, m.get k = none ↔ (Spec.run ops).top.values k = none) ∧
      (∀ k e, m.get k = some e → e.extrinsics ⊆ Spec.written k (Spec.run ops)) ∧
      (∀ rollback, m.closeTransaction rollback = some (.error ⟨⟩) ↔ (Spec.run ops).depth = 0) ∧
      ((Spec.run ops).depth = 0 → ∃ l, m.drainCommited = some l ∧ (l.map Prod.fst).Nodup ∧
        ∀ k v, (k, v) ∈ l ↔ (Spec.run ops).committed.values k = some v) := by
  obtain ⟨m, hm, hr, hmode⟩ := Refines.default.run rfl ops
  have hguard : m.MayClose := fun hrt => by rw [hmode] at hrt; cases hrt
  exact ⟨m, hm, hr.depth, hr.get_valueRef, hr.get_eq_none_iff, fun _ _ he => hr.extrinsics_subset he,
    hr.closeTransaction_eq_error_iff hguard, hr.drainCommited⟩

/-- A write, then a `modify` of the same key in the same transaction. -/
def modifyAfterSet : List (Op Nat Nat) := [.set 0 (some 1) (some 1), .modify 0 7 (fun _ => some 2) (some 2)]

theorem modify_drops_extrinsic :
    ((modifyAfterSet.foldlM Op.apply default).bind fun m => (m.get 0).map OverlayedEntry.extrinsics) = some {1} ∧
      Spec.written 0 (Spec.run modifyAfterSet) = {1, 2} := by
  decide

end Run

end StateMachine
