import CherryNode.ForkTree.Items
import CherryNode.ForkTree.WellFormed
import CherryNode.Epochs.EpochChanges

/-!
# The fork tree and the epoch map stay in sync

`EpochChanges` is `InSync` when `epochs` has a key for exactly the
`(hash, number)` of each node of `inner`, holding an epoch with the node's
header.  With oracles exact for a block tree `B` (`exactBuilder`), each block
imported with its number before its descendants, again only with the epoch it
has, and `reset` given a block and its parent (`FollowsBlocks`), every run from
`EpochChanges::new` stays in sync (`epoch_changes_stay_in_sync`).

The tree stays `ForestWF`, so its hashes are distinct: a successful `import`
adds a new block, and `prune` removes no item it keeps.  An `import` refused as
a duplicate met the block with its own number, so the map already holds the
epoch it writes back; `prune` never fails with a total oracle.
-/

namespace Epochs

open EStateRun

variable {H N E Slot Err : Type} [LinearOrder H] [LinearOrder N] [Epoch E Slot]
variable {V : Type} {changes : EpochChanges H N E Slot} {hash : H} {number : N} {epoch : PersistedEpoch E}

/-- The key of a tree item in `epochs`. -/
def itemKey {V : Type} (x : H × N × V) : H ×ₗ N := toLex (x.1, x.2.1)

variable {x y : H × N × V}

omit [LinearOrder H] [LinearOrder N] in
theorem hash_eq_of_itemKey_eq (h : itemKey x = itemKey y) : x.1 = y.1 := by
  simp only [itemKey, toLex_inj, Prod.mk.injEq] at h
  exact h.1

/-- The map has an epoch for exactly the blocks of the tree, and each with the
header the tree holds. -/
structure InSync (changes : EpochChanges H N E Slot) : Prop where
  keys : ∀ k, k ∈ changes.epochs.keys ↔ ∃ x ∈ changes.inner.iter, itemKey x = k
  headers : ∀ x ∈ changes.inner.iter,
    (changes.epochs.get? (itemKey x)).map PersistedEpochHeader.of = some x.2.2

theorem mem_keys_iff_isSome {κ ν : Type} [LinearOrder κ] (m : OrdMap κ ν) (k : κ) :
    k ∈ m.keys ↔ (m.get? k).isSome := by
  rw [OrdMap.mem_keys]
  rfl

omit [LinearOrder H] in
theorem hashes_nodup {B : BlockTree H N} {tree : ForkTree.ForkTree H N V}
    (h : ForkTree.ForestWF B tree.roots) : (tree.items.map (·.1)).Nodup := by
  have hnd := h.nodup
  simp only [ForkTree.ForkTree.items, ForkTree.Node.itemsOf, Multiset.map_coe, Multiset.coe_nodup, List.map_map]
  exact hnd

omit [LinearOrder H] [LinearOrder N] in
theorem hash_ne_of_nodup_add {s t : Multiset (H × N × V)} (h : ((s + t).map (·.1)).Nodup)
    (hx : x ∈ s) (hy : y ∈ t) : x.1 ≠ y.1 := by
  rw [Multiset.map_add, Multiset.nodup_add] at h
  exact Multiset.disjoint_left.mp h.2.2 (Multiset.mem_map_of_mem _ hx) |> fun hnot heq =>
    hnot (heq ▸ Multiset.mem_map_of_mem _ hy)

variable (B : BlockTree H N)

/-- The builder of an oracle answering for `B`, whatever block it is handed. -/
def exactBuilder : DescendentOfBuilder H Err := fun _ => ForkTree.exactOracle B

/-- What a run asks of each call: an epoch is imported at its block's number,
before any descendant of the block, and, when the map has one for the block,
with that epoch; `reset` is given a block, its parent and its number. -/
def FollowsBlocks [Sub N] [One N] (changes : EpochChanges H N E Slot) : Op H N E Slot → Prop
  | .«import» hash number _ epoch =>
    ForkTree.ImportsInOrder B changes.inner (.«import» hash number (PersistedEpochHeader.of epoch)) ∧
      ∀ e ∈ changes.epochs.get? (toLex (hash, number)), e = epoch
  | .pruneFinalized .. => True
  | .reset parentHash hash number _ _ =>
    B.anc parentHash hash ∧ B.num parentHash = number - 1 ∧ B.num hash = number

/-- The invariant of a run: the tree is well formed and in sync with the map. -/
structure Synced (changes : EpochChanges H N E Slot) : Prop where
  wf : ForkTree.ForestWF B changes.inner.roots
  sync : InSync changes

variable {B}

theorem Synced.new : Synced B (EpochChanges.new : EpochChanges H N E Slot) :=
  ⟨ForkTree.ForestWF.nil, ⟨by simp [EpochChanges.new, OrdMap.keys, OrdMap.empty, ForkTree.ForkTree.new,
    ForkTree.ForkTree.iter, ForkTree.ForkTree.nodeIter], by simp [EpochChanges.new, ForkTree.ForkTree.new,
    ForkTree.ForkTree.iter, ForkTree.ForkTree.nodeIter]⟩⟩

/-! ## `import` -/

theorem InSync.import_ok (h : InSync changes)
    {inner : ForkTree.ForkTree H N (PersistedEpochHeader Slot)}
    (hitems : inner.items = changes.inner.items + {(hash, number, PersistedEpochHeader.of epoch)})
    (hnd : (inner.items.map (·.1)).Nodup) :
    InSync (⟨inner, changes.epochs.insert (toLex (hash, number)) epoch⟩ : EpochChanges H N E Slot) := by
  rw [hitems] at hnd
  -- the blocks the tree had are not the imported one
  have hfresh : ∀ x ∈ changes.inner.items, x.1 ≠ hash := fun x hx =>
    hash_ne_of_nodup_add hnd hx (Multiset.mem_singleton_self _)
  constructor
  · intro k
    simp only [OrdMap.mem_keys_insert, h.keys k, ForkTree.ForkTree.mem_iter, hitems, Multiset.mem_add,
      Multiset.mem_singleton]
    constructor
    · rintro (rfl | ⟨x, hx, rfl⟩)
      · exact ⟨_, .inr rfl, rfl⟩
      · exact ⟨x, .inl (ForkTree.ForkTree.mem_iter.mp hx), rfl⟩
    · rintro ⟨x, hx | rfl, rfl⟩
      · exact .inr ⟨x, ForkTree.ForkTree.mem_iter.mpr hx, rfl⟩
      · exact .inl rfl
  · intro x hx
    rw [ForkTree.ForkTree.mem_iter, hitems, Multiset.mem_add, Multiset.mem_singleton] at hx
    rcases hx with hx | rfl
    · have hne : toLex (hash, number) ≠ itemKey x := fun heq =>
        hfresh x hx (hash_eq_of_itemKey_eq (y := (hash, number, PersistedEpochHeader.of epoch)) heq.symm)
      rw [OrdMap.get?_insert_of_ne _ _ hne]
      exact h.headers x (ForkTree.ForkTree.mem_iter.mpr hx)
    · simp [itemKey]

theorem Synced.import_duplicate [Sub N] [One N] (h : Synced B changes)
    (hnumber : number = B.num hash)
    (hsame : ∀ e ∈ changes.epochs.get? (toLex (hash, number)), e = epoch)
    (hmem : ∃ x ∈ changes.inner.nodeIter, x.hash = hash) :
    changes.epochs.insert (toLex (hash, number)) epoch = changes.epochs := by
  obtain ⟨x, hx, rfl⟩ := hmem
  have hxnum : x.number = number := by
    rw [(h.wf.of_mem_preorderOf hx).number_eq, hnumber]
  have hkey : toLex (x.hash, number) ∈ changes.epochs.keys :=
    (h.sync.keys _).mpr ⟨x.item, List.mem_map_of_mem hx, by simp [itemKey, ForkTree.Node.item, hxnum]⟩
  obtain ⟨e, he⟩ := Option.isSome_iff_exists.mp ((mem_keys_iff_isSome _ _).mp hkey)
  rw [← hsame e he]
  exact OrdMap.insert_of_get? he

theorem Synced.import [Sub N] [One N] (h : Synced B changes)
    {parentHash : H}
    (hop : FollowsBlocks B changes (.«import» hash number parentHash epoch)) :
    Synced B (stateOf (EpochChanges.«import» (exactBuilder B : DescendentOfBuilder H Err) hash number parentHash epoch changes)) := by
  obtain ⟨⟨hnumber, horder⟩, hsame⟩ := hop
  have hwf : ForkTree.ForestWF B (stateOf (ForkTree.ForkTree.«import» hash number (PersistedEpochHeader.of epoch)
      (ForkTree.exactOracle (E := Err) B) changes.inner)).roots := h.wf.import hnumber horder
  simp only [EpochChanges.«import», exactBuilder]
  cases himport : ForkTree.ForkTree.«import» hash number (PersistedEpochHeader.of epoch)
      (ForkTree.exactOracle (E := Err) B) changes.inner with
  | ok isRoot inner =>
    rw [himport, stateOf_ok] at hwf
    exact ⟨hwf, h.sync.import_ok (ForkTree.ForkTree.items_import himport) (hashes_nodup hwf)⟩
  | error e inner =>
    -- an error leaves the tree as it was
    obtain rfl := ForkTree.ForkTree.import_error_eq himport
    cases e with
    | duplicate =>
      simp only [stateOf_ok]
      rw [h.import_duplicate hnumber hsame (ForkTree.ForkTree.import_duplicate_mem himport)]
      exact h
    | unfinalizedAncestor => exact h
    | revert => exact h
    | client e => exact h

/-! ## `prune_finalized` -/

theorem Synced.pruneFinalized [LinearOrder Slot] (h : Synced B changes)
    (hash : H) (number : N) (slot : Slot) :
    Synced B (stateOf (EpochChanges.pruneFinalized (exactBuilder B : DescendentOfBuilder H Err) hash number slot changes)) := by
  have hwf : ForkTree.ForestWF B (stateOf (ForkTree.ForkTree.prune hash number (ForkTree.exactOracle (E := Err) B)
      (EpochChanges.epochEnded slot) changes.inner)).roots := h.wf.prune _
  simp only [EpochChanges.pruneFinalized, exactBuilder]
  cases hprune : ForkTree.ForkTree.prune hash number (ForkTree.exactOracle (E := Err) B)
      (EpochChanges.epochEnded slot) changes.inner with
  | error e inner =>
    -- the exact oracle never fails
    exact absurd hprune (ForkTree.ForkTree.prune_ne_error (fun _ _ => ⟨_, rfl⟩) _ _ _)
  | ok removed inner =>
    rw [hprune, stateOf_ok] at hwf
    have hitems := ForkTree.ForkTree.items_prune hprune
    have hnd := hashes_nodup h.wf
    rw [← hitems] at hnd
    -- the fold of `prune_finalized` removes the removed items' keys
    have hfold : (ForkTree.ForkTree.removedItems removed).foldl
        (fun epochs x => epochs.erase (toLex (x.1, x.2.1))) changes.epochs =
          (ForkTree.ForkTree.removedItems removed).foldl (fun m x => m.erase (itemKey x)) changes.epochs := rfl
    have hget := OrdMap.get?_foldl_erase itemKey (ForkTree.ForkTree.removedItems removed) changes.epochs
    simp only [stateOf_ok]
    rw [hfold]
    have hkept : ∀ x ∈ inner.items, itemKey x ∉ (ForkTree.ForkTree.removedItems removed).map itemKey := by
      intro x hx hrem
      obtain ⟨y, hy, hyx⟩ := List.mem_map.mp hrem
      exact hash_ne_of_nodup_add hnd hx (Multiset.mem_coe.mpr hy) (hash_eq_of_itemKey_eq hyx).symm
    refine ⟨hwf, ⟨fun k => ?_, fun x hx => ?_⟩⟩
    · rw [mem_keys_iff_isSome, hget]
      split_ifs with hk
      · -- a removed block's key is no key of the tree left
        simp only [Option.isSome_none, Bool.false_eq_true, false_iff]
        rintro ⟨x, hx, rfl⟩
        exact hkept x (ForkTree.ForkTree.mem_iter.mp hx) hk
      · rw [← mem_keys_iff_isSome, h.sync.keys k]
        constructor
        · rintro ⟨x, hx, rfl⟩
          rw [ForkTree.ForkTree.mem_iter, ← hitems, Multiset.mem_add] at hx
          rcases hx with hx | hx
          · exact ⟨x, ForkTree.ForkTree.mem_iter.mpr hx, rfl⟩
          · exact absurd (List.mem_map_of_mem (Multiset.mem_coe.mp hx)) hk
        · rintro ⟨x, hx, rfl⟩
          have hx' : x ∈ changes.inner.items := by
            rw [← hitems]
            exact Multiset.mem_add.mpr (.inl (ForkTree.ForkTree.mem_iter.mp hx))
          exact ⟨x, ForkTree.ForkTree.mem_iter.mpr hx', rfl⟩
    · have hx' := ForkTree.ForkTree.mem_iter.mp hx
      rw [hget, if_neg (hkept x hx')]
      apply h.sync.headers x
      rw [ForkTree.ForkTree.mem_iter, ← hitems]
      exact Multiset.mem_add.mpr (.inl hx')

/-! ## `reset` -/

section Reset

variable [Sub N] [One N]

theorem reset_inner (parentHash hash : H) (number : N) (current next : E) (hne : parentHash ≠ hash)
    (hlt : number - 1 < number) :
    (EpochChanges.reset parentHash hash number current next : EpochChanges H N E Slot).inner =
      ⟨[⟨parentHash, number - 1, .of (.regular current), [⟨hash, number, .of (.regular next), []⟩]⟩], none⟩ := by
  simp [EpochChanges.reset, ForkTree.ForkTree.«import», ForkTree.ForkTree.reverts,
    ForkTree.ForkTree.importRoots_eq_importChildren, ForkTree.Node.importChildren, ForkTree.Node.«import»,
    ForkTree.ForkTree.new, ForkTree.ForkTree.rebalance, ForkTree.Node.sortByDepth, ForkTree.Node.rebalance_mk, hne,
    not_le.mpr hlt]

theorem Synced.reset (parentHash hash : H) (number : N) (current next : E)
    (hop : B.anc parentHash hash ∧ B.num parentHash = number - 1 ∧ B.num hash = number) :
    Synced B (EpochChanges.reset parentHash hash number current next : EpochChanges H N E Slot) := by
  obtain ⟨hanc, hparent, hnum⟩ := hop
  have hne : parentHash ≠ hash := B.ne_of_anc hanc
  have hlt : number - 1 < number := by
    rw [← hparent, ← hnum]
    exact B.num_lt hanc
  have hkey : toLex (hash, number) ≠ toLex (parentHash, number - 1) := by
    simp [Ne.symm hne]
  have hinner : (EpochChanges.reset parentHash hash number current next : EpochChanges H N E Slot).inner = _ :=
    reset_inner parentHash hash number current next hne hlt
  refine ⟨?_, ⟨fun k => ?_, fun x hx => ?_⟩⟩
  · -- the block below its parent, each at its number
    rw [hinner]
    refine ForkTree.ForestWF.singleton (.mk hparent.symm ?_ (List.pairwise_singleton _ _) ?_)
    · simpa using hanc
    · simpa using ForkTree.NodeWF.mk hnum.symm (by simp) List.Pairwise.nil (by simp)
  · rw [hinner]
    simp only [EpochChanges.reset, OrdMap.mem_keys_insert, ForkTree.ForkTree.iter, ForkTree.ForkTree.nodeIter]
    simp only [ForkTree.Node.preorderOf_cons, ForkTree.Node.preorder_mk, ForkTree.Node.preorderOf_nil,
      List.cons_append, List.nil_append, List.mem_cons, List.not_mem_nil, or_false, exists_eq_or_imp,
      exists_eq_left, ForkTree.Node.item, itemKey, List.map_cons, List.map_nil]
    simp [OrdMap.keys, OrdMap.empty, or_comm, eq_comm]
  · simp only [hinner, ForkTree.ForkTree.iter, ForkTree.ForkTree.nodeIter] at hx
    simp only [ForkTree.Node.preorderOf_cons, ForkTree.Node.preorder_mk, ForkTree.Node.preorderOf_nil,
      List.map_cons, List.map_nil, List.cons_append, List.nil_append, List.mem_cons, List.not_mem_nil,
      or_false, ForkTree.Node.item] at hx
    rcases hx with rfl | rfl
    · simp [EpochChanges.reset, itemKey, hkey]
    · simp [EpochChanges.reset, itemKey]

end Reset

/-! ## Runs -/

variable [Sub N] [One N] [LinearOrder Slot]

theorem Synced.apply (h : Synced B changes) {op : Op H N E Slot}
    (hop : FollowsBlocks B changes op) : Synced B (Op.apply (exactBuilder B : DescendentOfBuilder H Err) changes op) := by
  cases op with
  | «import» hash number parentHash epoch => exact h.import hop
  | pruneFinalized hash number slot => exact h.pruneFinalized hash number slot
  | reset parentHash hash number current next => exact Synced.reset parentHash hash number current next hop

theorem epoch_changes_stay_in_sync (B : BlockTree H N) (ops : List (Op H N E Slot))
    (hguard : StepRun.Guarded (Op.apply (exactBuilder B : DescendentOfBuilder H Err)) (FollowsBlocks B) EpochChanges.new ops) :
    InSync (ops.foldl (Op.apply (exactBuilder B : DescendentOfBuilder H Err)) EpochChanges.new) :=
  (StepRun.foldl_invariant (Synced B) (FollowsBlocks B) (fun _ _ h hop => h.apply hop) ops
    EpochChanges.new Synced.new hguard).sync

/-- An epoch given by its slots. -/
structure SlotRange where
  startSlot : Nat
  endSlot : Nat
  deriving DecidableEq

instance : Epoch SlotRange Nat := ⟨SlotRange.startSlot, SlotRange.endSlot⟩

/-- Blocks 1 and 2 announce epochs, and block 2 is finalized at slot 7. -/
def importTwiceThenPrune : List (Op Nat Nat SlotRange Nat) :=
  [.«import» 1 1 0 (.regular ⟨0, 5⟩), .«import» 2 2 1 (.regular ⟨5, 10⟩), .pruneFinalized 2 2 7]

theorem epoch_changes_stay_in_sync_importTwiceThenPrune :
    StepRun.Guarded (Op.apply (exactBuilder ForkTree.natBranch : DescendentOfBuilder Nat Unit)) (FollowsBlocks ForkTree.natBranch)
        EpochChanges.new importTwiceThenPrune ∧
      InSync (importTwiceThenPrune.foldl (Op.apply (exactBuilder ForkTree.natBranch : DescendentOfBuilder Nat Unit))
        EpochChanges.new) := by
  have hguard : StepRun.Guarded (Op.apply (exactBuilder ForkTree.natBranch : DescendentOfBuilder Nat Unit))
      (FollowsBlocks ForkTree.natBranch) EpochChanges.new importTwiceThenPrune := by
    simp [StepRun.Guarded, FollowsBlocks, importTwiceThenPrune, Op.apply, EpochChanges.«import», EpochChanges.new,
      ForkTree.ImportsInOrder, ForkTree.ForkTree.«import», ForkTree.ForkTree.importRoots, ForkTree.ForkTree.reverts,
      ForkTree.ForkTree.new, ForkTree.ForkTree.rebalance, ForkTree.Node.sortByDepth, ForkTree.Node.rebalance_mk,
      ForkTree.ForkTree.nodeIter, ForkTree.natBranch, exactBuilder]
  exact ⟨hguard, epoch_changes_stay_in_sync ForkTree.natBranch importTwiceThenPrune hguard⟩

end Epochs
