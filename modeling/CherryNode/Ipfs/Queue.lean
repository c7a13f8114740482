import CherryNode.Ipfs.Spec

/-!
# pallet-ipfs: the request queue across blocks

Block `n` runs `on_initialize(n)`, then its extrinsics, and its offchain worker
reads the `DataQueue` left at the end (`handle_data_requests` writes nothing
back).  The queue is cleared by `on_initialize` on odd blocks and by every
`submit_ipfs_*_results`.

To speak of one pushed command, a proof-only ghost tags each entry with the
block that pushed it and its number among all pushes (`TaggedSt`).  Every
extrinsic clears or appends (`dataQueue_applyCall`), so the tags follow the
queue exactly (`snapshotsT_untagged`).  Over every run a command pushed in block `n`
is read only by the workers of `n` and of `n + 1`, the latter only for odd `n`
(`snapshot_tag_block`): twice, or never (`queue_read_twice_or_never`).
-/

namespace PalletIpfs

open Frame

attribute [local instance] byte_neZero

variable {Acc : Type} [LinearOrder Acc]

/-! ## What an extrinsic does to the queue -/

/-- Every extrinsic of the pallet either empties `DataQueue` or appends to it. -/
theorem dataQueue_applyCall (m : Nat) (s : St Acc) (o : Origin Acc) (c : IpfsCall Acc) :
    (applyCall (dispatch m o c) s).dataQueue = [] ∨
      ∃ cs, (applyCall (dispatch m o c) s).dataQueue = s.dataQueue ++ cs := by
  cases o with
  | root => rw [applyCall_unsigned m s _ (by simp) c]; exact .inr ⟨[], by simp⟩
  | none => rw [applyCall_unsigned m s _ (by simp) c]; exact .inr ⟨[], by simp⟩
  | signed a =>
    -- a queue left as it was is an append of nothing
    have keep : ∀ s' : St Acc, s'.dataQueue = s.dataQueue →
        s'.dataQueue = [] ∨ ∃ cs, s'.dataQueue = s.dataQueue ++ cs :=
      fun s' h => .inr ⟨[], by simp [h]⟩
    cases c with
    | createIpfsAsset addr cid size =>
      rw [dispatch, applyCall_createIpfsAsset]
      split_ifs
      · exact keep _ rfl
      · exact .inr ⟨_, rfl⟩
    | createIpfsAssetRaw addr data =>
      rw [dispatch, applyCall_createIpfsAssetRaw]
      split_ifs
      · exact keep _ rfl
      · exact .inr ⟨_, rfl⟩
    | pinIpfsAsset addr cid =>
      rw [dispatch, applyCall_pinIpfsAsset]
      split
      · split_ifs
        · exact .inr ⟨_, rfl⟩
        · exact keep _ rfl
      · exact keep _ rfl
    | unpinIpfsAsset addr cid =>
      rw [dispatch, applyCall_unpinIpfsAsset]
      split
      · split_ifs
        · exact .inr ⟨_, rfl⟩
        · exact keep _ rfl
      · exact keep _ rfl
    | deleteIpfsAsset addr cid =>
      rw [dispatch, applyCall_deleteIpfsAsset]
      split
      · split_ifs
        · exact .inr ⟨[.removePin addr cid a true, .removeBlock addr cid a], by simp⟩
        · exact .inr ⟨[.removeBlock addr cid a], by simp⟩
        · exact keep _ rfl
      · exact keep _ rfl
    | readFile addr cid =>
      rw [dispatch, applyCall_readFile]
      split
      · split_ifs
        · exact .inr ⟨_, rfl⟩
        · exact keep _ rfl
      · exact keep _ rfl
    | submitIpfsIdentity => exact keep _ rfl
    | submitIpfsAddResults admin cid size =>
      rw [dispatch, applyCall_submitIpfsAddResults]
      split_ifs <;> exact .inl rfl
    | submitIpfsPinResults cid =>
      rw [dispatch, applyCall_submitIpfsPinResults]
      split
      · exact .inl rfl
      · exact keep _ rfl
    | submitIpfsUnpinResults cid =>
      rw [dispatch, applyCall_submitIpfsUnpinResults]
      split
      · exact .inl rfl
      · exact keep _ rfl
    | submitIpfsDeleteResults cid =>
      rw [dispatch, applyCall_submitIpfsDeleteResults]
      split
      · split_ifs
        · exact keep _ rfl
        · exact .inl (by simp)
      · exact .inl rfl
    | addOwner cid acct l =>
      rw [dispatch, applyCall_addOwner]
      split
      · split_ifs <;> exact keep _ rfl
      · exact keep _ rfl
    | removeOwnership cid acct =>
      rw [dispatch, applyCall_removeOwnership]
      split_ifs
      · exact keep _ rfl
      · split
        · split_ifs
          · exact keep _ rfl
          · exact keep _ rfl
        · exact keep _ rfl
    | changeOwnership cid acct l =>
      rw [dispatch, applyCall_changeOwnership]
      split
      · split
        · split_ifs <;> exact keep _ rfl
        · exact keep _ rfl
      · exact keep _ rfl

theorem dataQueue_onInitialize (n : Nat) (s : St Acc) :
    (onInitialize n s).dataQueue = [] ∨ (onInitialize n s).dataQueue = s.dataQueue := by
  unfold onInitialize
  split_ifs
  · exact .inl rfl
  · exact .inr rfl

/-! ## Blocks and the offchain worker -/

/-- The extrinsics of one block. -/
abbrev Extrinsics (Acc : Type) := List (Origin Acc × IpfsCall Acc)

/-- Block `n`: `on_initialize(n)`, then the extrinsics in order. -/
def execBlock (m n : Nat) (s : St Acc) (b : Extrinsics Acc) : St Acc :=
  b.foldl (fun s e => applyCall (dispatch m e.1 e.2) s) (onInitialize n s)

/-- What the offchain workers of blocks `n`, `n + 1`, ... read: the queue at the
end of each block. -/
def snapshots (m : Nat) : Nat → St Acc → List (Extrinsics Acc) → List (List (DataCommand Acc))
  | _, _, [] => []
  | n, s, b :: bs => (execBlock m n s b).dataQueue :: snapshots m (n + 1) (execBlock m n s b) bs

/-! ## Ghost tags -/

/-- A queue entry with its ghost tag: the block that pushed it and its number
among all pushes of the run. -/
abbrev Tagged (Acc : Type) := (Nat × Nat) × DataCommand Acc

/-- The storage with the tagged queue and the number of pushes so far. -/
structure TaggedSt (Acc : Type) [LinearOrder Acc] where
  st : St Acc
  tagged : List (Tagged Acc)
  pushes : Nat

def taggedGenesis : TaggedSt Acc := ⟨genesis, [], 0⟩

/-- Fresh tags, in block `n` from push number `k` on. -/
def tagFresh (n k : Nat) (cs : List (DataCommand Acc)) : List (Tagged Acc) :=
  cs.zipIdx.map fun e => ((n, k + e.2), e.1)

/-- Follow a step of block `n` that leads to `s'`: an emptied queue drops its
tags, an appended suffix gets fresh ones. -/
def retag (n : Nat) (t : TaggedSt Acc) (s' : St Acc) : TaggedSt Acc :=
  if s'.dataQueue = [] then ⟨s', [], t.pushes⟩
  else
    let fresh := s'.dataQueue.drop t.st.dataQueue.length
    ⟨s', t.tagged ++ tagFresh n t.pushes fresh, t.pushes + fresh.length⟩

def execBlockT (m n : Nat) (t : TaggedSt Acc) (b : Extrinsics Acc) : TaggedSt Acc :=
  b.foldl (fun t e => retag n t (applyCall (dispatch m e.1 e.2) t.st))
    (retag n t (onInitialize n t.st))

def snapshotsT (m : Nat) : Nat → TaggedSt Acc → List (Extrinsics Acc) → List (List (Tagged Acc))
  | _, _, [] => []
  | n, t, b :: bs => (execBlockT m n t b).tagged :: snapshotsT m (n + 1) (execBlockT m n t b) bs

@[simp] theorem retag_st (n : Nat) (t : TaggedSt Acc) (s' : St Acc) : (retag n t s').st = s' := by
  unfold retag; split_ifs <;> rfl

omit [LinearOrder Acc] in
theorem tagFresh_map_snd (n k : Nat) (cs : List (DataCommand Acc)) :
    (tagFresh n k cs).map Prod.snd = cs := by
  simp [tagFresh, List.map_map, Function.comp_def]

variable {t : TaggedSt Acc}

/-- **The tags follow the real queue.**  A step that empties the queue or
appends to it keeps the tagged queue a decoration of the real one. -/
theorem retag_map_snd {n : Nat} {s' : St Acc}
    (ht : t.tagged.map Prod.snd = t.st.dataQueue)
    (hq : s'.dataQueue = [] ∨ ∃ cs, s'.dataQueue = t.st.dataQueue ++ cs) :
    (retag n t s').tagged.map Prod.snd = s'.dataQueue := by
  unfold retag
  split_ifs with h
  · simp [h]
  · obtain ⟨cs, hcs⟩ := hq.resolve_left h
    simp only [List.map_append, ht, tagFresh_map_snd, hcs, List.drop_left]

theorem foldl_retag_st (m n : Nat) :
    ∀ (b : Extrinsics Acc) (t₀ : TaggedSt Acc),
      (b.foldl (fun t e => retag n t (applyCall (dispatch m e.1 e.2) t.st)) t₀).st =
        b.foldl (fun s e => applyCall (dispatch m e.1 e.2) s) t₀.st
  | [], _ => rfl
  | e :: b, t₀ => by
    simp only [List.foldl_cons]
    rw [foldl_retag_st m n b, retag_st]

theorem execBlockT_st (m n : Nat) (t : TaggedSt Acc) (b : Extrinsics Acc) :
    (execBlockT m n t b).st = execBlock m n t.st b := by
  rw [execBlockT, execBlock, foldl_retag_st, retag_st]

theorem execBlockT_map_snd (m n : Nat) (t : TaggedSt Acc) (b : Extrinsics Acc)
    (ht : t.tagged.map Prod.snd = t.st.dataQueue) :
    (execBlockT m n t b).tagged.map Prod.snd = (execBlockT m n t b).st.dataQueue := by
  unfold execBlockT
  have h0 : (retag n t (onInitialize n t.st)).tagged.map Prod.snd =
      (retag n t (onInitialize n t.st)).st.dataQueue := by
    rw [retag_st]
    refine retag_map_snd ht ?_
    rcases dataQueue_onInitialize n t.st with h | h
    · exact .inl h
    · exact .inr ⟨[], by simp [h]⟩
  generalize retag n t (onInitialize n t.st) = t₀ at h0
  induction b generalizing t₀ with
  | nil => exact h0
  | cons e b ih =>
    refine ih _ ?_
    rw [retag_st]
    exact retag_map_snd h0 (dataQueue_applyCall m t₀.st e.1 e.2)

theorem snapshotsT_map (m : Nat) :
    ∀ (n : Nat) (t : TaggedSt Acc) (bs : List (Extrinsics Acc)),
      t.tagged.map Prod.snd = t.st.dataQueue →
      (snapshotsT m n t bs).map (List.map Prod.snd) = snapshots m n t.st bs
  | _, _, [], _ => rfl
  | n, t, b :: bs, ht => by
    simp only [snapshotsT, snapshots, List.map_cons]
    rw [snapshotsT_map m (n + 1) _ bs (execBlockT_map_snd m n t b ht),
      execBlockT_map_snd m n t b ht, execBlockT_st]

/-- **The ghost tags only decorate the queue.**  Over every run of blocks from
genesis, what each offchain worker reads in the tagged model is, tags dropped,
the `DataQueue` it reads. -/
theorem snapshotsT_untagged (m : Nat) (bs : List (Extrinsics Acc)) :
    (snapshotsT m 1 taggedGenesis bs).map (List.map Prod.snd) = snapshots m 1 genesis bs :=
  snapshotsT_map m 1 taggedGenesis bs rfl

/-! ## Which workers read a command -/

/-- At the end of block `b`, every entry was pushed in `b`, or in `b - 1` when
that block is odd. -/
def TagsFrom (b : Nat) (l : List (Tagged Acc)) : Prop :=
  ∀ e ∈ l, e.1.1 = b ∨ (e.1.1 + 1 = b ∧ e.1.1 % 2 = 1)

theorem tagsFrom_retag {b : Nat} (h : TagsFrom b t.tagged) (s' : St Acc) :
    TagsFrom b (retag b t s').tagged := by
  unfold retag
  split_ifs
  · intro e he; simp at he
  · intro e he
    rcases List.mem_append.mp he with he | he
    · exact h e he
    · simp only [tagFresh, List.mem_map] at he
      obtain ⟨x, -, rfl⟩ := he
      exact .inl rfl

theorem tagsFrom_onInitialize {b : Nat} (h : TagsFrom b t.tagged) :
    TagsFrom (b + 1) (retag (b + 1) t (onInitialize (b + 1) t.st)).tagged := by
  unfold retag
  split_ifs with hq
  · intro e he; simp at he
  · have hodd : (b + 1) % 2 = 0 := by
      by_contra hb
      exact hq (by simp [onInitialize, show (b + 1) % 2 = 1 by omega])
    have hfresh : (onInitialize (b + 1) t.st).dataQueue = t.st.dataQueue := by
      simp [onInitialize, hodd]
    intro e he
    simp only [hfresh, List.drop_length, tagFresh, List.zipIdx_nil, List.map_nil,
      List.append_nil] at he
    rcases h e he with h1 | ⟨h1, h2⟩
    · exact .inr ⟨by omega, by omega⟩
    · omega

theorem tagsFrom_execBlockT (m b : Nat) (h : TagsFrom b t.tagged)
    (ext : Extrinsics Acc) : TagsFrom (b + 1) (execBlockT m (b + 1) t ext).tagged := by
  unfold execBlockT
  have h0 := tagsFrom_onInitialize h
  generalize retag (b + 1) t (onInitialize (b + 1) t.st) = t₀ at h0
  induction ext generalizing t₀ with
  | nil => exact h0
  | cons e ext ih => exact ih _ (tagsFrom_retag h0 _)

theorem snapshotsT_tagsFrom (m : Nat) :
    ∀ (b : Nat) (t : TaggedSt Acc) (bs : List (Extrinsics Acc)), TagsFrom b t.tagged →
      ∀ i (hi : i < (snapshotsT m (b + 1) t bs).length),
        TagsFrom (b + 1 + i) (snapshotsT m (b + 1) t bs)[i]
  | _, _, [], _, i, hi => by simp [snapshotsT] at hi
  | b, t, ext :: bs, h, i, hi => by
    have h1 := tagsFrom_execBlockT m b h ext
    cases i with
    | zero => simpa [snapshotsT] using h1
    | succ i =>
      simp only [snapshotsT, List.getElem_cons_succ]
      have := snapshotsT_tagsFrom m (b + 1) _ bs h1 i (by simpa [snapshotsT] using hi)
      rwa [show b + 1 + 1 + i = b + 1 + (i + 1) by omega] at this

/-- Block `1` queues a request that block `2` reads again; block `3` queues one
that a result submitted in the same block takes before any worker reads it. -/
def twiceOrNever : List (Extrinsics Nat) :=
  [[(.signed 1, .createIpfsAsset [] [7] 0)], [],
   [(.signed 1, .createIpfsAsset [] [8] 0), (.signed 1, .submitIpfsAddResults 1 [9] 0)], []]

/-- **Who reads a pushed command.**  A command pushed in block `n` is read by
the offchain worker of `n`, and by that of `n + 1` only when `n` is odd. -/
theorem snapshot_tag_block (m : Nat) (bs : List (Extrinsics Acc)) (i : Nat)
    (hi : i < (snapshotsT m 1 taggedGenesis bs).length) (e : Tagged Acc)
    (he : e ∈ (snapshotsT m 1 taggedGenesis bs)[i]) :
    e.1.1 = i + 1 ∨ (e.1.1 + 1 = i + 1 ∧ e.1.1 % 2 = 1) := by
  have := snapshotsT_tagsFrom m 0 taggedGenesis bs (fun e he => by simp [taggedGenesis] at he) i hi
  simpa [Nat.add_comm] using this e he

theorem snapshot_tag_block_second_worker :
    ∃ hi : 1 < (snapshotsT 5 1 taggedGenesis twiceOrNever).length,
      ((1, 0), .addBytes [] [7] 0 1 true) ∈
          (snapshotsT 5 1 taggedGenesis twiceOrNever).get ⟨1, hi⟩ ∧
        (1 = 1 + 1 ∨ (1 + 1 = 1 + 1 ∧ 1 % 2 = 1)) :=
  ⟨by decide, by decide,
    snapshot_tag_block 5 twiceOrNever 1 (by decide) ((1, 0), .addBytes [] [7] 0 1 true) (by decide)⟩

theorem queue_read_twice_or_never :
    snapshotsT 5 1 taggedGenesis twiceOrNever =
        [[((1, 0), .addBytes [] [7] 0 1 true)], [((1, 0), .addBytes [] [7] 0 1 true)], [], []] ∧
      (execBlockT 5 3 (execBlockT 5 2 (execBlockT 5 1 taggedGenesis [(.signed 1,
          .createIpfsAsset [] [7] 0)]) []) [(.signed 1, .createIpfsAsset [] [8] 0)]).tagged =
        [((3, 1), .addBytes [] [8] 0 1 true)] := by
  decide

end PalletIpfs
