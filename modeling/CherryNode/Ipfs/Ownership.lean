import CherryNode.Ipfs.Spec

/-!
# pallet-ipfs: the ownership index, owner-only control, orphaned assets

What one would expect of the ownership bookkeeping, and what the pallet does:

* `IndexConsistent` (owners and the reverse index `IpfsAssetOwned` agree, no
  duplicates, `IpfsCnt` counts the assets) breaks from the empty genesis under
  two `submit_ipfs_add_results` for one cid
  (`submitIpfsAddResults_twice_breaks_index`).
* `add_owner` writes the asset before its `try_push`, so a full reverse vector
  leaves a new owner behind an `Err` (`addOwner_error_keeps_new_owner`).
* Owner-only control holds for user calls (`nonOwner_userCall_keeps_cid`), not
  for the `submit_ipfs_*_results` calls, which only `ensure_signed`
  (`submitIpfsUnpinResults_by_nonOwner`).
* `change_ownership` lets the last owner demote itself
  (`changeOwnership_orphans_asset`); `remove_ownership` refuses the signer.
-/

namespace PalletIpfs

open Frame

attribute [local instance] byte_neZero

variable {Acc : Type} [LinearOrder Acc]
variable {cid cid' : Bytes} {s : St Acc} {ipfs : Ipfs Acc}

/-- The ownership index is consistent. -/
structure IndexConsistent (s : St Acc) : Prop where
  owner_iff_owned : ∀ (cid : Bytes) (a : Acc),
    (∃ ipfs, s.ipfsAsset.get? cid = some ipfs ∧ ipfs.owners.contains a = true) ↔
      cid ∈ s.ipfsAssetOwned a
  owned_nodup : ∀ a, (s.ipfsAssetOwned a).Nodup
  cnt_eq_size : s.ipfsCnt = s.ipfsAsset.size

/-- Every stored asset has an account at `OwnershipLayer::Owner`. -/
def HasOwner (ipfs : Ipfs Acc) : Prop := ∃ a, ipfs.owners.get? a = some .owner

/-! ## Two results for one cid -/

/-- The offchain worker's result for the same cid, sent twice by account `1`. -/
def addTwice : List (Action Nat) :=
  [.extrinsic (.signed 1) (.submitIpfsAddResults 1 [7] 0),
   .extrinsic (.signed 1) (.submitIpfsAddResults 1 [7] 0)]

theorem submitIpfsAddResults_twice_breaks_index :
    Reachable 5 (addTwice.foldl (step 5) genesis) ∧
      (addTwice.foldl (step 5) genesis).ipfsCnt = 2 ∧
      (addTwice.foldl (step 5) genesis).ipfsAsset.size = 1 ∧
      (addTwice.foldl (step 5) genesis).ipfsAssetOwned 1 = [[7], [7]] ∧
      ¬ IndexConsistent (addTwice.foldl (step 5) genesis) := by
  refine ⟨StepRun.reachable_foldl _ _ _ .init, by decide, by decide, by decide, ?_⟩
  intro h
  exact absurd h.cnt_eq_size (by decide)

/-! ## A write before the last fallible step -/

/-- Account `1` owns `[7]`, account `2` owns `[8]`; with `MaxIpfsOwned = 1`
the vector of `2` is full. -/
def twoAssets : List (Action Nat) :=
  [.extrinsic (.signed 1) (.submitIpfsAddResults 1 [7] 0),
   .extrinsic (.signed 2) (.submitIpfsAddResults 2 [8] 0)]

theorem addOwner_error_keeps_new_owner :
    callResult (addOwner 1 (.signed 1) [7] 2 .reader) (twoAssets.foldl (step 1) genesis) =
        .error (.module .exceedMaxIpfsOwned) ∧
      ((twoAssets.foldl (step 1) genesis).ipfsAsset.get? [7]).map (·.owners.contains 2) =
        some false ∧
      ((applyCall (addOwner 1 (.signed 1) [7] 2 .reader)
        (twoAssets.foldl (step 1) genesis)).ipfsAsset.get? [7]).map (·.owners.contains 2) =
        some true := by
  decide

/-! ## Owner-only control -/

/-- What a call must not touch for `cid`: the stored asset, and for every
account how often `cid` sits in its reverse vector. -/
structure CidFrame (cid : Bytes) (s s' : St Acc) : Prop where
  asset : s'.ipfsAsset.get? cid = s.ipfsAsset.get? cid
  owned : ∀ a, (s'.ipfsAssetOwned a).count cid = (s.ipfsAssetOwned a).count cid

theorem CidFrame.refl (cid : Bytes) (s : St Acc) : CidFrame cid s s := ⟨rfl, fun _ => rfl⟩

theorem CidFrame.trans {s₁ s₂ s₃ : St Acc} (h₁ : CidFrame cid s₁ s₂)
    (h₂ : CidFrame cid s₂ s₃) : CidFrame cid s₁ s₃ :=
  ⟨h₂.asset.trans h₁.asset, fun a => (h₂.owned a).trans (h₁.owned a)⟩

theorem cidFrame_pushQueue (cid : Bytes) (c : DataCommand Acc) (s : St Acc) :
    CidFrame cid s (pushQueue c s) := ⟨rfl, fun _ => rfl⟩

theorem cidFrame_insertAsset (h : cid' ≠ cid) (x : Ipfs Acc) (s : St Acc) :
    CidFrame cid s (insertAsset cid' x s) := ⟨by simp [h], fun _ => rfl⟩

theorem cidFrame_setOwned {a : Acc} {v : List Bytes}
    (h : v.count cid = (s.ipfsAssetOwned a).count cid) : CidFrame cid s (setOwned a v s) := by
  refine ⟨rfl, fun b => ?_⟩
  by_cases hb : b = a
  · subst hb; simpa using h
  · simp [hb]

theorem cidFrame_push_other (h : cid' ≠ cid) (s : St Acc) (a : Acc) :
    CidFrame cid s (setOwned a (s.ipfsAssetOwned a ++ [cid']) s) :=
  cidFrame_setOwned (by simp [h])

theorem cidFrame_removeOwnedCid (h : cid' ≠ cid) (s : St Acc) (a : Acc) :
    CidFrame cid s (removeOwnedCid a cid' s) :=
  cidFrame_setOwned (List.count_swapRemoveFirst_of_ne _ h)

/-- The calls the offchain worker sends back with its own key. -/
def IpfsCall.isResultSubmission : IpfsCall Acc → Bool
  | .submitIpfsAddResults .. | .submitIpfsPinResults _ | .submitIpfsUnpinResults _
  | .submitIpfsDeleteResults _ => true
  | _ => false

section NonOwner

variable (m : Nat) (s : St Acc) (signer : Acc) (cid : Bytes)
  (hs : ∀ ipfs, s.ipfsAsset.get? cid = some ipfs → ipfs.owners.get? signer ≠ some .owner)

include hs

theorem owner_guard_fails (h : s.ipfsAsset.get? cid = some ipfs) :
    ipfs.owners.get? signer ≠ some .owner := hs ipfs h

theorem addOwner_keeps_cid (cid' : Bytes) (acct : Acc) (l : OwnershipLayer) :
    CidFrame cid s (applyCall (addOwner m (.signed signer) cid' acct l) s) := by
  rw [applyCall_addOwner]
  rcases h1 : s.ipfsAsset.get? cid' with _ | ipfs
  · exact .refl _ _
  · by_cases hc : cid' = cid
    · -- the signer would have to own `cid` itself
      subst hc
      simp [owner_guard_fails s signer cid' hs h1, CidFrame.refl]
    · have hins := cidFrame_insertAsset hc { ipfs with owners := ipfs.owners.insert acct l } s
      dsimp only
      split_ifs
      · exact hins.trans (cidFrame_push_other hc _ acct)
      · exact hins
      · exact .refl _ _

theorem removeOwnership_keeps_cid (cid' : Bytes) (acct : Acc) :
    CidFrame cid s (applyCall (removeOwnership (.signed signer) cid' acct) s) := by
  rw [applyCall_removeOwnership]
  split_ifs
  · exact .refl _ _
  rcases h1 : s.ipfsAsset.get? cid' with _ | ipfs
  · exact .refl _ _
  · by_cases hc : cid' = cid
    · subst hc
      simp [owner_guard_fails s signer cid' hs h1, CidFrame.refl]
    · dsimp only
      split_ifs
      · exact (cidFrame_insertAsset hc _ s).trans (cidFrame_removeOwnedCid hc _ acct)
      · exact .refl _ _

theorem changeOwnership_keeps_cid (cid' : Bytes) (acct : Acc) (l : OwnershipLayer) :
    CidFrame cid s (applyCall (changeOwnership m (.signed signer) cid' acct l) s) := by
  rw [applyCall_changeOwnership]
  rcases h1 : s.ipfsAsset.get? cid' with _ | ipfs
  · exact .refl _ _
  · by_cases hc : cid' = cid
    · subst hc
      simp [owner_guard_fails s signer cid' hs h1, CidFrame.refl]
    · have hins := cidFrame_insertAsset hc { ipfs with owners := ipfs.owners.insert acct l } s
      dsimp only
      split
      · split_ifs
        · exact hins.trans (cidFrame_push_other hc _ acct)
        · exact hins
        · exact .refl _ _
      · exact .refl _ _

omit hs in
theorem queueCall_keeps_cid {s' : St Acc} (h : s'.ipfsAsset = s.ipfsAsset)
    (h' : s'.ipfsAssetOwned = s.ipfsAssetOwned) : CidFrame cid s s' :=
  ⟨by rw [h], fun a => by rw [h']⟩

/-- **Owner-only control, for the calls users send**: a signed call other
than the `submit_ipfs_*_results` by a non-owner of `cid` leaves the asset and
its reverse entries as they were. -/
theorem nonOwner_userCall_keeps_cid (c : IpfsCall Acc) (hc : c.isResultSubmission = false) :
    CidFrame cid s (applyCall (dispatch m (.signed signer) c) s) := by
  cases c with
  | createIpfsAsset addr cid' size =>
    rw [dispatch, applyCall_createIpfsAsset]
    split_ifs
    · exact .refl _ _
    · exact cidFrame_pushQueue _ _ _
  | createIpfsAssetRaw addr data =>
    rw [dispatch, applyCall_createIpfsAssetRaw]
    split_ifs
    · exact .refl _ _
    · exact cidFrame_pushQueue _ _ _
  | pinIpfsAsset addr cid' =>
    rw [dispatch, applyCall_pinIpfsAsset]
    split
    · split_ifs
      · exact cidFrame_pushQueue _ _ _
      · exact .refl _ _
    · exact .refl _ _
  | unpinIpfsAsset addr cid' =>
    rw [dispatch, applyCall_unpinIpfsAsset]
    split
    · split_ifs
      · exact cidFrame_pushQueue _ _ _
      · exact .refl _ _
    · exact .refl _ _
  | deleteIpfsAsset addr cid' =>
    rw [dispatch, applyCall_deleteIpfsAsset]
    split
    · split_ifs <;> exact queueCall_keeps_cid s cid rfl rfl
    · exact .refl _ _
  | readFile addr cid' =>
    rw [dispatch, applyCall_readFile]
    split
    · split_ifs
      · exact cidFrame_pushQueue _ _ _
      · exact .refl _ _
    · exact .refl _ _
  | submitIpfsIdentity => exact .refl _ _
  | addOwner cid' acct l => exact addOwner_keeps_cid m s signer cid hs cid' acct l
  | removeOwnership cid' acct => exact removeOwnership_keeps_cid s signer cid hs cid' acct
  | changeOwnership cid' acct l => exact changeOwnership_keeps_cid m s signer cid hs cid' acct l
  | submitIpfsAddResults | submitIpfsPinResults | submitIpfsUnpinResults
  | submitIpfsDeleteResults => simp [IpfsCall.isResultSubmission] at hc

end NonOwner

/-- Account `1` stores `[7]`; account `2` holds no layer on it. -/
def addOne : List (Action Nat) := [.extrinsic (.signed 1) (.submitIpfsAddResults 1 [7] 0)]

theorem nonOwner_userCall_keeps_cid_readFile :
    (∀ ipfs, (addOne.foldl (step 5) genesis).ipfsAsset.get? [7] = some ipfs →
        ipfs.owners.get? 2 ≠ some .owner) ∧
      (IpfsCall.readFile [] [7] : IpfsCall Nat).isResultSubmission = false ∧
      CidFrame [7] (addOne.foldl (step 5) genesis)
        (applyCall (dispatch 5 (.signed 2) (.readFile [] [7])) (addOne.foldl (step 5) genesis)) := by
  have hs : ∀ ipfs, (addOne.foldl (step 5) genesis).ipfsAsset.get? [7] = some ipfs →
      ipfs.owners.get? 2 ≠ some .owner := by
    intro ipfs h
    have : ((addOne.foldl (step 5) genesis).ipfsAsset.get? [7]).map (·.owners.get? 2) =
      some none := by decide
    rw [h] at this
    simp_all
  exact ⟨hs, rfl, nonOwner_userCall_keeps_cid 5 _ 2 [7] hs _ rfl⟩

theorem submitIpfsUnpinResults_by_nonOwner :
    Reachable 5 (addOne.foldl (step 5) genesis) ∧
      ((addOne.foldl (step 5) genesis).ipfsAsset.get? [7]).map (·.owners.get? 2) = some none ∧
      ¬ CidFrame [7] (addOne.foldl (step 5) genesis)
        (applyCall (dispatch 5 (.signed 2) (.submitIpfsUnpinResults [7]))
          (addOne.foldl (step 5) genesis)) := by
  refine ⟨StepRun.reachable_foldl _ _ _ .init, by decide, fun h => ?_⟩
  exact absurd (congrArg (Option.map Ipfs.pinned) h.asset) (by decide)

/-! ## The last owner demotes itself -/

def demoteSelf : List (Action Nat) :=
  [.extrinsic (.signed 1) (.submitIpfsAddResults 1 [7] 0),
   .extrinsic (.signed 1) (.changeOwnership [7] 1 .reader)]

theorem changeOwnership_orphans_asset :
    Reachable 5 (demoteSelf.foldl (step 5) genesis) ∧
      ∃ ipfs, (demoteSelf.foldl (step 5) genesis).ipfsAsset.get? [7] = some ipfs ∧
        ¬ HasOwner ipfs := by
  refine ⟨StepRun.reachable_foldl _ _ _ .init, ?_⟩
  obtain ⟨ipfs, h, hl⟩ : ∃ ipfs, (demoteSelf.foldl (step 5) genesis).ipfsAsset.get? [7] = some ipfs ∧
      ipfs.owners.toList = [(1, .reader)] := ⟨_, rfl, by decide⟩
  refine ⟨ipfs, h, ?_⟩
  rintro ⟨a, ha⟩
  have := OrdMap.mem_toList_of_get? ha
  simp [hl] at this

/-! ## The asset counter never falls below the number of assets

`IpfsCnt` goes up with every successful `submit_ipfs_add_results`, also one that
overwrites a stored cid, and goes down only together with the removal of a
stored asset.  It can drift above the number of assets, never below, and that
keeps the `checked_sub(1).unwrap()` of `submit_ipfs_delete_results` from
panicking: the call reaches it only when the asset is stored. -/

/-- `IpfsCnt` counts at least the stored assets. -/
def CntCovers (s : St Acc) : Prop := s.ipfsAsset.size ≤ s.ipfsCnt

theorem CntCovers.insertAsset_of_get?
    (h : s.ipfsAsset.get? cid = some ipfs) (hc : CntCovers s) (x : Ipfs Acc) :
    CntCovers (insertAsset cid x s) := by
  have hk : s.ipfsAsset.contains cid = true := (OrdMap.contains_iff_exists _ _).mpr ⟨ipfs, h⟩
  simpa [CntCovers, OrdMap.size_insert_of_contains hk] using hc

theorem CntCovers.pos_of_get?
    (h : s.ipfsAsset.get? cid = some ipfs) (hc : CntCovers s) : 1 ≤ s.ipfsCnt :=
  Nat.le_trans (OrdMap.size_pos_of_get? h) hc

section Counter

variable (m : Nat) {s : St Acc}

theorem cntCovers_submitIpfsAddResults (hc : CntCovers s) (sender admin : Acc) (cid : Bytes)
    (size : Nat) : CntCovers (applyCall (submitIpfsAddResults m (.signed sender) admin cid size) s) := by
  rw [applyCall_submitIpfsAddResults]
  split_ifs
  · -- one more asset at most, and one more count
    have hsize := OrdMap.size_insert_le s.ipfsAsset cid (newIpfs admin cid size s.blockNumber)
    simp only [CntCovers, putCnt, insertAsset, setOwned, takeQueue] at hc ⊢
    omega
  · exact hc

theorem cntCovers_submitIpfsDeleteResults (hc : CntCovers s) (sender : Acc) (cid : Bytes) :
    CntCovers (applyCall (submitIpfsDeleteResults (.signed sender) cid) s) := by
  rw [applyCall_submitIpfsDeleteResults]
  rcases h1 : s.ipfsAsset.get? cid with _ | ipfs
  · exact hc
  · dsimp only
    split_ifs
    · exact hc
    · -- the stored asset goes with the count it was counted by
      have hk : s.ipfsAsset.contains cid = true := (OrdMap.contains_iff_exists _ _).mpr ⟨ipfs, h1⟩
      have hsize := OrdMap.size_erase_of_contains hk
      simp only [CntCovers, putCnt, removeAsset, removeCidFromAll_ipfsAsset, takeQueue] at hc ⊢
      omega

theorem cntCovers_applyCall (hc : CntCovers s) (o : Origin Acc) (c : IpfsCall Acc) :
    CntCovers (applyCall (dispatch m o c) s) := by
  rcases o with _ | sender | _
  · rw [applyCall_unsigned m s _ (fun _ h => by cases h)]
    exact hc
  swap
  · rw [applyCall_unsigned m s _ (fun _ h => by cases h)]
    exact hc
  cases c with
  | createIpfsAsset addr cid size =>
    rw [dispatch, applyCall_createIpfsAsset]
    split_ifs <;> exact hc
  | createIpfsAssetRaw addr data =>
    rw [dispatch, applyCall_createIpfsAssetRaw]
    split_ifs <;> exact hc
  | pinIpfsAsset addr cid =>
    rw [dispatch, applyCall_pinIpfsAsset]
    split
    · split_ifs <;> exact hc
    · exact hc
  | unpinIpfsAsset addr cid =>
    rw [dispatch, applyCall_unpinIpfsAsset]
    split
    · split_ifs <;> exact hc
    · exact hc
  | deleteIpfsAsset addr cid =>
    rw [dispatch, applyCall_deleteIpfsAsset]
    split
    · split_ifs <;> exact hc
    · exact hc
  | readFile addr cid =>
    rw [dispatch, applyCall_readFile]
    split
    · split_ifs <;> exact hc
    · exact hc
  | submitIpfsIdentity => exact hc
  | submitIpfsAddResults admin cid size => exact cntCovers_submitIpfsAddResults m hc sender admin cid size
  | submitIpfsPinResults cid =>
    rw [dispatch, applyCall_submitIpfsPinResults]
    rcases h1 : s.ipfsAsset.get? cid with _ | ipfs
    · exact hc
    · exact hc.insertAsset_of_get? h1 _
  | submitIpfsUnpinResults cid =>
    rw [dispatch, applyCall_submitIpfsUnpinResults]
    rcases h1 : s.ipfsAsset.get? cid with _ | ipfs
    · exact hc
    · exact hc.insertAsset_of_get? h1 _
  | submitIpfsDeleteResults cid => exact cntCovers_submitIpfsDeleteResults hc sender cid
  | addOwner cid acct l =>
    rw [dispatch, applyCall_addOwner]
    rcases h1 : s.ipfsAsset.get? cid with _ | ipfs
    · exact hc
    · dsimp only
      split_ifs
      · exact hc.insertAsset_of_get? h1 _
      · exact hc.insertAsset_of_get? h1 _
      · exact hc
  | removeOwnership cid acct =>
    rw [dispatch, applyCall_removeOwnership]
    split_ifs
    · exact hc
    rcases h1 : s.ipfsAsset.get? cid with _ | ipfs
    · exact hc
    · dsimp only
      split_ifs
      · exact hc.insertAsset_of_get? h1 _
      · exact hc
  | changeOwnership cid acct l =>
    rw [dispatch, applyCall_changeOwnership]
    rcases h1 : s.ipfsAsset.get? cid with _ | ipfs
    · exact hc
    · dsimp only
      split
      · split_ifs
        · exact hc.insertAsset_of_get? h1 _
        · exact hc.insertAsset_of_get? h1 _
        · exact hc
      · exact hc

/-- `CntCovers` holds in every state reachable from the empty genesis. -/
theorem cntCovers_reachable (hr : Reachable m s) : CntCovers s := by
  refine StepRun.Reachable.rec_invariant CntCovers (show CntCovers (genesis : St Acc) from Nat.le_refl 0) ?_ hr
  intro s a hc
  cases a with
  | extrinsic o c => exact cntCovers_applyCall m hc o c
  | onInitialize n =>
    dsimp only [step, onInitialize]
    split_ifs <;> exact hc

theorem submitIpfsDeleteResults_never_panics (hr : Reachable m s) (who : Acc) (cid : Bytes) :
    (∀ ipfs, s.ipfsAsset.get? cid = some ipfs → 1 ≤ s.ipfsCnt) ∧
      callResult (submitIpfsDeleteResults (.signed who) cid) s ≠ .error .panic := by
  have hc := cntCovers_reachable m hr
  refine ⟨fun ipfs h => hc.pos_of_get? h, ?_⟩
  rcases h1 : s.ipfsAsset.get? cid with _ | ipfs
  · simp [callResult, submitIpfsDeleteResults, h1]
  · have h2 : s.ipfsCnt ≠ 0 := Nat.one_le_iff_ne_zero.mp (hc.pos_of_get? h1)
    simp [callResult, submitIpfsDeleteResults, h1, h2]

theorem submitIpfsDeleteResults_never_panics_afterAdd :
    Reachable 5 (addOne.foldl (step 5) genesis) ∧
      (∀ ipfs, (addOne.foldl (step 5) genesis).ipfsAsset.get? [7] = some ipfs →
        1 ≤ (addOne.foldl (step 5) genesis).ipfsCnt) ∧
      callResult (submitIpfsDeleteResults (.signed 1) [7]) (addOne.foldl (step 5) genesis) ≠
        .error .panic :=
  have hr : Reachable 5 (addOne.foldl (step 5) genesis) := StepRun.reachable_foldl _ _ _ .init
  ⟨hr, submitIpfsDeleteResults_never_panics 5 hr 1 [7]⟩

end Counter

end PalletIpfs
