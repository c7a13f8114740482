import CherryNode.Ipfs.Pallet

/-!
# pallet-ipfs: what each dispatchable does to storage

One equation per dispatchable, for a signed origin: the storage after the
extrinsic, written with the storage writes of `Pallet.lean` and the guards the
source checks.  An error keeps the writes made before it (no storage
transaction), so `submit_ipfs_add_results` and `submit_ipfs_delete_results` show
the taken queue on their error paths, and `add_owner` and `change_ownership` the
written asset when the final `try_push` fails.  A panic discards the extrinsic.

Later proofs use these equations and never unfold a dispatchable.
-/

namespace PalletIpfs

open Frame

variable {Acc : Type} [LinearOrder Acc] (m : Nat) (s : St Acc) (sender : Acc)

theorem applyCall_unsigned (o : Origin Acc) (ho : ∀ a, o ≠ .signed a) (c : IpfsCall Acc) :
    applyCall (dispatch m o c) s = s := by
  cases o with
  | signed a => exact absurd rfl (ho a)
  | root => cases c <;> rfl
  | none => cases c <;> rfl

theorem applyCall_createIpfsAsset (addr cid : Bytes) (size : Nat) :
    applyCall (createIpfsAsset (.signed sender) addr cid size) s =
      if cid ∈ s.ipfsAssetOwned sender then s
      else pushQueue (.addBytes addr cid size sender true) s := by
  by_cases h : cid ∈ s.ipfsAssetOwned sender <;> simp [applyCall, createIpfsAsset, h]

theorem applyCall_createIpfsAssetRaw (addr data : Bytes) :
    applyCall (createIpfsAssetRaw (.signed sender) addr data) s =
      if data ∈ s.ipfsAssetOwned sender then s
      else pushQueue (.addBytesRaw addr data sender true) s := by
  by_cases h : data ∈ s.ipfsAssetOwned sender <;> simp [applyCall, createIpfsAssetRaw, h]

theorem applyCall_pinIpfsAsset (addr cid : Bytes) :
    applyCall (pinIpfsAsset (.signed sender) addr cid) s =
      match s.ipfsAsset.get? cid with
      | some ipfs =>
        if ipfs.owners.get? sender = some .owner ∧ ipfs.pinned = false then
          pushQueue (.insertPin addr cid sender true) s
        else s
      | none => s := by
  rcases h1 : s.ipfsAsset.get? cid with _ | ipfs
  · simp [applyCall, pinIpfsAsset, determineAccountOwnershipLayer, h1]
  · rcases h2 : ipfs.owners.get? sender with _ | layer
    · simp [applyCall, pinIpfsAsset, determineAccountOwnershipLayer, h1, h2]
    · cases layer <;> cases hp : ipfs.pinned <;>
        simp [applyCall, pinIpfsAsset, determineAccountOwnershipLayer, h1, h2, hp]

theorem applyCall_unpinIpfsAsset (addr cid : Bytes) :
    applyCall (unpinIpfsAsset (.signed sender) addr cid) s =
      match s.ipfsAsset.get? cid with
      | some ipfs =>
        if ipfs.owners.get? sender = some .owner ∧ ipfs.pinned = true then
          pushQueue (.removePin addr cid sender true) s
        else s
      | none => s := by
  rcases h1 : s.ipfsAsset.get? cid with _ | ipfs
  · simp [applyCall, unpinIpfsAsset, determineAccountOwnershipLayer, h1]
  · rcases h2 : ipfs.owners.get? sender with _ | layer
    · simp [applyCall, unpinIpfsAsset, determineAccountOwnershipLayer, h1, h2]
    · cases layer <;> cases hp : ipfs.pinned <;>
        simp [applyCall, unpinIpfsAsset, determineAccountOwnershipLayer, h1, h2, hp]

theorem applyCall_deleteIpfsAsset (addr cid : Bytes) :
    applyCall (deleteIpfsAsset (.signed sender) addr cid) s =
      match s.ipfsAsset.get? cid with
      | some ipfs =>
        if ipfs.owners.get? sender = some .owner then
          pushQueue (.removeBlock addr cid sender)
            (if ipfs.pinned then pushQueue (.removePin addr cid sender true) s else s)
        else s
      | none => s := by
  rcases h1 : s.ipfsAsset.get? cid with _ | ipfs
  · simp [applyCall, deleteIpfsAsset, determineAccountOwnershipLayer, h1]
  · rcases h2 : ipfs.owners.get? sender with _ | layer
    · simp [applyCall, deleteIpfsAsset, determineAccountOwnershipLayer, h1, h2]
    · cases layer <;> cases hp : ipfs.pinned <;>
        simp [applyCall, deleteIpfsAsset, determineAccountOwnershipLayer, h1, h2, hp]

theorem applyCall_readFile (addr cid : Bytes) :
    applyCall (readFile (.signed sender) addr cid) s =
      match s.ipfsAsset.get? cid with
      | some ipfs =>
        if ipfs.owners.get? sender = some .owner then pushQueue (.catBytes addr cid sender) s
        else s
      | none => s := by
  rcases h1 : s.ipfsAsset.get? cid with _ | ipfs
  · simp [applyCall, readFile, determineAccountOwnershipLayer, h1]
  · rcases h2 : ipfs.owners.get? sender with _ | layer
    · simp [applyCall, readFile, determineAccountOwnershipLayer, h1, h2]
    · cases layer <;> simp [applyCall, readFile, determineAccountOwnershipLayer, h1, h2]

theorem applyCall_submitIpfsAddResults (admin : Acc) (cid : Bytes) (size : Nat) :
    applyCall (submitIpfsAddResults m (.signed sender) admin cid size) s =
      if s.ipfsCnt < u64Max ∧ (s.ipfsAssetOwned admin).length < m then
        putCnt (s.ipfsCnt + 1) (insertAsset cid (newIpfs admin cid size s.blockNumber)
          (setOwned admin (s.ipfsAssetOwned admin ++ [cid]) (takeQueue s)))
      else takeQueue s := by
  by_cases h1 : s.ipfsCnt < u64Max
  · by_cases h2 : (s.ipfsAssetOwned admin).length < m
    · simp [applyCall, submitIpfsAddResults, tryPushOwned, h1, h2]
    · simp [applyCall, submitIpfsAddResults, tryPushOwned, h1, h2]
  · simp [applyCall, submitIpfsAddResults, h1]

theorem applyCall_submitIpfsPinResults (cid : Bytes) :
    applyCall (submitIpfsPinResults (.signed sender) cid) s =
      match s.ipfsAsset.get? cid with
      | some ipfs => takeQueue (insertAsset cid { ipfs with pinned := true } s)
      | none => s := by
  rcases h1 : s.ipfsAsset.get? cid with _ | ipfs <;>
    simp [applyCall, submitIpfsPinResults, h1]

theorem applyCall_submitIpfsUnpinResults (cid : Bytes) :
    applyCall (submitIpfsUnpinResults (.signed sender) cid) s =
      match s.ipfsAsset.get? cid with
      | some ipfs => takeQueue (insertAsset cid { ipfs with pinned := false } s)
      | none => s := by
  rcases h1 : s.ipfsAsset.get? cid with _ | ipfs <;>
    simp [applyCall, submitIpfsUnpinResults, h1]

@[simp] theorem removeCidFromAll_ipfsCnt (cid : Bytes) :
    ∀ (as : List Acc) (s : St Acc), (removeCidFromAll cid as s).ipfsCnt = s.ipfsCnt
  | [], _ => rfl
  | a :: as, s => by simp [removeCidFromAll, removeCidFromAll_ipfsCnt cid as, removeOwnedCid]

@[simp] theorem removeCidFromAll_ipfsAsset (cid : Bytes) :
    ∀ (as : List Acc) (s : St Acc), (removeCidFromAll cid as s).ipfsAsset = s.ipfsAsset
  | [], _ => rfl
  | a :: as, s => by simp [removeCidFromAll, removeCidFromAll_ipfsAsset cid as, removeOwnedCid]

@[simp] theorem removeCidFromAll_dataQueue (cid : Bytes) :
    ∀ (as : List Acc) (s : St Acc), (removeCidFromAll cid as s).dataQueue = s.dataQueue
  | [], _ => rfl
  | a :: as, s => by simp [removeCidFromAll, removeCidFromAll_dataQueue cid as, removeOwnedCid]

theorem applyCall_submitIpfsDeleteResults (cid : Bytes) :
    applyCall (submitIpfsDeleteResults (.signed sender) cid) s =
      match s.ipfsAsset.get? cid with
      | some ipfs =>
        if s.ipfsCnt = 0 then s
        else putCnt (s.ipfsCnt - 1)
          (removeAsset cid (removeCidFromAll cid ipfs.owners.keys (takeQueue s)))
      | none => takeQueue s := by
  rcases h1 : s.ipfsAsset.get? cid with _ | ipfs
  · simp [applyCall, submitIpfsDeleteResults, h1]
  · by_cases h2 : s.ipfsCnt = 0 <;> simp [applyCall, submitIpfsDeleteResults, h1, h2]

theorem applyCall_addOwner (cid : Bytes) (acct : Acc) (l : OwnershipLayer) :
    applyCall (addOwner m (.signed sender) cid acct l) s =
      match s.ipfsAsset.get? cid with
      | some ipfs =>
        if ipfs.owners.get? sender = some .owner ∧ cid ∉ s.ipfsAssetOwned acct then
          let s1 := insertAsset cid { ipfs with owners := ipfs.owners.insert acct l } s
          if (s.ipfsAssetOwned acct).length < m then
            setOwned acct (s.ipfsAssetOwned acct ++ [cid]) s1
          else s1
        else s
      | none => s := by
  rcases h1 : s.ipfsAsset.get? cid with _ | ipfs
  · simp [applyCall, addOwner, determineAccountOwnershipLayer, h1]
  · rcases h2 : ipfs.owners.get? sender with _ | layer
    · simp [applyCall, addOwner, determineAccountOwnershipLayer, h1, h2]
    · cases layer
      case owner =>
        by_cases h4 : cid ∈ s.ipfsAssetOwned acct
        · simp [applyCall, addOwner, determineAccountOwnershipLayer, h1, h2, h4]
        · by_cases h5 : (s.ipfsAssetOwned acct).length < m <;>
            simp [applyCall, addOwner, determineAccountOwnershipLayer, tryPushOwned, h1, h2, h4, h5]
      all_goals simp [applyCall, addOwner, determineAccountOwnershipLayer, h1, h2]

theorem applyCall_removeOwnership (cid : Bytes) (acct : Acc) :
    applyCall (removeOwnership (.signed sender) cid acct) s =
      if sender = acct then s
      else match s.ipfsAsset.get? cid with
        | some ipfs =>
          if ipfs.owners.get? sender = some .owner ∧ ipfs.owners.contains acct = true then
            removeOwnedCid acct cid
              (insertAsset cid { ipfs with owners := ipfs.owners.erase acct } s)
          else s
        | none => s := by
  by_cases h0 : sender = acct
  · simp [applyCall, removeOwnership, h0]
  rcases h1 : s.ipfsAsset.get? cid with _ | ipfs
  · simp [applyCall, removeOwnership, determineAccountOwnershipLayer, h0, h1]
  · rcases h2 : ipfs.owners.get? sender with _ | layer
    · simp [applyCall, removeOwnership, determineAccountOwnershipLayer, h0, h1, h2]
    · cases layer <;> cases h3 : ipfs.owners.contains acct <;>
        simp [applyCall, removeOwnership, determineAccountOwnershipLayer, h0, h1, h2, h3]

theorem applyCall_changeOwnership (cid : Bytes) (acct : Acc) (l : OwnershipLayer) :
    applyCall (changeOwnership m (.signed sender) cid acct l) s =
      match s.ipfsAsset.get? cid with
      | some ipfs =>
        match ipfs.owners.get? sender, ipfs.owners.get? acct with
        | some .owner, some old =>
          if old ≠ l then
            let s1 := insertAsset cid { ipfs with owners := ipfs.owners.insert acct l } s
            if (s.ipfsAssetOwned acct).length < m then
              setOwned acct (s.ipfsAssetOwned acct ++ [cid]) s1
            else s1
          else s
        | _, _ => s
      | none => s := by
  rcases h1 : s.ipfsAsset.get? cid with _ | ipfs
  · simp [applyCall, changeOwnership, determineAccountOwnershipLayer, h1]
  · rcases h2 : ipfs.owners.get? sender with _ | layer
    · simp [applyCall, changeOwnership, determineAccountOwnershipLayer, h1, h2]
    · rcases h3 : ipfs.owners.get? acct with _ | old
      · cases layer <;> simp [applyCall, changeOwnership, determineAccountOwnershipLayer, h1, h2, h3]
      · cases layer
        case owner =>
          by_cases h4 : old = l
          · simp [applyCall, changeOwnership, determineAccountOwnershipLayer, h1, h2, h3, h4]
          · by_cases h5 : (s.ipfsAssetOwned acct).length < m <;>
              simp [applyCall, changeOwnership, determineAccountOwnershipLayer, tryPushOwned,
                h1, h2, h3, h4, h5]
        all_goals simp [applyCall, changeOwnership, determineAccountOwnershipLayer, h1, h2, h3]

end PalletIpfs
