import Mathlib
import CherryNode.Lib.OrdMap
import CherryNode.Lib.Vec
import CherryNode.Lib.Run
import CherryNode.Support.Dispatch

/-!
# pallet-ipfs: storage and dispatchables

The storage of `bin/node/pallets/pallet-ipfs/src/lib.rs` (`IpfsCnt`, `IpfsAsset`,
`IpfsAssetOwned`, `DataQueue`) and each dispatchable as a `Frame.Call`, written
in the order of the source's statements, so that a write made before an error
stays (dispatch is not transactional in this FRAME version).

`IpfsAsset` is a map with finitely many keys (`OrdMap`); no call iterates it, so
the hashed key order of the storage map plays no part.  `IpfsAssetOwned` is a
`ValueQuery` map, a total function defaulting to the empty vector.  An action of
a run is an extrinsic or the `on_initialize` hook of a new block (`step`).
-/

namespace PalletIpfs

open Frame

/-- `u64::MAX`. -/
def u64Max : Nat := 2 ^ 64 - 1

inductive OwnershipLayer
  | owner
  | editor
  | reader
  deriving DecidableEq, Repr

/-- `impl Default for OwnershipLayer`. -/
def OwnershipLayer.default : OwnershipLayer := .owner

/-- `Ipfs<T>`: one stored asset. -/
structure Ipfs (Acc : Type) [LinearOrder Acc] where
  cid : Bytes
  size : Nat
  gatewayUrl : Bytes
  owners : OrdMap Acc OwnershipLayer
  createdAt : Nat
  deletingAt : Nat
  pinned : Bool
  deriving DecidableEq

/-- `DataCommand<AccountId>`, the requests the offchain worker serves. -/
inductive DataCommand (Acc : Type)
  | addBytes (addr cid : Bytes) (size : Nat) (admin : Acc) (isRecursive : Bool)
  | addBytesRaw (addr data : Bytes) (admin : Acc) (isRecursive : Bool)
  | catBytes (addr cid : Bytes) (admin : Acc)
  | insertPin (addr cid : Bytes) (admin : Acc) (isRecursive : Bool)
  | removePin (addr cid : Bytes) (admin : Acc) (isRecursive : Bool)
  | removeBlock (addr cid : Bytes) (admin : Acc)
  deriving DecidableEq, Repr

/-- The variants of `Error<T>` the dispatchables return. -/
inductive Error
  | ipfsCntOverflow
  | exceedMaxIpfsOwned
  | ipfsNotExist
  | accNotExist
  | notIpfsOwner
  | sameAccount
  | sameOwnershipLayer
  | ipfsAlreadyOwned
  | ipfsAlreadyPinned
  | ipfsNotPinned
  deriving DecidableEq, Repr

/-- The pallet's storage, with the block number of `frame_system` it reads. -/
structure St (Acc : Type) [LinearOrder Acc] where
  ipfsCnt : Nat
  ipfsAsset : OrdMap Bytes (Ipfs Acc)
  ipfsAssetOwned : Acc → List Bytes
  dataQueue : List (DataCommand Acc)
  blockNumber : Nat

variable {Acc : Type} [LinearOrder Acc]

/-- The empty genesis. -/
def genesis : St Acc := ⟨0, .empty, fun _ => [], [], 0⟩

abbrev M (Acc : Type) [LinearOrder Acc] := Call (St Acc) Error

/-! ## Storage writes -/

@[simp] def setOwned (a : Acc) (v : List Bytes) (s : St Acc) : St Acc :=
  { s with ipfsAssetOwned := Function.update s.ipfsAssetOwned a v }

@[simp] def insertAsset (cid : Bytes) (ipfs : Ipfs Acc) (s : St Acc) : St Acc :=
  { s with ipfsAsset := s.ipfsAsset.insert cid ipfs }

@[simp] def removeAsset (cid : Bytes) (s : St Acc) : St Acc :=
  { s with ipfsAsset := s.ipfsAsset.erase cid }

@[simp] def pushQueue (cmd : DataCommand Acc) (s : St Acc) : St Acc :=
  { s with dataQueue := s.dataQueue ++ [cmd] }

/-- `DataQueue::take()` and `DataQueue::kill()`. -/
@[simp] def takeQueue (s : St Acc) : St Acc := { s with dataQueue := [] }

@[simp] def putCnt (n : Nat) (s : St Acc) : St Acc := { s with ipfsCnt := n }

/-- `IpfsAssetOwned::try_mutate(a, |v| v.try_push(cid)).map_err(|_| ExceedMaxIpfsOwned)?`:
`BoundedVec::try_push` succeeds below the bound and the vector is written back
only then. -/
def tryPushOwned (maxIpfsOwned : Nat) (a : Acc) (cid : Bytes) : M Acc Unit := do
  let v := (← get).ipfsAssetOwned a
  if v.length < maxIpfsOwned then modify (setOwned a (v ++ [cid]))
  else throw (.module .exceedMaxIpfsOwned)

/-- `IpfsAssetOwned::try_mutate(a, |v| position, swap_remove, Ok(_))`: the closure
never fails, so the vector is always written back. -/
def removeOwnedCid (a : Acc) (cid : Bytes) (s : St Acc) : St Acc :=
  setOwned a ((s.ipfsAssetOwned a).swapRemoveFirst cid) s

/-- The loop of `submit_ipfs_delete_results` over the owners, in key order. -/
def removeCidFromAll (cid : Bytes) : List Acc → St Acc → St Acc
  | [], s => s
  | a :: as, s => removeCidFromAll cid as (removeOwnedCid a cid s)

/-- `determine_account_ownership_layer`. -/
def determineAccountOwnershipLayer (cid : Bytes) (acct : Acc) : M Acc OwnershipLayer := do
  match (← get).ipfsAsset.get? cid with
  | some ipfs => okOr (ipfs.owners.get? acct) .accNotExist
  | none => throw (.module .ipfsNotExist)

/-- The bytes of `"http://15.188.14.75:8080/ipfs/"`. -/
def gatewayPrefix : Bytes :=
  [104, 116, 116, 112, 58, 47, 47, 49, 53, 46, 49, 56, 56, 46, 49, 52, 46, 55, 53, 58,
    56, 48, 56, 48, 47, 105, 112, 102, 115, 47]

/-- The asset `submit_ipfs_add_results` stores: `admin` its only owner, pinned. -/
def newIpfs (admin : Acc) (cid : Bytes) (size currentBlock : Nat) : Ipfs Acc :=
  { cid := cid, size := size, gatewayUrl := gatewayPrefix ++ cid,
    owners := OrdMap.empty.insert admin .default,
    createdAt := currentBlock, deletingAt := currentBlock, pinned := true }

/-! ## Dispatchables -/

section Calls

variable (maxIpfsOwned : Nat)

def createIpfsAsset (origin : Origin Acc) (addr cid : Bytes) (size : Nat) : M Acc Unit := do
  let sender ← ensureSigned origin
  ensure (cid ∉ (← get).ipfsAssetOwned sender) .ipfsAlreadyOwned
  modify (pushQueue (.addBytes addr cid size sender true))

def createIpfsAssetRaw (origin : Origin Acc) (addr data : Bytes) : M Acc Unit := do
  let sender ← ensureSigned origin
  ensure (data ∉ (← get).ipfsAssetOwned sender) .ipfsAlreadyOwned
  modify (pushQueue (.addBytesRaw addr data sender true))

def pinIpfsAsset (origin : Origin Acc) (addr cid : Bytes) : M Acc Unit := do
  let sender ← ensureSigned origin
  ensure ((← determineAccountOwnershipLayer cid sender) = .owner) .notIpfsOwner
  let ipfsAsset : Ipfs Acc ← okOr ((← get).ipfsAsset.get? cid) .ipfsNotExist
  ensure (ipfsAsset.pinned ≠ true) .ipfsAlreadyPinned
  modify (pushQueue (.insertPin addr cid sender true))

def unpinIpfsAsset (origin : Origin Acc) (addr cid : Bytes) : M Acc Unit := do
  let sender ← ensureSigned origin
  ensure ((← determineAccountOwnershipLayer cid sender) = .owner) .notIpfsOwner
  let ipfsAsset : Ipfs Acc ← okOr ((← get).ipfsAsset.get? cid) .ipfsNotExist
  ensure (ipfsAsset.pinned = true) .ipfsNotPinned
  modify (pushQueue (.removePin addr cid sender true))

def deleteIpfsAsset (origin : Origin Acc) (addr cid : Bytes) : M Acc Unit := do
  let sender ← ensureSigned origin
  ensure ((← determineAccountOwnershipLayer cid sender) = .owner) .notIpfsOwner
  let ipfsAsset : Ipfs Acc ← okOr ((← get).ipfsAsset.get? cid) .ipfsNotExist
  if ipfsAsset.pinned = true then modify (pushQueue (.removePin addr cid sender true))
  modify (pushQueue (.removeBlock addr cid sender))

def readFile (origin : Origin Acc) (addr cid : Bytes) : M Acc Unit := do
  let sender ← ensureSigned origin
  ensure ((← determineAccountOwnershipLayer cid sender) = .owner) .notIpfsOwner
  modify (pushQueue (.catBytes addr cid sender))

def submitIpfsIdentity (origin : Origin Acc) : M Acc Unit := do
  let _ ← ensureSigned origin

def submitIpfsAddResults (origin : Origin Acc) (admin : Acc) (cid : Bytes) (size : Nat) :
    M Acc Unit := do
  let _ ← ensureSigned origin
  modify takeQueue
  let ipfs := newIpfs admin cid size (← get).blockNumber
  let cnt := (← get).ipfsCnt
  let newCnt ← okOr (if cnt < u64Max then some (cnt + 1) else none) .ipfsCntOverflow
  tryPushOwned maxIpfsOwned admin cid
  modify (insertAsset cid ipfs)
  modify (putCnt newCnt)

def submitIpfsPinResults (origin : Origin Acc) (cid : Bytes) : M Acc Unit := do
  let _ ← ensureSigned origin
  let ipfsAsset : Ipfs Acc ← okOr ((← get).ipfsAsset.get? cid) .ipfsNotExist
  modify (insertAsset cid { ipfsAsset with pinned := true })
  modify takeQueue

def submitIpfsUnpinResults (origin : Origin Acc) (cid : Bytes) : M Acc Unit := do
  let _ ← ensureSigned origin
  let ipfsAsset : Ipfs Acc ← okOr ((← get).ipfsAsset.get? cid) .ipfsNotExist
  modify (insertAsset cid { ipfsAsset with pinned := false })
  modify takeQueue

def submitIpfsDeleteResults (origin : Origin Acc) (cid : Bytes) : M Acc Unit := do
  let _ ← ensureSigned origin
  modify takeQueue
  let ipfsAsset : Ipfs Acc ← okOr ((← get).ipfsAsset.get? cid) .ipfsNotExist
  modify (removeCidFromAll cid ipfsAsset.owners.keys)
  let cnt := (← get).ipfsCnt
  let newCnt ← unwrap (if cnt = 0 then none else some (cnt - 1))
  modify (removeAsset cid)
  modify (putCnt newCnt)

def addOwner (origin : Origin Acc) (cid : Bytes) (addAcct : Acc)
    (ownershipLayer : OwnershipLayer) : M Acc Unit := do
  let signer ← ensureSigned origin
  ensure ((← determineAccountOwnershipLayer cid signer) = .owner) .notIpfsOwner
  ensure (cid ∉ (← get).ipfsAssetOwned addAcct) .ipfsAlreadyOwned
  let ipfs : Ipfs Acc ← okOr ((← get).ipfsAsset.get? cid) .ipfsNotExist
  modify (insertAsset cid { ipfs with owners := ipfs.owners.insert addAcct ownershipLayer })
  tryPushOwned maxIpfsOwned addAcct cid

def removeOwnership (origin : Origin Acc) (cid : Bytes) (removeAcct : Acc) : M Acc Unit := do
  let signer ← ensureSigned origin
  ensure (signer ≠ removeAcct) .sameAccount
  ensure ((← determineAccountOwnershipLayer cid signer) = .owner) .notIpfsOwner
  let ipfs : Ipfs Acc ← okOr ((← get).ipfsAsset.get? cid) .ipfsNotExist
  ensure (ipfs.owners.contains removeAcct = true) .accNotExist
  modify (insertAsset cid { ipfs with owners := ipfs.owners.erase removeAcct })
  modify (removeOwnedCid removeAcct cid)

def changeOwnership (origin : Origin Acc) (cid : Bytes) (acctToChange : Acc)
    (ownershipLayer : OwnershipLayer) : M Acc Unit := do
  let signer ← ensureSigned origin
  ensure ((← determineAccountOwnershipLayer cid signer) = .owner) .notIpfsOwner
  let ipfs : Ipfs Acc ← okOr ((← get).ipfsAsset.get? cid) .ipfsNotExist
  let ownership ← determineAccountOwnershipLayer cid acctToChange
  ensure (ownership ≠ ownershipLayer) .sameOwnershipLayer
  modify (insertAsset cid { ipfs with owners := ipfs.owners.insert acctToChange ownershipLayer })
  tryPushOwned maxIpfsOwned acctToChange cid

end Calls

/-- `on_initialize(block_no)`: the queue is killed on odd blocks.  The new block
number is set first, as `frame_system::initialize` does. -/
def onInitialize (blockNo : Nat) (s : St Acc) : St Acc :=
  let s := { s with blockNumber := blockNo }
  if blockNo % 2 = 1 then takeQueue s else s

/-! ## Calls and runs -/

/-- `Call<T>` of pallet-ipfs. -/
inductive IpfsCall (Acc : Type)
  | createIpfsAsset (addr cid : Bytes) (size : Nat)
  | createIpfsAssetRaw (addr data : Bytes)
  | pinIpfsAsset (addr cid : Bytes)
  | unpinIpfsAsset (addr cid : Bytes)
  | deleteIpfsAsset (addr cid : Bytes)
  | readFile (addr cid : Bytes)
  | submitIpfsIdentity
  | submitIpfsAddResults (admin : Acc) (cid : Bytes) (size : Nat)
  | submitIpfsPinResults (cid : Bytes)
  | submitIpfsUnpinResults (cid : Bytes)
  | submitIpfsDeleteResults (cid : Bytes)
  | addOwner (cid : Bytes) (addAcct : Acc) (ownershipLayer : OwnershipLayer)
  | removeOwnership (cid : Bytes) (removeAcct : Acc)
  | changeOwnership (cid : Bytes) (acctToChange : Acc) (ownershipLayer : OwnershipLayer)

def dispatch (maxIpfsOwned : Nat) (origin : Origin Acc) : IpfsCall Acc → M Acc Unit
  | .createIpfsAsset addr cid size => createIpfsAsset origin addr cid size
  | .createIpfsAssetRaw addr data => createIpfsAssetRaw origin addr data
  | .pinIpfsAsset addr cid => pinIpfsAsset origin addr cid
  | .unpinIpfsAsset addr cid => unpinIpfsAsset origin addr cid
  | .deleteIpfsAsset addr cid => deleteIpfsAsset origin addr cid
  | .readFile addr cid => readFile origin addr cid
  | .submitIpfsIdentity => submitIpfsIdentity origin
  | .submitIpfsAddResults admin cid size => submitIpfsAddResults maxIpfsOwned origin admin cid size
  | .submitIpfsPinResults cid => submitIpfsPinResults origin cid
  | .submitIpfsUnpinResults cid => submitIpfsUnpinResults origin cid
  | .submitIpfsDeleteResults cid => submitIpfsDeleteResults origin cid
  | .addOwner cid a l => addOwner maxIpfsOwned origin cid a l
  | .removeOwnership cid a => removeOwnership origin cid a
  | .changeOwnership cid a l => changeOwnership maxIpfsOwned origin cid a l

/-- An action of a run: an extrinsic, or the hook that opens block `n`. -/
inductive Action (Acc : Type)
  | extrinsic (origin : Origin Acc) (call : IpfsCall Acc)
  | onInitialize (n : Nat)

def step (maxIpfsOwned : Nat) (s : St Acc) : Action Acc → St Acc
  | .extrinsic origin call => applyCall (dispatch maxIpfsOwned origin call) s
  | .onInitialize n => onInitialize n s

/-- The states reachable from the empty genesis. -/
def Reachable (maxIpfsOwned : Nat) : St Acc → Prop :=
  StepRun.Reachable (step maxIpfsOwned) genesis

end PalletIpfs
