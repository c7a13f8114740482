import CherryNode.Lib.Vec
import CherryNode.Lib.Run
import CherryNode.Support.Dispatch

/-!
# pallet-updater: members, one code proposal, votes, closing

The storage of `bin/node/pallets/pallet-updater/src/lib.rs` and its five
dispatchables.  `u32` arithmetic wraps (`u32Wrap`): the runtime is built in
release mode without overflow checks, and `members.len() as MemberCount`
truncates.  Three things come from elsewhere and are parameters: the hasher
`T::Hashing::hash_of`, the runtime-version check of `frame_system::can_set_code`
(it reads the version embedded in the new wasm blob), and `T::MotionDuration`.
`OnSetCode = ()` is `frame_system`'s `update_code_in_storage`, which writes the
`:code` item and cannot fail; it is modelled as that write.
-/

namespace PalletUpdater

open Frame

/-- `x as u32`, and `u32` addition in release mode. -/
def u32Wrap (n : Nat) : Nat := n % 2 ^ 32

/-- The errors `frame_system::can_set_code` returns. -/
inductive SystemError
  | failedToExtractRuntimeVersion
  | invalidSpecName
  | specVersionNeedsToIncrease
  deriving DecidableEq, Repr

/-- `Error<T, I>`, and the error of `can_set_code` that `close_vote` passes on. -/
inductive Error
  | sameAccount
  | accNotExist
  | notMember
  | duplicateProposal
  | proposalMissing
  | wrongIndex
  | duplicateVote
  | exceedMaxProposals
  | ongoingVoting
  | system (e : SystemError)
  deriving DecidableEq, Repr

/-- `Votes<AccountId, BlockNumber>`; `end` is `voteEnd`. -/
structure Votes (Acc : Type) where
  index : Nat
  threshold : Nat
  ayes : List Acc
  nays : List Acc
  voteEnd : Nat
  deriving DecidableEq, Repr

/-- The pallet's storage, the block number it reads, and the `:code` item. -/
structure St (Acc H : Type) where
  members : List Acc
  proposals : List H
  proposalCount : Nat
  codes : Bytes
  voting : H → Option (Votes Acc)
  blockNumber : Nat
  code : Bytes

variable {Acc H : Type} [DecidableEq Acc] [DecidableEq H]

abbrev M (Acc H : Type) := Call (St Acc H) Error

/-- The storage `genesis_build` writes: the members, nothing else, over the
chain's initial `:code`. -/
def genesisState (members : List Acc) (code : Bytes) : St Acc H :=
  ⟨members, [], 0, [], fun _ => none, 0, code⟩

/-- `genesis_build`: the members must be unique (`assert_eq!`, a panic
otherwise); `initialize_members` writes them when there are any. -/
def genesisBuild (members : List Acc) (code : Bytes) : Option (St Acc H) :=
  if members.Nodup then some (genesisState members code) else none

/-- How `vote_code` records a vote: `none` is `DuplicateVote`; a vote on the
other side is swap-removed. -/
def tallyVote (v : Votes Acc) (signer : Acc) (approve : Bool) : Option (Votes Acc) :=
  if approve then
    match v.ayes.idxOf? signer with
    | some _ => none
    | none => some { v with ayes := v.ayes ++ [signer], nays := v.nays.swapRemoveFirst signer }
  else
    match v.nays.idxOf? signer with
    | some _ => none
    | none => some { v with nays := v.nays ++ [signer], ayes := v.ayes.swapRemoveFirst signer }

/-- What `close_vote` kills once the vote is over. -/
def removeProposal (proposalHash : H) (s : St Acc H) : St Acc H :=
  { s with codes := [], voting := Function.update s.voting proposalHash none, proposals := [],
           proposalCount := 0 }

section Calls

variable (hashOf : Bytes → H) (canSetCode : Bytes → Except SystemError Unit) (motionDuration : Nat)

def addMember (origin : Origin Acc) (addAcct : Acc) : M Acc H Unit := do
  ensureRoot origin
  let members := (← get).members
  ensure (addAcct ∉ members) .sameAccount
  modify fun s => { s with members := members ++ [addAcct] }

def removeMember (origin : Origin Acc) (removeAcct : Acc) : M Acc H Unit := do
  ensureRoot origin
  ensure (removeAcct ∈ (← get).members) .accNotExist
  modify fun s => { s with members := s.members.filter (· ≠ removeAcct) }

def proposeCode (origin : Origin Acc) (code : Bytes) : M Acc H Unit := do
  let signer ← ensureSigned origin
  let members := (← get).members
  ensure (signer ∈ members) .notMember
  let threshold := u32Wrap members.length
  let proposalHash := hashOf code
  let proposals := (← get).proposals
  ensure (proposalHash ∉ proposals) .duplicateProposal
  ensure (proposals = []) .exceedMaxProposals
  let index := (← get).proposalCount
  modify fun s => { s with proposals := proposals ++ [proposalHash] }
  modify fun s => { s with proposalCount := u32Wrap (s.proposalCount + 1) }
  modify fun s => { s with codes := code }
  let votes : Votes Acc :=
    { index := index, threshold := threshold, ayes := [], nays := [],
      voteEnd := (← get).blockNumber + motionDuration }
  modify fun s => { s with voting := Function.update s.voting proposalHash (some votes) }

def voteCode (origin : Origin Acc) (proposal : H) (index : Nat) (approve : Bool) :
    M Acc H Unit := do
  let signer ← ensureSigned origin
  ensure (signer ∈ (← get).members) .notMember
  let voting : Votes Acc ← okOr ((← get).voting proposal) .proposalMissing
  ensure (voting.index = index) .wrongIndex
  let voting ← okOr (tallyVote voting signer approve) .duplicateVote
  modify fun s => { s with voting := Function.update s.voting proposal (some voting) }

def closeVote (origin : Origin Acc) (proposalHash : H) (index : Nat) : M Acc H Unit := do
  let signer ← ensureSigned origin
  let members := (← get).members
  ensure (signer ∈ members) .notMember
  let voting : Votes Acc ← okOr ((← get).voting proposalHash) .proposalMissing
  ensure (voting.index = index) .wrongIndex
  let yesVotes := u32Wrap voting.ayes.length
  let noVotes := u32Wrap voting.nays.length
  let seats := u32Wrap members.length
  ensure (u32Wrap (yesVotes + noVotes) = seats) .ongoingVoting
  if voting.threshold ≤ yesVotes then
    let code := (← get).codes
    match canSetCode code with
    | .error e => throw (.module (.system e))
    | .ok () => modify fun s => { s with code := code }
  modify (removeProposal proposalHash)

end Calls

/-- `Call<T, I>` of pallet-updater. -/
inductive UpdaterCall (Acc H : Type)
  | addMember (addAcct : Acc)
  | removeMember (removeAcct : Acc)
  | proposeCode (code : Bytes)
  | voteCode (proposal : H) (index : Nat) (approve : Bool)
  | closeVote (proposalHash : H) (index : Nat)

variable (hashOf : Bytes → H) (canSetCode : Bytes → Except SystemError Unit) (motionDuration : Nat)

def dispatch (origin : Origin Acc) : UpdaterCall Acc H → M Acc H Unit
  | .addMember a => addMember origin a
  | .removeMember a => removeMember origin a
  | .proposeCode code => proposeCode hashOf motionDuration origin code
  | .voteCode h i approve => voteCode origin h i approve
  | .closeVote h i => closeVote canSetCode origin h i

def step (s : St Acc H) (e : Origin Acc × UpdaterCall Acc H) : St Acc H :=
  applyCall (dispatch hashOf canSetCode motionDuration e.1 e.2) s

/-- The states reachable from the genesis built from `members`. -/
def Reachable (members : List Acc) (code : Bytes) (s : St Acc H) : Prop :=
  ∃ s₀, genesisBuild members code = some s₀ ∧
    StepRun.Reachable (step hashOf canSetCode motionDuration) s₀ s

end PalletUpdater
