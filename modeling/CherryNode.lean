import CherryNode.Lib.Vec
import CherryNode.Lib.OrdMap
import CherryNode.Lib.Run
import CherryNode.Support.Dispatch
import CherryNode.Ipfs.Pallet
import CherryNode.Ipfs.Spec
import CherryNode.Ipfs.Ownership
import CherryNode.Ipfs.Queue
import CherryNode.Updater.Pallet
import CherryNode.Updater.Invariant
import CherryNode.Arithmetic.Normalize
import CherryNode.Arithmetic.PerThing
import CherryNode.Arithmetic.NormalizePanics
import CherryNode.Lib.Digits
import CherryNode.Lib.ForLoop
import CherryNode.Lib.QuotientDigit
import CherryNode.Arithmetic.BigUint
import CherryNode.Arithmetic.BigUintDiv
import CherryNode.Arithmetic.Helpers128
import CherryNode.Arithmetic.Rational
import CherryNode.Lib.IntType
import CherryNode.Arithmetic.FixedPoint
import CherryNode.NposElections.Basic
import CherryNode.NposElections.Solution
import CherryNode.NposElections.ScoreOrder
import CherryNode.Lib.Tally
import CherryNode.NposElections.Phragmen
import CherryNode.NposElections.PhragmenRounds
import CherryNode.NposElections.Backing
import CherryNode.NposElections.Balancing
import CherryNode.ElectionMultiPhase.Types
import CherryNode.ElectionMultiPhase.Feasibility
import CherryNode.ElectionMultiPhase.Signed
import CherryNode.ElectionMultiPhase.SignedQueue
import CherryNode.ElectionMultiPhase.SignedRound
import CherryNode.ElectionMultiPhase.SignedFinalize
import CherryNode.ElectionMultiPhase.SignedPhase
import CherryNode.Lib.EStateRun
import CherryNode.Balances.Types
import CherryNode.Balances.System
import CherryNode.Balances.Pallet
import CherryNode.Balances.Issuance
import CherryNode.Balances.Store
import CherryNode.Balances.Books
import CherryNode.Balances.Calls
import CherryNode.Balances.Dispatchables
import CherryNode.FrameSystem.Account
import CherryNode.FrameSystem.RefCount
import CherryNode.Lib.PointwiseFold
import CherryNode.Lib.Snapshots
import CherryNode.StateMachine.Changeset
import CherryNode.StateMachine.ChangesetSpec
import CherryNode.StateMachine.OverlayedChanges
import CherryNode.StateMachine.Lockstep
import CherryNode.Lib.BlockTree
import CherryNode.ForkTree.Basic
import CherryNode.ForkTree.Atomic
import CherryNode.ForkTree.WellFormed
import CherryNode.ForkTree.Items
import CherryNode.ForkTree.Search
import CherryNode.ForkTree.Placement
import CherryNode.ForkTree.Finalization
import CherryNode.Epochs.EpochChanges
import CherryNode.Epochs.Sync
import CherryNode.Lib.Outcome
import CherryNode.Lib.Bitmask
import CherryNode.Lib.BinarySearch
import CherryNode.StateDb.NonCanonical
import CherryNode.StateDb.RefCounts
import CherryNode.StateDb.Journal
import CherryNode.StateDb.Pruning
import CherryNode.Sync.Blocks
import CherryNode.Assets.Pallet
import CherryNode.Scheduler.Pallet
import CherryNode.Staking.Ledger
import CherryNode.Staking.Pallet
import CherryNode.Staking.Payout
import CherryNode.Staking.SlashingSpans
import CherryNode.Vesting.VestingInfo
import CherryNode.Vesting.Merge
import CherryNode.Vesting.Pallet
import CherryNode.Lib.ByteMem
import CherryNode.Lib.Chain
import CherryNode.Lib.Tiling
import CherryNode.Allocator.FreeingBump
import CherryNode.Allocator.Spec
import CherryNode.Allocator.Refinement
import CherryNode.ElectionMultiPhase.SignedOverlay
import CherryNode.Session.Keys
import CherryNode.Session.Invariant
import CherryNode.Grandpa.Authorities
import CherryNode.Runtime.Era
import CherryNode.TxPool.Future
import CherryNode.TxPool.Ready
import CherryNode.TxPool.ReadyGraph
import CherryNode.TxPool.BasePool
import CherryNode.TxPool.ReadyTags
import CherryNode.ClientApi.Leaves
import CherryNode.BagsList.List
import CherryNode.Lib.Neighbours
import CherryNode.BagsList.Links
import CherryNode.BagsList.Invariant
import CherryNode.BagsList.SanityCheck
