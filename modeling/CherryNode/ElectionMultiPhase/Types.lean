import CherryNode.NposElections.Solution

/-!
# election-provider-multi-phase: types and storage

The types of `frame/election-provider-multi-phase/src/lib.rs` and
`signed.rs` that the feasibility check and the signed phase use, and the
pallet's storage items as one record.  Balances are `Nat`; the solution type
is the generated `Solution count accuracy` (the runtime's `NposSolution16`
is `Solution 16 65535`, with `PerU16` ratios).
-/

namespace ElectionMultiPhase

open SpArithmetic NposElections

/-- `sp_runtime::PerU16`. -/
abbrev PerU16 := PerThing 65535

/-- `sp_runtime::Perbill`. -/
abbrev Perbill := PerThing 1000000000

/-- `Phase<BlockNumber>`. -/
inductive Phase
  | off
  | signed
  | unsigned (enabled : Bool) (start : Nat)
  | emergency
  deriving DecidableEq, Repr

def Phase.isSigned : Phase → Bool
  | .signed => true
  | _ => false

/-- `ElectionCompute`. -/
inductive ElectionCompute
  | onChain
  | signed
  | unsigned
  | fallback
  | emergency
  deriving DecidableEq, Repr

/-- `FeasibilityError`. -/
inductive FeasibilityError
  | wrongWinnerCount
  | snapshotUnavailable
  | nposElection (e : NposElections.Error)
  | invalidVote
  | invalidVoter
  | invalidScore
  | invalidRound
  | untrustedScoreTooLow
  deriving DecidableEq, Repr

/-- `RawSolution<S>`: a solution, its claimed score and its round. -/
structure RawSolution (S : Type) where
  solution : S
  score : ElectionScore
  round : Nat

/-- `ReadySolution<A>`. -/
structure ReadySolution (A : Type) where
  supports : Supports A
  score : ElectionScore
  compute : ElectionCompute
  deriving DecidableEq, Repr

/-- `RoundSnapshot<A>`: voters as `(id, stake, targets)`, and the targets. -/
structure RoundSnapshot (A : Type) where
  voters : List (A × Nat × List A)
  targets : List A
  deriving DecidableEq, Repr

/-- `SolutionOrSnapshotSize`. -/
structure SolutionOrSnapshotSize where
  voters : Nat
  targets : Nat
  deriving DecidableEq, Repr

/-- `SignedSubmission<AccountId, Balance, Solution>`. -/
structure SignedSubmission (A S : Type) where
  who : A
  deposit : Nat
  rawSolution : RawSolution S
  reward : Nat

/-- The pallet's storage items: `Round`, `CurrentPhase`, `QueuedSolution`,
`Snapshot`, `DesiredTargets`, `SnapshotMetadata`, `MinimumUntrustedScore`,
and the three items of the signed queue. -/
structure Storage (A S : Type) where
  round : Nat
  currentPhase : Phase
  queuedSolution : Option (ReadySolution A)
  snapshot : Option (RoundSnapshot A)
  desiredTargets : Option Nat
  snapshotMetadata : Option SolutionOrSnapshotSize
  minimumUntrustedScore : Option ElectionScore
  signedSubmissionNextIndex : Nat
  signedSubmissionIndices : OrdMap ElectionScore Nat
  signedSubmissionsMap : OrdMap Nat (SignedSubmission A S)

end ElectionMultiPhase
