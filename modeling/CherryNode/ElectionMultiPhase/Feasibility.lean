import CherryNode.ElectionMultiPhase.Types

/-!
# election-provider-multi-phase: `feasibility_check`

`Pallet::feasibility_check(raw_solution, compute)` and the snapshot helpers of
`helpers.rs` its closures use.  It compares the round, counts the solution's
distinct target indices (`unique_targets`) against `DesiredTargets`, compares
the claimed score with `MinimumUntrustedScore`, decodes the solution against
the snapshot, checks each assignment's voter and targets, stakes and normalizes
the assignments, builds the supports and compares their score with the claim.

Winners are counted over target indices, before `into_staked` drops zero-ratio
edges, and `into_assignment` does not look for a voter index used twice: a
feasible solution may back fewer targets than `DesiredTargets`
(`feasibilityCheck_accepts_fewer_winners`).
-/

namespace ElectionMultiPhase

open SpArithmetic NposElections

variable {A : Type} [LinearOrder A]

/-! ## Snapshot helpers -/

/-- `generate_voter_cache`: each voter id to its snapshot index (the last
one, for a repeated id). -/
def generateVoterCache (voters : List (A × Nat × List A)) : OrdMap A Nat :=
  voters.zipIdx.foldl (fun cache e => cache.insert e.1.1 e.2) OrdMap.empty

/-- `voter_at_fn`. -/
def voterAt (voters : List (A × Nat × List A)) (i : Nat) : Option A := voters[i]?.map (·.1)

/-- `target_at_fn`. -/
def targetAt (targets : List A) (i : Nat) : Option A := targets[i]?

/-- `voter_index_fn_usize`. -/
def voterIndex (cache : OrdMap A Nat) (who : A) : Option Nat := cache.get? who

/-- `stake_of_fn`: zero for an unknown voter. -/
def stakeOf (voters : List (A × Nat × List A)) (cache : OrdMap A Nat) (who : A) : Nat :=
  match cache.get? who with
  | some index => (voters[index]?.map (·.2.1)).getD 0
  | none => 0

/-- The `assignments.iter().map(..).collect::<Result<(), _>>()` pass: the
voter is in the snapshot and votes for every target of its distribution. -/
def checkAssignments {accuracy : Nat} (voters : List (A × Nat × List A)) (cache : OrdMap A Nat) :
    List (Assignment A accuracy) → Except FeasibilityError Unit
  | [] => .ok ()
  | a :: rest =>
    match voterIndex cache a.who with
    | none => .error .invalidVoter
    | some snapshotIndex =>
      match voters[snapshotIndex]? with
      | none => .error .invalidVoter
      | some (_, _, targets) =>
        if a.distribution.any fun e => !decide (e.1 ∈ targets) then .error .invalidVote
        else checkAssignments voters cache rest

/-! ## The check -/

variable {count accuracy : Nat}

/-- `Pallet::feasibility_check`. -/
def feasibilityCheck (st : Storage A (Solution count accuracy))
    (rawSolution : RawSolution (Solution count accuracy)) (compute : ElectionCompute) :
    Except FeasibilityError (ReadySolution A) := do
  if st.round ≠ rawSolution.round then throw .invalidRound
  let winners := rawSolution.solution.uniqueTargets
  let some desiredTargets := st.desiredTargets | throw .snapshotUnavailable
  -- `winners.len() as u32 == desired_targets`
  if winners.length % 2 ^ 32 ≠ desiredTargets then throw .wrongWinnerCount
  if !st.minimumUntrustedScore.all fun minScore =>
      isScoreBetter rawSolution.score minScore (PerThing.zero : Perbill) then
    throw .untrustedScoreTooLow
  let some snapshot := st.snapshot | throw .snapshotUnavailable
  let cache := generateVoterCache snapshot.voters
  let assignments ← (rawSolution.solution.intoAssignment (voterAt snapshot.voters)
    (targetAt snapshot.targets)).mapError .nposElection
  checkAssignments snapshot.voters cache assignments
  let stakedAssignments ← (assignmentRatioToStakedNormalized assignments
    (stakeOf snapshot.voters cache)).mapError .nposElection
  let supports := toSupports stakedAssignments
  let knownScore := evaluate supports
  if knownScore ≠ rawSolution.score then throw .invalidScore
  pure { supports := supports, score := rawSolution.score, compute := compute }

/-! ## A feasible solution with fewer winners than desired -/

/-- Voter `10` with stake `100` votes for `20` and `21`, the two targets; two
winners are desired. -/
def zeroEdgeStorage : Storage Nat (Solution 16 65535) where
  round := 1
  currentPhase := .signed
  queuedSolution := none
  snapshot := some { voters := [(10, 100, [20, 21])], targets := [20, 21] }
  desiredTargets := some 2
  snapshotMetadata := some { voters := 1, targets := 2 }
  minimumUntrustedScore := none
  signedSubmissionNextIndex := 0
  signedSubmissionIndices := OrdMap.empty
  signedSubmissionsMap := OrdMap.empty

/-- One `votes2` entry: voter index `0`, an inner edge to target index `1`
with ratio zero, the last edge to target index `0`. -/
def zeroEdgeSolution : RawSolution (Solution 16 65535) where
  solution :=
    { votes1 := []
      votesRest := [(0, [(1, PerThing.zero)], 0)] :: List.replicate 14 []
      length_votesRest := rfl
      inners_length := by decide }
  score := ⟨100, 100, 10000⟩
  round := 1

theorem feasibilityCheck_accepts_fewer_winners :
    zeroEdgeStorage.desiredTargets = some 2 ∧
      zeroEdgeSolution.solution.uniqueTargets = [0, 1] ∧
      feasibilityCheck zeroEdgeStorage zeroEdgeSolution .signed =
        .ok { supports := [(20, { total := 100, voters := [(10, 100)] })]
              score := ⟨100, 100, 10000⟩
              compute := .signed } := by
  decide

end ElectionMultiPhase
