import Mathlib
import CherryNode.NposElections.Basic
import CherryNode.Arithmetic.Rational
import CherryNode.Lib.Tally

/-!
# sp-npos-elections: `seq_phragmen_core` and `balance`

The candidates are shared by pointer (`Rc<RefCell<_>>`): each voter's edge
points to the candidate it votes for, and the election writes the candidates'
scores and backed stakes through these pointers.  Here the candidates are one
list and a pointer is a position in it.  A dangling pointer cannot happen in
the code; the model reads a default there, and the invariants show every
pointer is in range.

`setup_inputs` builds the candidates and, per voter, one edge per distinct
candidate it votes for (`c_idx_cache` is each account's last position).
`seq_phragmen_core` runs its rounds (`electionRounds`: fresh scores, the
voters' loads added in, the least score elected, the loads moved on), gives
each edge of an elected candidate a weight from its share of the voter's load
and adds it to the candidate's backed stake (`finalLoop`), drops the zero edges
and normalizes the voter (`try_normalize_elected`).  `balance` runs rounds of
`balance_voter`, which takes a voter's backing off its elected candidates and
spreads its budget over the least backed ones (water-filling).

The outer `Option` is a panic (`multiply_by_rational` beyond `u128`, an
`expect` of `balance_voter`); `ExtendedBalance` is `u128`, with the saturating
operations of `NposElections.Basic`.
-/

namespace NposElections

open SpArithmetic Helpers128bit

/-- `DEN`: `ExtendedBalance::max_value()`. -/
def den : Nat := u128Max

/-- `Candidate<AccountId>`. -/
structure Candidate (A : Type) where
  who : A
  score : Rational128
  approvalStake : Nat
  backedStake : Nat
  elected : Bool
  round : Nat

/-- `Edge<AccountId>`; `candidate` is the position of the candidate its
pointer shares. -/
structure Edge (A : Type) where
  who : A
  load : Rational128
  candidate : Nat
  weight : Nat

/-- `Voter<AccountId>`. -/
structure Voter (A : Type) where
  who : A
  edges : List (Edge A)
  budget : Nat
  load : Rational128

section Pointers

variable {A : Type}

/-- `candidate.borrow().elected` through a pointer. -/
def isElected (cands : List (Candidate A)) (i : Nat) : Bool := (cands[i]?.map Candidate.elected).getD false

/-- `candidate.borrow().backed_stake` through a pointer. -/
def backedOf (cands : List (Candidate A)) (i : Nat) : Nat := (cands[i]?.map Candidate.backedStake).getD 0

/-- A write of the backed stake through a pointer. -/
def setBacked (cands : List (Candidate A)) (i : Nat) (f : Nat → Nat) : List (Candidate A) :=
  cands.modify i fun c => { c with backedStake := f c.backedStake }

/-- `multiply_by_rational(a, b, c).unwrap_or(Bounded::max_value())`. -/
def mulRationalOrMax (a b c : Nat) : Option Nat :=
  (multiplyByRational a b c).map fun r => r.toOption.getD u128Max

end Pointers

variable {A : Type} [DecidableEq A]

/-! ## `setup_inputs` -/

/-- `c_idx_cache`: the position of each candidate, the last one for an account
given twice. -/
def cIdxCache (initialCandidates : List A) : A → Option Nat :=
  initialCandidates.zipIdx.foldl (fun cache p => Function.update cache p.1 (some p.2)) fun _ => none

/-- The loop over one voter's votes: an edge for each new vote for a known
candidate, whose approval stake the voter's stake raises. -/
def voterEdges (cache : A → Option Nat) (voterStake : Nat) :
    List (Candidate A) × List (Edge A) → List A → List (Candidate A) × List (Edge A)
  | acc, [] => acc
  | (cands, edges), v :: votes =>
    if edges.any (·.who == v) then
      -- duplicate edge
      voterEdges cache voterStake (cands, edges) votes
    else
      match cache v with
      | some idx =>
        let cands := cands.modify idx fun c =>
          { c with approvalStake := u128SaturatingAdd c.approvalStake voterStake }
        voterEdges cache voterStake (cands, edges ++ [⟨v, ⟨0, 0⟩, idx, 0⟩]) votes
      | none => voterEdges cache voterStake (cands, edges) votes

/-- The `filter_map` over the voters: a voter with no edge is dropped. -/
def setupVoters (cache : A → Option Nat) :
    List (Candidate A) → List (A × Nat × List A) → List (Candidate A) × List (Voter A)
  | cands, [] => (cands, [])
  | cands, (who, voterStake, votes) :: rest =>
    let r := voterEdges cache voterStake (cands, []) votes
    let s := setupVoters cache r.1 rest
    (s.1, if r.2.isEmpty then s.2 else ⟨who, r.2, voterStake, Rational128.zero⟩ :: s.2)

/-- `setup_inputs`: a candidate for each account, with default fields. -/
def setupInputs (initialCandidates : List A) (initialVoters : List (A × Nat × List A)) :
    List (Candidate A) × List (Voter A) :=
  setupVoters (cIdxCache initialCandidates) (initialCandidates.map fun who => ⟨who, ⟨0, 0⟩, 0, 0, false, 0⟩)
    initialVoters

/-! ## `Voter::try_normalize_elected` -/

/-- The weights of the edges to elected candidates, in order. -/
def electedWeights (cands : List (Candidate A)) (edges : List (Edge A)) : List Nat :=
  (edges.filter fun e => isElected cands e.candidate).map Edge.weight

/-- The loop of `try_normalize_elected`: the elected edges, zipped with the
normalized weights, each takes its weight, and its candidate's backed stake
loses the old weight and gains the new. -/
def correctElected (cands : List (Candidate A)) : List (Edge A) → List Nat → List (Candidate A) × List (Edge A)
  | [], _ => (cands, [])
  | e :: es, normalized =>
    if isElected cands e.candidate then
      match normalized with
      | corrected :: rest =>
        let cands := setBacked cands e.candidate fun b => u128SaturatingAdd (b - e.weight) corrected
        let r := correctElected cands es rest
        (r.1, { e with weight := corrected } :: r.2)
      | [] => (cands, e :: es)
    else
      let r := correctElected cands es normalized
      (r.1, e :: r.2)

/-- `try_normalize_elected`: the elected weights normalized to the budget. -/
def tryNormalizeElected (cands : List (Candidate A)) (voter : Voter A) :
    Except String (List (Candidate A) × Voter A) :=
  (normalize (2 ^ 128) (electedWeights cands voter.edges) voter.budget).map fun normalized =>
    let r := correctElected cands voter.edges normalized
    (r.1, { voter with edges := r.2 })

/-! ## `seq_phragmen_core` -/

/-- Loop 1: a candidate not elected starts the round at `1 / approval_stake`,
or at the maximum when nobody approves it. -/
def initScore (c : Candidate A) : Candidate A :=
  if !c.elected then
    { c with score := if c.approvalStake = 0 then Rational128.maxValue
        else Rational128.«from» (den / c.approvalStake) den }
  else c

/-- Loop 2, one edge: the voter's load, in the share of its budget in the
candidate's approval stake, is added to the candidate's score. -/
def incrementScore (voter : Voter A) (cands : List (Candidate A)) (edge : Edge A) :
    Option (List (Candidate A)) :=
  match cands[edge.candidate]? with
  | some c =>
    if !c.elected && c.approvalStake != 0 then
      (mulRationalOrMax voter.load.n voter.budget c.approvalStake).map fun tempN =>
        let temp := Rational128.«from» tempN voter.load.d
        cands.set edge.candidate { c with score := c.score.lazySaturatingAdd temp }
    else some cands
  | none => some cands

/-- Loop 2 over one voter's edges. -/
def incrementEdges (voter : Voter A) : List (Candidate A) → List (Edge A) → Option (List (Candidate A))
  | cands, [] => some cands
  | cands, e :: es => (incrementScore voter cands e).bind fun cands => incrementEdges voter cands es

/-- Loop 2 over the voters. -/
def incrementScores : List (Candidate A) → List (Voter A) → Option (List (Candidate A))
  | cands, [] => some cands
  | cands, v :: vs => (incrementEdges v cands v.edges).bind fun cands => incrementScores cands vs

/-- A step of `min_by_key`: a later candidate replaces the best so far only
with a smaller score. -/
def minByScoreStep (best : Option (Candidate A × Nat)) (p : Candidate A × Nat) : Option (Candidate A × Nat) :=
  match best with
  | none => some p
  | some b => if b.1.score.cmp p.1.score = .gt then some p else some b

/-- Loop 3's `min_by_key(score)` over the candidates not elected: the first of
the least score, with its position. -/
def minByScore (cands : List (Candidate A)) : Option (Candidate A × Nat) :=
  (cands.zipIdx.filter fun p => !p.1.elected).foldl minByScoreStep none

/-- Loop 3's update of a voter's edges to the winner: the edge's load is the
winner's score beyond the voter's load, which becomes the winner's score. -/
def updateEdgeLoads (winner : Candidate A) : Rational128 → List (Edge A) → Rational128 × List (Edge A)
  | load, [] => (load, [])
  | load, e :: es =>
    if e.who = winner.who then
      let r := updateEdgeLoads winner winner.score es
      (r.1, { e with load := winner.score.lazySaturatingSub load } :: r.2)
    else
      let r := updateEdgeLoads winner load es
      (r.1, e :: r.2)

/-- Loop 3's update of one voter. -/
def updateLoads (winner : Candidate A) (voter : Voter A) : Voter A :=
  let r := updateEdgeLoads winner voter.load voter.edges
  { voter with load := r.1, edges := r.2 }

/-- The main election loop, for `rounds` more rounds from round `round`. -/
def electionRounds : Nat → Nat → List (Candidate A) → List (Voter A) →
    Option (List (Candidate A) × List (Voter A))
  | 0, _, cands, voters => some (cands, voters)
  | rounds + 1, round, cands, voters =>
    (incrementScores (cands.map initScore) voters).bind fun cands =>
      match minByScore cands with
      | some (winner, idx) =>
        let winner := { winner with elected := true, round }
        electionRounds rounds (round + 1) (cands.set idx winner) (voters.map (updateLoads winner))
      | none => some (cands, voters)

/-- The final loop, one edge: an edge to an elected candidate weighs its share
of the voter's load in the voter's budget, and adds it to the candidate's
backed stake. -/
def backEdge (voter : Voter A) (cands : List (Candidate A)) (edge : Edge A) :
    Option (List (Candidate A) × Edge A) :=
  (if isElected cands edge.candidate then mulRationalOrMax voter.budget edge.load.n voter.load.n
    else some 0).map fun weight =>
      (setBacked cands edge.candidate (u128SaturatingAdd · weight), { edge with weight })

/-- The final loop over one voter's edges. -/
def backEdges (voter : Voter A) : List (Candidate A) → List (Edge A) → Option (List (Candidate A) × List (Edge A))
  | cands, [] => some (cands, [])
  | cands, e :: es =>
    (backEdge voter cands e).bind fun r =>
      (backEdges voter r.1 es).map fun s => (s.1, r.2 :: s.2)

/-- The final loop over the voters: weights and backed stakes, then the zero
edges dropped and the voter normalized; a failed normalization is the error. -/
def finalLoop : List (Candidate A) → List (Voter A) → Option (Except Error (List (Candidate A) × List (Voter A)))
  | cands, [] => some (.ok (cands, []))
  | cands, v :: vs =>
    (backEdges v cands v.edges).bind fun r =>
      -- remove all zero edges
      match tryNormalizeElected r.1 { v with edges := r.2.filter (0 < ·.weight) } with
      | .error e => some (.error (.arithmeticError e))
      | .ok (cands, voter) => (finalLoop cands vs).map (Except.map fun s => (s.1, voter :: s.2))

/-- `seq_phragmen_core`. -/
def seqPhragmenCore (toElect : Nat) (candidates : List (Candidate A)) (voters : List (Voter A)) :
    Option (Except Error (List (Candidate A) × List (Voter A))) :=
  (electionRounds (min toElect candidates.length) 0 candidates voters).bind fun r => finalLoop r.1 r.2

/-! ## `balance_voter` and `balance` -/

/-- The elected edges `balance_voter` works on, with their positions. -/
def electedEdges (cands : List (Candidate A)) (edges : List (Edge A)) : List (Edge A × Nat) :=
  edges.zipIdx.filter fun p => isElected cands p.1.candidate

/-- The gap `balance_voter` measures: between the most backed candidate the
voter backs and the least backed it votes for, plus the unused budget;
`None` for a failed `expect`. -/
def balanceDifference (budget stakeUsed : Nat) (backedStakes backingBackedStake : List Nat) : Option Nat :=
  if 0 < backingBackedStake.length then
    match backingBackedStake.max?, backedStakes.min? with
    | some maxStake, some minStake => some (u128SaturatingAdd (maxStake - minStake) (budget - stakeUsed))
    | _, _ => none
  else some budget

/-- "remove all backings": each elected edge's weight leaves its candidate. -/
def removeBackings : List (Candidate A) → List (Edge A) → List (Edge A × Nat) → List (Candidate A) × List (Edge A)
  | cands, edges, [] => (cands, edges)
  | cands, edges, (e, j) :: rest =>
    removeBackings (setBacked cands e.candidate (· - e.weight)) (edges.modify j fun e => { e with weight := 0 }) rest

/-- The loop over the sorted backed stakes: the sum of those before the first
that the budget cannot lift the ones before it to, and that one's position
less one, if there is such. -/
def cumulativeLoop (budget : Nat) : Nat → Nat → List Nat → Nat × Option Nat
  | _, cumulative, [] => (cumulative, none)
  | index, cumulative, backedStake :: rest =>
    let temp := u128SaturatingMul backedStake index
    if budget < temp - cumulative then (cumulative, some (index - 1))
    else cumulativeLoop budget (index + 1) (u128SaturatingAdd cumulative backedStake) rest

/-- "Do the final update": each of the first edges is lifted to the common
level, its share of the excess above the last stake. -/
def spreadExcess (share lastStake : Nat) :
    List (Candidate A) → List (Edge A) → List (Edge A × Nat) → List (Candidate A) × List (Edge A)
  | cands, edges, [] => (cands, edges)
  | cands, edges, (e, j) :: rest =>
    let newEdgeWeight := u128SaturatingAdd share lastStake - backedOf cands e.candidate
    spreadExcess share lastStake (setBacked cands e.candidate (u128SaturatingAdd · newEdgeWeight))
      (edges.modify j fun e => { e with weight := newEdgeWeight }) rest

/-- The part of `balance_voter` after the early returns: the water-filling
and the normalization, whose failure is ignored. -/
def waterFill (cands : List (Candidate A)) (voter : Voter A) (elected : List (Edge A × Nat)) :
    Option (List (Candidate A) × Voter A) :=
  let removed := removeBackings cands voter.edges elected
  let cands := removed.1
  let sorted := elected.insertionSort fun p q => backedOf cands p.1.candidate ≤ backedOf cands q.1.candidate
  let cumulative := cumulativeLoop voter.budget 0 0 (sorted.map fun p => backedOf cands p.1.candidate)
  let lastIndex := cumulative.2.getD (elected.length - 1)
  match sorted[lastIndex]? with
  | none => none
  | some last =>
    let lastStake := backedOf cands last.1.candidate
    let waysToSplit := lastIndex + 1
    let excess := u128SaturatingAdd voter.budget cumulative.1 - u128SaturatingMul lastStake waysToSplit
    let spread := spreadExcess (excess / waysToSplit) lastStake cands removed.2 (sorted.take waysToSplit)
    let voter := { voter with edges := spread.2 }
    match tryNormalizeElected spread.1 voter with
    | .ok r => some r
    | .error _ => some (spread.1, voter)

/-- `balance_voter`: the candidates and the voter after it, and the
difference it returns. -/
def balanceVoter (tolerance : Nat) (cands : List (Candidate A)) (voter : Voter A) :
    Option (List (Candidate A) × Voter A × Nat) :=
  let elected := electedEdges cands voter.edges
  if elected.length ≤ 1 then some (cands, voter, 0)
  else
    let stakeUsed := elected.foldl (fun a p => u128SaturatingAdd a p.1.weight) 0
    let backedStakes := elected.map fun p => backedOf cands p.1.candidate
    let backingBackedStake := elected.filterMap fun p =>
      if 0 < p.1.weight then some (backedOf cands p.1.candidate) else none
    (balanceDifference voter.budget stakeUsed backedStakes backingBackedStake).bind fun difference =>
      if 0 < backingBackedStake.length ∧ difference < tolerance then some (cands, voter, difference)
      else (waterFill cands voter elected).map fun r => (r.1, r.2, difference)

/-- One round of `balance`: every voter once, in order, and the largest
difference. -/
def balanceRound (tolerance : Nat) : List (Candidate A) → List (Voter A) →
    Option (List (Candidate A) × List (Voter A) × Nat)
  | cands, [] => some (cands, [], 0)
  | cands, v :: vs =>
    (balanceVoter tolerance cands v).bind fun r =>
      (balanceRound tolerance r.1 vs).map fun s => (s.1, r.2.1 :: s.2.1, max r.2.2 s.2.2)

/-- The loop of `balance`, with `fuel` rounds left of the `iterations`: it
stops once a round's largest difference is within the tolerance, or after
`iterations` rounds. -/
def balanceLoop (iterations tolerance : Nat) : Nat → Nat → List (Candidate A) → List (Voter A) →
    Option (List (Candidate A) × List (Voter A) × Nat)
  | 0, iter, cands, voters => some (cands, voters, iter)
  | fuel + 1, iter, cands, voters =>
    (balanceRound tolerance cands voters).bind fun r =>
      if r.2.2 ≤ tolerance ∨ iterations ≤ iter + 1 then some (r.1, r.2.1, iter + 1)
      else balanceLoop iterations tolerance fuel (iter + 1) r.1 r.2.1

/-- `balance(voters, iterations, tolerance)`: the candidates and voters after
it, and the number of rounds. -/
def balance (cands : List (Candidate A)) (voters : List (Voter A)) (iterations tolerance : Nat) :
    Option (List (Candidate A) × List (Voter A) × Nat) :=
  if iterations = 0 then some (cands, voters, 0)
  else balanceLoop iterations tolerance iterations 0 cands voters

end NposElections
