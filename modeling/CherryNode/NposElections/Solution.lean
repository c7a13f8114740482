import CherryNode.NposElections.Basic

/-!
# sp-npos-elections: the generated solution type

`generate_solution_type!` makes fields `votes1` to `votes{count}`: `votes1`
holds `(voter, target)` pairs, all the stake on one target, and `votes{c}`
holds `(voter, inners, t_last)` with `c - 1` inner `(target, ratio)` edges and
a last target taking what they leave.  Here `votesRest[k]` is `votes{k + 2}`,
the fixed array sizes are `inners_length`, and indices resolve against the
snapshot through `voter_at` and `target_at`.  `unique_targets` collects every
target index, zero-ratio inner edges included, and `into_assignment` does not
check that a voter index occurs once across the fields.
-/

namespace NposElections

open SpArithmetic

/-- One entry of `votes{c}` for `c ≥ 2`. -/
abbrev VoteN (accuracy : Nat) := Nat × List (Nat × PerThing accuracy) × Nat

/-- The solution struct of `generate_solution_type!(..)(count)`. -/
structure Solution (count accuracy : Nat) where
  votes1 : List (Nat × Nat)
  votesRest : List (List (VoteN accuracy))
  length_votesRest : votesRest.length = count - 1
  inners_length : ∀ k (hk : k < votesRest.length), ∀ v ∈ votesRest[k], v.2.1.length = k + 1

variable {count accuracy : Nat}

/-- The target indices of one `votes{c}` entry, inner edges first. -/
def VoteN.targets (v : VoteN accuracy) : List Nat := v.2.1.map Prod.fst ++ [v.2.2]

/-- `unique_targets`: every target index in the solution, sorted, once each. -/
def Solution.uniqueTargets (s : Solution count accuracy) : List Nat :=
  let allTargets := s.votes1.map Prod.snd ++ (s.votesRest.flatten.flatMap VoteN.targets)
  (allTargets.foldl (fun set t => set.insert t ()) (OrdMap.empty : OrdMap Nat Unit)).keys

/-- `.or_invalid_index()`. -/
def orInvalidIndex {α : Type} : Option α → Except Error α
  | some a => .ok a
  | none => .error .solutionInvalidIndex

variable {A : Type}

section Decode

variable (voterAt : Nat → Option A) (targetAt : Nat → Option A)

/-- The `votes1` loop. -/
def intoAssignment1 : List (Nat × Nat) → Except Error (List (Assignment A accuracy))
  | [] => .ok []
  | (voterIndex, targetIndex) :: rest => do
    let who ← orInvalidIndex (voterAt voterIndex)
    let target ← orInvalidIndex (targetAt targetIndex)
    let tail ← intoAssignment1 rest
    pure (⟨who, [(target, PerThing.one)]⟩ :: tail)

/-- The inner edges of a `votes{c}` entry, resolved. -/
def parseInners : List (Nat × PerThing accuracy) → Except Error (List (A × PerThing accuracy))
  | [] => .ok []
  | (t, p) :: rest => do
    let target ← orInvalidIndex (targetAt t)
    let tail ← parseInners rest
    pure ((target, p) :: tail)

/-- `Saturating::saturating_add` over the inner ratios. -/
def innersSum (inners : List (Nat × PerThing accuracy)) : PerThing accuracy :=
  inners.foldl (fun sum e => sum.saturatingAdd e.2) PerThing.zero

/-- One `votes{c}` entry: the inner edges, then `SolutionWeightOverflow` if
they reach one, then the last edge with the rest. -/
def intoAssignmentN (v : VoteN accuracy) : Except Error (Assignment A accuracy) := do
  let innersParsed ← parseInners targetAt v.2.1
  let sum := innersSum v.2.1
  if (PerThing.one : PerThing accuracy).parts ≤ sum.parts then throw .solutionWeightOverflow
  let pLast := PerThing.one.saturatingSub sum
  let target ← orInvalidIndex (targetAt v.2.2)
  let who ← orInvalidIndex (voterAt v.1)
  pure ⟨who, innersParsed ++ [(target, pLast)]⟩

/-- The `votes{c}` loops, `c = 2, 3, ..`, one after the other. -/
def intoAssignmentRest : List (VoteN accuracy) → Except Error (List (Assignment A accuracy))
  | [] => .ok []
  | v :: rest => do
    let a ← intoAssignmentN voterAt targetAt v
    let tail ← intoAssignmentRest rest
    pure (a :: tail)

/-- `into_assignment(voter_at, target_at)`. -/
def Solution.intoAssignment (s : Solution count accuracy) :
    Except Error (List (Assignment A accuracy)) := do
  let single ← intoAssignment1 voterAt targetAt s.votes1
  let rest ← intoAssignmentRest voterAt targetAt s.votesRest.flatten
  pure (single ++ rest)

end Decode

end NposElections
