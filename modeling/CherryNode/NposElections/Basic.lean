import Mathlib
import CherryNode.Arithmetic.PerThing
import CherryNode.Arithmetic.Normalize
import CherryNode.Lib.OrdMap

/-!
# sp-npos-elections: assignments, supports and scores

What `feasibility_check` runs on a decoded solution: a ratio `Assignment`
becomes a `StakedAssignment` by the voter's stake (`into_staked`, dropping zero
ratios), the edges are normalized to the stake (`try_normalize`), collected per
target (`to_support_map`) and scored (`evaluate`).  `ExtendedBalance` is
`u128`, its additions and multiplications saturating.  A successful
`try_normalize` keeps the targets and sums to the stake (`tryNormalize_spec`).
-/

namespace NposElections

open SpArithmetic

/-- `ExtendedBalance::max_value()`. -/
def u128Max : Nat := 2 ^ 128 - 1

def u128SaturatingAdd (a b : Nat) : Nat := min (a + b) u128Max

def u128SaturatingMul (a b : Nat) : Nat := min (a * b) u128Max

/-- `sp_npos_elections::Error`. -/
inductive Error
  | solutionWeightOverflow
  | solutionTargetOverflow
  | solutionInvalidIndex
  | solutionInvalidPageIndex
  | arithmeticError (msg : String)
  | invalidSupportEdge
  deriving DecidableEq, Repr

/-- `Assignment<AccountId, P>`: a voter's stake split by ratios. -/
structure Assignment (A : Type) (accuracy : Nat) where
  who : A
  distribution : List (A × PerThing accuracy)

/-- `StakedAssignment<AccountId>`: a voter's stake split in absolute amounts. -/
structure StakedAssignment (A : Type) where
  who : A
  distribution : List (A × Nat)
  deriving DecidableEq, Repr

variable {A : Type} {accuracy stake : Nat}

/-- `Assignment::into_staked`: zero ratios are dropped, the others multiply
the stake (rounding to the nearest). -/
def Assignment.intoStaked (a : Assignment A accuracy) (stake : Nat) : StakedAssignment A :=
  { who := a.who
    distribution := a.distribution.filterMap fun (target, p) =>
      if p.isZero then none else some (target, p.mul stake) }

/-- `StakedAssignment::total`. -/
def StakedAssignment.total (a : StakedAssignment A) : Nat :=
  a.distribution.foldl (fun acc b => u128SaturatingAdd acc b.2) 0

/-- `iter_mut().zip(normalized)`: overwrite the weights in order, as far as
both go. -/
def replaceWeights : List (A × Nat) → List Nat → List (A × Nat)
  | (target, _) :: rest, w :: ws => (target, w) :: replaceWeights rest ws
  | d, [] => d
  | [], _ => []

/-- `StakedAssignment::try_normalize(stake)`: normalize the weights (as
`u128`) to add up to `stake`. -/
def StakedAssignment.tryNormalize (a : StakedAssignment A) (stake : Nat) :
    Except String (StakedAssignment A) :=
  match normalize (2 ^ 128) (a.distribution.map Prod.snd) stake with
  | .ok normalized => .ok { a with distribution := replaceWeights a.distribution normalized }
  | .error e => .error e

/-- `assignment_ratio_to_staked`. -/
def assignmentRatioToStaked (ratios : List (Assignment A accuracy)) (stakeOf : A → Nat) :
    List (StakedAssignment A) :=
  ratios.map fun a => a.intoStaked (stakeOf a.who)

/-- Normalize each staked assignment; the first failure is the result. -/
def normalizeAll (stakeOf : A → Nat) : List (StakedAssignment A) → Except Error (List (StakedAssignment A))
  | [] => .ok []
  | a :: rest =>
    match a.tryNormalize (stakeOf a.who) with
    | .error err => .error (.arithmeticError err)
    | .ok a' =>
      match normalizeAll stakeOf rest with
      | .ok rest' => .ok (a' :: rest')
      | .error err => .error err

/-- `assignment_ratio_to_staked_normalized`. -/
def assignmentRatioToStakedNormalized (ratios : List (Assignment A accuracy)) (stakeOf : A → Nat) :
    Except Error (List (StakedAssignment A)) :=
  normalizeAll stakeOf (assignmentRatioToStaked ratios stakeOf)

/-- `Support<AccountId>`. -/
structure Support (A : Type) where
  total : Nat
  voters : List (A × Nat)
  deriving DecidableEq, Repr

/-- `Supports<A>`: target-major, as `to_supports` returns it. -/
abbrev Supports (A : Type) := List (A × Support A)

/-- `ElectionScore = [ExtendedBalance; 3]`: minimal support, sum of
supports, sum of squared supports. -/
structure ElectionScore where
  minimalStake : Nat
  sumStake : Nat
  sumStakeSquared : Nat
  deriving DecidableEq, Repr

/-- The key of the array order of `[u128; 3]`: lexicographic. -/
def ElectionScore.lexKey (s : ElectionScore) : Lex (Nat × Lex (Nat × Nat)) :=
  toLex (s.minimalStake, toLex (s.sumStake, s.sumStakeSquared))

theorem ElectionScore.lexKey_injective : Function.Injective ElectionScore.lexKey := by
  intro a b h
  cases a
  cases b
  simp only [ElectionScore.lexKey, EmbeddingLike.apply_eq_iff_eq, Prod.mk.injEq] at h
  obtain ⟨h1, h2, h3⟩ := h
  subst h1 h2 h3
  rfl

instance : LinearOrder ElectionScore :=
  LinearOrder.lift' ElectionScore.lexKey ElectionScore.lexKey_injective

section Supports

variable [LinearOrder A]

/-- The empty support `entry(..).or_default()` starts from. -/
def Support.empty : Support A := ⟨0, []⟩

/-- One edge `(c, weight)` of `who` into the support map. -/
def pushEdge (who : A) (supports : OrdMap A (Support A)) (edge : A × Nat) : OrdMap A (Support A) :=
  let support := (supports.get? edge.1).getD Support.empty
  supports.insert edge.1
    { total := u128SaturatingAdd support.total edge.2, voters := support.voters ++ [(who, edge.2)] }

/-- `to_support_map`. -/
def toSupportMap (assignments : List (StakedAssignment A)) : OrdMap A (Support A) :=
  assignments.foldl (fun supports a => a.distribution.foldl (pushEdge a.who) supports) OrdMap.empty

/-- `to_supports`: the map's entries in increasing target order. -/
def toSupports (assignments : List (StakedAssignment A)) : Supports A :=
  (toSupportMap assignments).toList

end Supports

/-- `EvaluateSupport::evaluate`. -/
def evaluate (supports : Supports A) : ElectionScore :=
  supports.foldl (fun (score : ElectionScore) (_, support) =>
    { minimalStake := if support.total < score.minimalStake then support.total else score.minimalStake
      sumStake := u128SaturatingAdd score.sumStake support.total
      sumStakeSquared :=
        u128SaturatingAdd score.sumStakeSquared (u128SaturatingMul support.total support.total) })
    ⟨u128Max, 0, 0⟩

/-- `ThresholdOrd::tcmp`: `Equal` within `threshold` of `other`. -/
def tcmp (self other threshold : Nat) : Ordering :=
  if threshold = 0 then compare self other
  else
    let upperBound := u128SaturatingAdd other threshold
    let lowerBound := other - threshold
    if upperBound ≤ lowerBound then compare self other
    else
      match compare self lowerBound, compare self upperBound with
      | .gt, .gt => .gt
      | .lt, .lt => .lt
      | _, _ => .eq

/-- `is_score_better(this, that, epsilon)`: lexicographic, the third
component minimized, each component compared within `epsilon * that`. -/
def isScoreBetter (this that : ElectionScore) (epsilon : PerThing accuracy) : Bool :=
  let cmp (thi tha : Nat) : Bool × Ordering := (decide (tha ≤ thi), tcmp thi tha (epsilon.mulCeil tha))
  match cmp this.minimalStake that.minimalStake, cmp this.sumStake that.sumStake,
    cmp this.sumStakeSquared that.sumStakeSquared with
  | (_, .gt), _, _ => true
  | (true, .eq), (_, .gt), _ => true
  | (true, .eq), (true, .eq), (_, .lt) => true
  | _, _, _ => false

/-! ## Normalizing a staked assignment -/

theorem map_fst_replaceWeights :
    ∀ (d : List (A × Nat)) (ws : List Nat), (replaceWeights d ws).map Prod.fst = d.map Prod.fst
  | (_, _) :: rest, _ :: ws => by simp [replaceWeights, map_fst_replaceWeights rest ws]
  | [], [] => rfl
  | _ :: _, [] => rfl
  | [], _ :: _ => rfl

theorem map_snd_replaceWeights :
    ∀ (d : List (A × Nat)) (ws : List Nat), ws.length = d.length →
      (replaceWeights d ws).map Prod.snd = ws
  | (_, _) :: rest, _ :: ws, h => by
    simp [replaceWeights, map_snd_replaceWeights rest ws (by simpa using h)]
  | [], [], _ => rfl
  | _ :: _, [], h => by simp at h
  | [], _ :: _, h => by simp at h

/-- A successful `try_normalize` keeps the voter and the targets, and its
weights add up to the stake when there is at least one edge. -/
theorem tryNormalize_spec {a a' : StakedAssignment A} {stake : Nat}
    (h : a.tryNormalize stake = .ok a') (hne : a.distribution ≠ []) :
    a'.who = a.who ∧ a'.distribution.map Prod.fst = a.distribution.map Prod.fst ∧
      (a'.distribution.map Prod.snd).sum = stake := by
  unfold StakedAssignment.tryNormalize at h
  split at h
  · rename_i normalized hnorm
    cases h
    obtain ⟨hlen, hsum⟩ := normalize_ok_spec hnorm
    have hne' : a.distribution.map Prod.snd ≠ [] := by simpa using hne
    refine ⟨rfl, map_fst_replaceWeights _ _, ?_⟩
    rw [map_snd_replaceWeights _ _ (by simpa using hlen)]
    exact hsum hne'
  · cases h

theorem tryNormalize_spec_two_edges :
    ((⟨1, [(2, 5), (3, 5)]⟩ : StakedAssignment Nat).distribution.map Prod.snd).sum = 10 :=
  (tryNormalize_spec
    (rfl : (⟨1, [(2, 3), (3, 4)]⟩ : StakedAssignment Nat).tryNormalize 10 = .ok ⟨1, [(2, 5), (3, 5)]⟩)
    (List.cons_ne_nil _ _)).2.2

end NposElections
