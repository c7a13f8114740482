import CherryNode.ElectionMultiPhase.Feasibility
import CherryNode.Support.Dispatch

/-!
# election-provider-multi-phase: the signed phase

`SignedSubmissions` (`signed.rs`) is the signed queue read from storage with
the writes not yet put back: `indices` maps each score to its submission's
index, the submissions live in `SignedSubmissionsMap`, with an insertion and a
deletion overlay in memory.  `Pallet::submit` inserts a submission (ejecting
the weakest when full) and moves the deposits; `finalize_signed_phase_internal`
pops from the best score down until a submission is feasible, slashes the
infeasible ones, rewards the accepted one and unreserves the rest.

The deposit goes through `T::Currency`, here a record of its four operations
over an abstract balances state; what the queue hands to it is also written to
a proof-only `ledger` tagged with the submission's index.  The deposit, reward
and weight functions are parameters (`SignedConfig`).  Events are left out.
-/

namespace ElectionMultiPhase

open SpArithmetic NposElections Frame

/-- The parts of `T::Currency` the signed phase uses, over a balances state
`B`; the imbalances go to `RewardHandler` and `SlashHandler`. -/
structure Currency (A B : Type) where
  reserve : A → Nat → B → Option B
  unreserve : A → Nat → B → B × Nat
  slashReserved : A → Nat → B → B × Nat
  depositCreating : A → Nat → B → B

/-- What the signed phase asked of the currency, and for which submission
index (proof-only). -/
inductive LedgerEntry (A : Type)
  | reserved (idx : Nat) (who : A) (amount : Nat)
  | unreserved (idx : Nat) (who : A) (amount : Nat)
  | slashed (idx : Nat) (who : A) (amount : Nat)
  | rewarded (idx : Nat) (who : A) (amount : Nat)
  deriving DecidableEq, Repr

/-- The configuration and the external functions `submit` reads. -/
structure SignedConfig (S : Type) where
  signedMaxSubmissions : Nat
  solutionImprovementThreshold : Perbill
  signedMaxWeight : Nat
  /-- `feasibility_weight_of(raw_solution, size)`. -/
  feasibilityWeightOf : RawSolution S → SolutionOrSnapshotSize → Nat
  /-- `deposit_for(raw_solution, size)`. -/
  depositFor : RawSolution S → SolutionOrSnapshotSize → Nat
  /-- `SignedRewardBase + estimate_call_fee(call)`. -/
  reward : RawSolution S → Nat

/-- The pallet's storage, the balances, and the proof-only ledger. -/
structure St (A S B : Type) where
  storage : Storage A S
  balances : B
  ledger : List (LedgerEntry A)

/-- `signed::InsertResult`. -/
inductive InsertResult (A S : Type)
  | notInserted
  | inserted
  | insertedEjecting (weakest : SignedSubmission A S)

/-- `SignedSubmissions<T>`. -/
structure SignedSubmissions (A S : Type) where
  indices : OrdMap ElectionScore Nat
  nextIdx : Nat
  insertionOverlay : OrdMap Nat (SignedSubmission A S)
  deletionOverlay : OrdMap Nat Unit

/-- `self.next_idx += 1` on a `u32`. -/
def u32Succ (n : Nat) : Nat := (n + 1) % 2 ^ 32

variable {A S B : Type}

namespace SignedSubmissions

/-- `SignedSubmissions::get`. -/
def get (st : Storage A S) : SignedSubmissions A S :=
  ⟨st.signedSubmissionIndices, st.signedSubmissionNextIndex, OrdMap.empty, OrdMap.empty⟩

/-- `SignedSubmissions::put`: the deleted keys leave both the insertion
overlay and the map, then the insertion overlay is written. -/
def put (q : SignedSubmissions A S) (st : Storage A S) : Storage A S :=
  let (insertionOverlay, map) := q.deletionOverlay.keys.foldl
    (fun (acc : OrdMap Nat (SignedSubmission A S) × OrdMap Nat (SignedSubmission A S)) key =>
      (acc.1.erase key, acc.2.erase key))
    (q.insertionOverlay, st.signedSubmissionsMap)
  { st with
    signedSubmissionIndices := q.indices
    signedSubmissionNextIndex := q.nextIdx
    signedSubmissionsMap := insertionOverlay.toList.foldl (fun m e => m.insert e.1 e.2) map }

/-- `swap_out_submission(remove_score, insert)`: the submission removed is
taken from the insertion overlay, or else marked deleted and read from
storage. -/
def swapOutSubmission (q : SignedSubmissions A S) (st : Storage A S) (removeScore : ElectionScore)
    (insert : Option (ElectionScore × Nat)) : SignedSubmissions A S × Option (SignedSubmission A S) :=
  match q.indices.get? removeScore with
  | none => (q, none)
  | some removeIdx =>
    let indices := q.indices.erase removeScore
    -- `try_insert(..).expect(..)`: one entry was just removed, so it fits
    let indices := match insert with
      | some (insertScore, insertIdx) => indices.insert insertScore insertIdx
      | none => indices
    match q.insertionOverlay.get? removeIdx with
    | some submission =>
      ({ q with indices := indices, insertionOverlay := q.insertionOverlay.erase removeIdx },
        some submission)
    | none =>
      if q.deletionOverlay.contains removeIdx then ({ q with indices := indices }, none)
      else
        ({ q with indices := indices, deletionOverlay := q.deletionOverlay.insert removeIdx () },
          st.signedSubmissionsMap.get? removeIdx)

/-- The end of `insert` once an entry of `indices` names `next_idx`. -/
def finishInsert (q : SignedSubmissions A S) (submission : SignedSubmission A S)
    (weakest : Option (SignedSubmission A S)) : SignedSubmissions A S × InsertResult A S :=
  ({ q with insertionOverlay := q.insertionOverlay.insert q.nextIdx submission,
            nextIdx := u32Succ q.nextIdx },
    match weakest with
    | some w => .insertedEjecting w
    | none => .inserted)

/-- `SignedSubmissions::insert`, with `try_insert` of the bounded `indices`
written out: it succeeds below capacity or on a present key. -/
def insert (q : SignedSubmissions A S) (st : Storage A S) (capacity : Nat) (threshold : Perbill)
    (submission : SignedSubmission A S) : SignedSubmissions A S × InsertResult A S :=
  let score := submission.rawSolution.score
  if q.indices.size < capacity ∨ q.indices.contains score then
    match q.indices.get? score with
    | some prevIdx =>
      -- an equal score is present: the old index is put back
      ({ q with indices := (q.indices.insert score q.nextIdx).insert score prevIdx }, .notInserted)
    | none => finishInsert { q with indices := q.indices.insert score q.nextIdx } submission none
  else
    match q.indices.first? with
    | none => (q, .notInserted)
    | some (weakestScore, _) =>
      if !isScoreBetter score weakestScore threshold then (q, .notInserted)
      else
        let (q', weakest) := q.swapOutSubmission st weakestScore (some (score, q.nextIdx))
        finishInsert q' submission weakest

/-- `pop_last`: swap out the best score. -/
def popLast (q : SignedSubmissions A S) (st : Storage A S) :
    SignedSubmissions A S × Option (SignedSubmission A S) :=
  match q.indices.last? with
  | none => (q, none)
  | some (score, _) => q.swapOutSubmission st score none

/-- `get_submission`: a deleted index has none; otherwise the insertion
overlay, then storage. -/
def getSubmission (q : SignedSubmissions A S) (st : Storage A S) (idx : Nat) :
    Option (SignedSubmission A S) :=
  if q.deletionOverlay.contains idx then none
  else (q.insertionOverlay.get? idx).or (st.signedSubmissionsMap.get? idx)

/-- `iter`: the submissions in order of increasing score. -/
def iter (q : SignedSubmissions A S) (st : Storage A S) : List (SignedSubmission A S) :=
  q.indices.toList.filterMap fun e => q.getSubmission st e.2

/-- `drain`: kill the indices and the next index, drain the map; the
submissions are those of the map not deleted, then those of the insertion
overlay, each with its index (the index is proof-only). -/
def drain (q : SignedSubmissions A S) (st : Storage A S) :
    Storage A S × List (Nat × SignedSubmission A S) :=
  ({ st with signedSubmissionIndices := OrdMap.empty, signedSubmissionNextIndex := 0,
             signedSubmissionsMap := OrdMap.empty },
    st.signedSubmissionsMap.toList.filter (fun e => !q.deletionOverlay.contains e.1) ++
      q.insertionOverlay.toList)

end SignedSubmissions

/-- The errors of `submit` (`Error<T>`). -/
inductive Error
  | preDispatchEarlySubmission
  | signedQueueFull
  | signedCannotPayDeposit
  | signedInvalidWitness
  | signedTooMuchWeight
  | missingSnapshotMetadata
  deriving DecidableEq, Repr

abbrev M (A S B : Type) := Call (St A S B) Error

section Submit

variable (cfg : SignedConfig S) (cur : Currency A B)

/-- `T::Currency::reserve(&who, deposit).map_err(|_| Error::<T>::SignedCannotPayDeposit)?`,
for the submission of index `idx`. -/
def reserveDeposit (who : A) (deposit idx : Nat) : M A S B Unit := do
  let s ← get
  match cur.reserve who deposit s.balances with
  | none => throw (.module .signedCannotPayDeposit)
  | some balances =>
    set { s with balances := balances, ledger := s.ledger ++ [LedgerEntry.reserved idx who deposit] }

/-- `T::Currency::unreserve(&who, deposit)` for the submission of index `idx`. -/
def unreserveDeposit (who : A) (deposit idx : Nat) : M A S B Unit :=
  modify fun s => { s with balances := (cur.unreserve who deposit s.balances).1,
                           ledger := s.ledger ++ [LedgerEntry.unreserved idx who deposit] }

/-- `Pallet::submit(origin, raw_solution, num_signed_submissions)`. -/
def submit (origin : Origin A) (rawSolution : RawSolution S) (numSignedSubmissions : Nat) :
    M A S B Unit := do
  let who ← ensureSigned origin
  let s ← get
  ensure (s.storage.signedSubmissionIndices.size % 2 ^ 32 ≤ numSignedSubmissions)
    .signedInvalidWitness
  ensure (s.storage.currentPhase.isSigned = true) .preDispatchEarlySubmission
  let size ← okOr s.storage.snapshotMetadata .missingSnapshotMetadata
  ensure (cfg.feasibilityWeightOf rawSolution size < cfg.signedMaxWeight) .signedTooMuchWeight
  let deposit := cfg.depositFor rawSolution size
  let submission : SignedSubmission A S :=
    ⟨who, deposit, rawSolution, cfg.reward rawSolution⟩
  let q := SignedSubmissions.get s.storage
  -- proof-only: the index the submission gets, and that of the weakest entry
  let idx := q.nextIdx
  let weakestIdx := (q.indices.first?.map (·.2)).getD 0
  let (q, result) := q.insert s.storage cfg.signedMaxSubmissions
    cfg.solutionImprovementThreshold submission
  let maybeRemoved ← match result with
    | .notInserted => throw (.module .signedQueueFull)
    | .inserted => pure none
    | .insertedEjecting weakest => pure (some weakest)
  reserveDeposit cur who deposit idx
  match maybeRemoved with
  | some removed => unreserveDeposit cur removed.who removed.deposit weakestIdx
  | none => pure ()
  modify fun s => { s with storage := q.put s.storage }

end Submit

section Finalize

variable [LinearOrder A] {count accuracy : Nat} (cur : Currency A B)

/-- `finalize_signed_phase_accept_solution`. -/
def acceptSolution (s : St A S B) (readySolution : ReadySolution A) (idx : Nat) (who : A)
    (deposit reward : Nat) : St A S B :=
  let s := { s with storage := { s.storage with queuedSolution := some readySolution } }
  let s := { s with balances := (cur.unreserve who deposit s.balances).1,
                    ledger := s.ledger ++ [LedgerEntry.unreserved idx who deposit] }
  { s with balances := cur.depositCreating who reward s.balances,
           ledger := s.ledger ++ [LedgerEntry.rewarded idx who reward] }

/-- `finalize_signed_phase_reject_solution`. -/
def rejectSolution (s : St A S B) (idx : Nat) (who : A) (deposit : Nat) : St A S B :=
  { s with balances := (cur.slashReserved who deposit s.balances).1,
           ledger := s.ledger ++ [LedgerEntry.slashed idx who deposit] }

/-- `while let Some(best) = all_submissions.pop_last()`, with `fuel` rounds:
the queue, the state and whether a solution was found. -/
def finalizeLoop :
    Nat → SignedSubmissions A (Solution count accuracy) → St A (Solution count accuracy) B →
      SignedSubmissions A (Solution count accuracy) × St A (Solution count accuracy) B × Bool
  | 0, q, s => (q, s, false)
  | fuel + 1, q, s =>
    -- proof-only: the index of the best entry
    let idx := (q.indices.last?.map (·.2)).getD 0
    match q.popLast s.storage with
    | (q', none) => (q', s, false)
    | (q', some best) =>
      match feasibilityCheck s.storage best.rawSolution .signed with
      | .ok readySolution =>
        (q', acceptSolution cur s readySolution idx best.who best.deposit best.reward, true)
      | .error _ => finalizeLoop fuel q' (rejectSolution cur s idx best.who best.deposit)

/-- Unreserve the deposit of each drained submission. -/
def unreserveAll (s : St A S B) : List (Nat × SignedSubmission A S) → St A S B
  | [] => s
  | (idx, submission) :: rest =>
    unreserveAll { s with balances := (cur.unreserve submission.who submission.deposit s.balances).1,
                          ledger := s.ledger ++ [LedgerEntry.unreserved idx submission.who submission.deposit] }
      rest

/-- `finalize_signed_phase_internal`, without the weight: the state and
whether a solution was found.  The loop gets one round per queued score. -/
def finalizeSignedPhaseInternal (s : St A (Solution count accuracy) B) :
    St A (Solution count accuracy) B × Bool :=
  let q := SignedSubmissions.get s.storage
  let (q, s, found) := finalizeLoop cur q.indices.size q s
  let (storage, drained) := q.drain s.storage
  (unreserveAll cur { s with storage := storage } drained, found)

end Finalize

end ElectionMultiPhase
