import CherryNode.ElectionMultiPhase.SignedRound

/-!
# The signed phase: `finalize_signed_phase_internal`

`pop_last` takes the queue from the best score down (`bestFirst`; it is
`iter` reversed, `iter_get`).  While the popped entries are only marked in the
deletion overlay (`PopInv`), each round of the loop takes the head of
`bestFirst` off: the loop slashes an infeasible prefix of the queue, accepts
the first feasible submission if there is one, and leaves the others
(`finalizeLoop_spec`).  `drain` then hands back exactly the submissions not
popped, each once (`finalizeSignedPhaseInternal_spec`).
-/

namespace ElectionMultiPhase

open SpArithmetic NposElections Frame

variable {A S B : Type} {st : Storage A S} {indices : OrdMap ElectionScore Nat} {score : ElectionScore}
    {idx capacity : Nat}

/-! ## The queue, best score first -/

/-- The stored submissions in the order `pop_last` takes them, best score
first, each with its index. -/
def bestFirst (st : Storage A S) (indices : OrdMap ElectionScore Nat) : List (Nat × SignedSubmission A S) :=
  indices.toList.reverse.filterMap fun e => (st.signedSubmissionsMap.get? e.2).map (e.2, ·)

theorem bestFirst_of_toList_nil
    (h : indices.toList = []) : bestFirst st indices = [] := by
  simp [bestFirst, h]

theorem bestFirst_of_last?
    {submission : SignedSubmission A S} (hlast : indices.last? = some (score, idx))
    (hget : st.signedSubmissionsMap.get? idx = some submission) :
    bestFirst st indices = (idx, submission) :: bestFirst st (indices.erase score) := by
  obtain ⟨ys, hys⟩ := List.getLast?_eq_some_iff.mp hlast
  have herase := OrdMap.toList_erase_of_last? hlast
  rw [hys, List.dropLast_concat] at herase
  simp [bestFirst, hys, herase, hget]

theorem mem_bestFirst {e : Nat × SignedSubmission A S}
    (h : e ∈ bestFirst st indices) :
    st.signedSubmissionsMap.get? e.1 = some e.2 ∧ ∃ score, indices.get? score = some e.1 := by
  simp only [bestFirst, List.mem_filterMap, List.mem_reverse, Option.map_eq_some_iff] at h
  obtain ⟨⟨score, idx⟩, hmem, submission, hget, rfl⟩ := h
  exact ⟨hget, score, OrdMap.get?_of_mem_toList hmem⟩

theorem bestFirst_nodup
    (hinj : ∀ score score' idx, indices.get? score = some idx → indices.get? score' = some idx → score = score') :
    ((bestFirst st indices).map Prod.fst).Nodup := by
  have hvals : (indices.toList.reverse.map Prod.snd).Nodup := by
    rw [List.map_reverse, List.nodup_reverse]
    exact indices.values_nodup hinj
  rw [List.Nodup, List.pairwise_map] at hvals ⊢
  apply List.Pairwise.filterMap _ _ hvals
  intro a a' hne b hb b' hb'
  simp only [Option.map_eq_some_iff] at hb hb'
  obtain ⟨_, -, rfl⟩ := hb
  obtain ⟨_, -, rfl⟩ := hb'
  exact hne

theorem bestFirst_perm (hwf : QueueWF capacity st) :
    (bestFirst st st.signedSubmissionIndices).Perm st.signedSubmissionsMap.toList := by
  have hnd : ((bestFirst st st.signedSubmissionIndices).map Prod.fst).Nodup :=
    bestFirst_nodup fun _ _ _ h h' => hwf.index_injective h h'
  rw [List.perm_ext_iff_of_nodup (List.Nodup.of_map Prod.fst hnd)
    (List.Nodup.of_map Prod.fst st.signedSubmissionsMap.keys_nodup)]
  rintro ⟨idx, submission⟩
  constructor
  · intro h
    exact OrdMap.mem_toList_of_get? (mem_bestFirst h).1
  · -- a stored submission is indexed under its score
    intro h
    have hget := OrdMap.get?_of_mem_toList h
    have hidx := hwf.indexed idx submission hget
    simp only [bestFirst, List.mem_filterMap, List.mem_reverse]
    exact ⟨(submission.rawSolution.score, idx), OrdMap.mem_toList_of_get? hidx, by simp [hget]⟩

/-! ## Draining -/

theorem drain_perm (hwf : QueueWF capacity st)
    {q : SignedSubmissions A S} (popped rest : List (Nat × SignedSubmission A S))
    (hQ : bestFirst st st.signedSubmissionIndices = popped ++ rest)
    (hins : q.insertionOverlay = OrdMap.empty)
    (hdel : ∀ i, q.deletionOverlay.contains i = true ↔ i ∈ popped.map Prod.fst) :
    (q.drain st).2.Perm rest := by
  have hnd : ((popped ++ rest).map Prod.fst).Nodup := by
    rw [← hQ]
    exact bestFirst_nodup fun _ _ _ h h' => hwf.index_injective h h'
  -- the overlay test is the test of membership among the popped indices
  have hfilter : st.signedSubmissionsMap.toList.filter (fun e => !q.deletionOverlay.contains e.1) =
      st.signedSubmissionsMap.toList.filter (fun e => decide (e.1 ∉ popped.map Prod.fst)) := by
    apply List.filter_congr
    intro e _
    by_cases h : e.1 ∈ popped.map Prod.fst
    · simp [(hdel e.1).mpr h, h]
    · have : q.deletionOverlay.contains e.1 = false := by
        simpa using mt (hdel e.1).mp h
      simp [this, h]
  have hperm := ((bestFirst_perm hwf).symm.filter fun e => decide (e.1 ∉ popped.map Prod.fst))
  rw [hQ, List.filter_fst_not_mem_append hnd] at hperm
  simp only [SignedSubmissions.drain, hins, hfilter]
  simpa [OrdMap.empty] using hperm

/-- What `drain` hands back does not depend on the queued solution. -/
@[simp] theorem drain_snd_queuedSolution (q : SignedSubmissions A S) (st : Storage A S)
    (queuedSolution : Option (ReadySolution A)) :
    (q.drain { st with queuedSolution := queuedSolution }).2 = (q.drain st).2 := rfl

/-- The storage as `drain` leaves it: the three items of the queue killed. -/
def killQueue (st : Storage A S) : Storage A S :=
  { st with signedSubmissionIndices := OrdMap.empty, signedSubmissionNextIndex := 0,
            signedSubmissionsMap := OrdMap.empty }

/-! ## Popping -/

/-- The loop's queue: nothing inserted, and every index still in `indices`
stored and not yet deleted. -/
structure PopInv (st : Storage A S) (q : SignedSubmissions A S) : Prop where
  noInsertion : q.insertionOverlay = OrdMap.empty
  stored : ∀ score idx, q.indices.get? score = some idx →
    ∃ submission, st.signedSubmissionsMap.get? idx = some submission
  notDeleted : ∀ score idx, q.indices.get? score = some idx → q.deletionOverlay.contains idx = false
  injective : ∀ score score' idx, q.indices.get? score = some idx → q.indices.get? score' = some idx →
    score = score'

namespace PopInv

variable {st : Storage A S} {q : SignedSubmissions A S}

theorem get (hwf : QueueWF capacity st) : PopInv st (SignedSubmissions.get st) where
  noInsertion := rfl
  stored score idx h := (hwf.stored score idx h).imp fun _ h => h.1
  notDeleted _ _ _ := rfl
  injective _ _ _ h h' := hwf.index_injective h h'

theorem popLast (h : PopInv st q)
    (hlast : q.indices.last? = some (score, idx)) :
    ∃ submission, st.signedSubmissionsMap.get? idx = some submission ∧
      q.popLast st = ({ q with indices := q.indices.erase score,
                               deletionOverlay := q.deletionOverlay.insert idx () }, some submission) := by
  have hget := OrdMap.get?_of_last? hlast
  obtain ⟨submission, hsub⟩ := h.stored score idx hget
  refine ⟨submission, hsub, ?_⟩
  simp [SignedSubmissions.popLast, SignedSubmissions.swapOutSubmission, hlast, hget, h.noInsertion,
    h.notDeleted score idx hget, hsub]

theorem pop (h : PopInv st q) (hget : q.indices.get? score = some idx) :
    PopInv st { q with indices := q.indices.erase score, deletionOverlay := q.deletionOverlay.insert idx () } where
  noInsertion := h.noInsertion
  stored score' idx' h' := by
    simp only [OrdMap.get?_erase] at h'
    split_ifs at h'
    exact h.stored score' idx' h'
  notDeleted score' idx' h' := by
    simp only [OrdMap.get?_erase] at h'
    split_ifs at h' with hs
    have hne : idx ≠ idx' := by
      rintro rfl
      exact hs (h.injective score score' idx hget h')
    simp [hne, h.notDeleted score' idx' h']
  injective score₁ score₂ idx' h₁ h₂ := by
    simp only [OrdMap.get?_erase] at h₁ h₂
    split_ifs at h₁ h₂
    exact h.injective score₁ score₂ idx' h₁ h₂

end PopInv

/-! ## The loop -/

/-- The ledger entry of slashing the deposit of an indexed submission. -/
def slashEntry (e : Nat × SignedSubmission A S) : LedgerEntry A := .slashed e.1 e.2.who e.2.deposit

/-- The ledger entry of unreserving the deposit of an indexed submission. -/
def unreserveEntry (e : Nat × SignedSubmission A S) : LedgerEntry A := .unreserved e.1 e.2.who e.2.deposit

/-- The ledger entry of rewarding an indexed submission. -/
def rewardEntry (e : Nat × SignedSubmission A S) : LedgerEntry A := .rewarded e.1 e.2.who e.2.reward

section Settle

variable (cur : Currency A B)

/-- Slash each of `popped`, in order. -/
def rejectAll (s : St A S B) (popped : List (Nat × SignedSubmission A S)) : St A S B :=
  popped.foldl (fun s e => rejectSolution cur s e.1 e.2.who e.2.deposit) s

@[simp] theorem rejectAll_storage (s : St A S B) (popped : List (Nat × SignedSubmission A S)) :
    (rejectAll cur s popped).storage = s.storage := by
  induction popped generalizing s with
  | nil => rfl
  | cons e popped ih => exact ih _

@[simp] theorem rejectAll_ledger (s : St A S B) (popped : List (Nat × SignedSubmission A S)) :
    (rejectAll cur s popped).ledger = s.ledger ++ popped.map slashEntry := by
  induction popped generalizing s with
  | nil => simp [rejectAll]
  | cons e popped ih =>
    simp only [rejectAll, List.foldl_cons] at ih ⊢
    rw [ih]
    simp [rejectSolution, slashEntry]

@[simp] theorem unreserveAll_storage (s : St A S B) (drained : List (Nat × SignedSubmission A S)) :
    (unreserveAll cur s drained).storage = s.storage := by
  induction drained generalizing s with
  | nil => rfl
  | cons e drained ih => exact ih _

@[simp] theorem unreserveAll_ledger (s : St A S B) (drained : List (Nat × SignedSubmission A S)) :
    (unreserveAll cur s drained).ledger = s.ledger ++ drained.map unreserveEntry := by
  induction drained generalizing s with
  | nil => simp [unreserveAll]
  | cons e drained ih =>
    simp only [unreserveAll] at ih ⊢
    rw [ih]
    simp [unreserveEntry]

@[simp] theorem acceptSolution_storage (s : St A S B) (readySolution : ReadySolution A) (idx : Nat) (who : A)
    (deposit reward : Nat) :
    (acceptSolution cur s readySolution idx who deposit reward).storage =
      { s.storage with queuedSolution := some readySolution } := rfl

@[simp] theorem acceptSolution_ledger (s : St A S B) (readySolution : ReadySolution A) (idx : Nat) (who : A)
    (deposit reward : Nat) :
    (acceptSolution cur s readySolution idx who deposit reward).ledger =
      s.ledger ++ [.unreserved idx who deposit, .rewarded idx who reward] := by
  simp [acceptSolution]

end Settle

section Finalize

variable [LinearOrder A] {count accuracy : Nat} (cur : Currency A B)

/-- **The loop.**  `finalizeLoop` pops and slashes an infeasible prefix `pre`
of `bestFirst`, then stops on an empty queue or accepts the next submission;
the deletion overlay gains exactly the indices popped. -/
theorem finalizeLoop_spec :
    ∀ (fuel : Nat) (q : SignedSubmissions A (Solution count accuracy)) (s : St A (Solution count accuracy) B),
      PopInv s.storage q → q.indices.size ≤ fuel →
      ∃ pre post, bestFirst s.storage q.indices = pre ++ post ∧
        (∀ e ∈ pre, ∃ err, feasibilityCheck s.storage e.2.rawSolution .signed = .error err) ∧
        (finalizeLoop cur fuel q s).1.insertionOverlay = OrdMap.empty ∧
        (∀ i, (finalizeLoop cur fuel q s).1.deletionOverlay.contains i = true ↔
          q.deletionOverlay.contains i = true ∨ i ∈ (pre ++ post.take 1).map Prod.fst) ∧
        ((post = [] ∧ (finalizeLoop cur fuel q s).2 = (rejectAll cur s pre, false)) ∨
          ∃ e rest ready, post = e :: rest ∧
            feasibilityCheck s.storage e.2.rawSolution .signed = .ok ready ∧
            (finalizeLoop cur fuel q s).2 =
              (acceptSolution cur (rejectAll cur s pre) ready e.1 e.2.who e.2.deposit e.2.reward, true))
  | 0, q, s, hinv, hfuel => by
    have hnil : q.indices.toList = [] := List.eq_nil_of_length_eq_zero (by simpa [OrdMap.size] using hfuel)
    exact ⟨[], [], by simp [bestFirst_of_toList_nil hnil], by simp, hinv.noInsertion, by simp [finalizeLoop],
      .inl ⟨rfl, rfl⟩⟩
  | fuel + 1, q, s, hinv, hfuel => by
    rcases hlast : q.indices.last? with _ | ⟨score, idx⟩
    · -- an empty queue ends the loop
      have hnil := (OrdMap.last?_eq_none_iff _).mp hlast
      have hpop : q.popLast s.storage = (q, none) := by simp [SignedSubmissions.popLast, hlast]
      exact ⟨[], [], by simp [bestFirst_of_toList_nil hnil], by simp,
        by simp [finalizeLoop, hpop, hinv.noInsertion], by simp [finalizeLoop, hpop],
        .inl ⟨rfl, by simp [finalizeLoop, hpop, rejectAll]⟩⟩
    · obtain ⟨submission, hsub, hpop⟩ := hinv.popLast hlast
      have hget := OrdMap.get?_of_last? hlast
      have hQ : bestFirst s.storage q.indices = (idx, submission) :: bestFirst s.storage (q.indices.erase score) :=
        bestFirst_of_last? hlast hsub
      rcases hcheck : feasibilityCheck s.storage submission.rawSolution .signed with err | ready
      · -- infeasible: slashed, and the loop goes on with the rest of the queue
        have hloop : finalizeLoop cur (fuel + 1) q s =
            finalizeLoop cur fuel
              { q with indices := q.indices.erase score, deletionOverlay := q.deletionOverlay.insert idx () }
              (rejectSolution cur s idx submission.who submission.deposit) := by
          simp only [finalizeLoop, hlast, hpop, hcheck, Option.map_some, Option.getD_some]
        have hsize : (q.indices.erase score).size ≤ fuel := by
          have := OrdMap.size_erase_of_contains (m := q.indices) (k := score) (by simp [OrdMap.contains, hget])
          omega
        obtain ⟨pre, post, hQ', hpre, hins, hdel, hout⟩ :=
          finalizeLoop_spec fuel _ (rejectSolution cur s idx submission.who submission.deposit)
            (hinv.pop hget) hsize
        refine ⟨(idx, submission) :: pre, post, ?_, ?_, ?_, ?_, ?_⟩
        · rw [hQ]
          exact congrArg _ hQ'
        · intro e he
          rcases List.mem_cons.mp he with rfl | he
          · exact ⟨err, hcheck⟩
          · exact hpre e he
        · rw [hloop]
          exact hins
        · intro i
          rw [hloop, hdel i]
          by_cases hi : i = idx
          · subst hi
            simp
          · simp [hi, Ne.symm hi]
        · rw [hloop]
          exact hout
      · -- feasible: accepted, and the loop stops
        have hloop : finalizeLoop cur (fuel + 1) q s =
            ({ q with indices := q.indices.erase score, deletionOverlay := q.deletionOverlay.insert idx () },
              acceptSolution cur s ready idx submission.who submission.deposit submission.reward, true) := by
          simp only [finalizeLoop, hlast, hpop, hcheck, Option.map_some, Option.getD_some]
        refine ⟨[], (idx, submission) :: bestFirst s.storage (q.indices.erase score), hQ, by simp, ?_, ?_, ?_⟩
        · rw [hloop]
          exact hinv.noInsertion
        · intro i
          rw [hloop]
          by_cases hi : i = idx
          · subst hi
            simp
          · simp [hi, Ne.symm hi]
        · exact .inr ⟨_, _, ready, rfl, hcheck, by rw [hloop]; rfl⟩

/-- **`finalize_signed_phase_internal`** slashes an infeasible best-first
prefix, accepts and rewards the feasible submission after it, unreserves the
rest once each, and kills the queue. -/
theorem finalizeSignedPhaseInternal_spec (s : St A (Solution count accuracy) B)
    (hwf : QueueWF capacity s.storage) :
    ∃ pre post, bestFirst s.storage s.storage.signedSubmissionIndices = pre ++ post ∧
      (∀ e ∈ pre, ∃ err, feasibilityCheck s.storage e.2.rawSolution .signed = .error err) ∧
      ((post = [] ∧ (finalizeSignedPhaseInternal cur s).2 = false ∧
          (finalizeSignedPhaseInternal cur s).1.storage = killQueue s.storage ∧
          (finalizeSignedPhaseInternal cur s).1.ledger = s.ledger ++ pre.map slashEntry) ∨
        ∃ e rest ready, post = e :: rest ∧
          feasibilityCheck s.storage e.2.rawSolution .signed = .ok ready ∧
          (finalizeSignedPhaseInternal cur s).2 = true ∧
          (finalizeSignedPhaseInternal cur s).1.storage =
            killQueue { s.storage with queuedSolution := some ready } ∧
          ∃ drained : List (Nat × SignedSubmission A (Solution count accuracy)), drained.Perm rest ∧
            (finalizeSignedPhaseInternal cur s).1.ledger =
              s.ledger ++ pre.map slashEntry ++ [unreserveEntry e, rewardEntry e] ++
                drained.map unreserveEntry) := by
  let q := SignedSubmissions.get s.storage
  obtain ⟨pre, post, hQ, hpre, hins, hdel, hout⟩ :=
    finalizeLoop_spec cur q.indices.size q s (PopInv.get hwf) le_rfl
  let r := finalizeLoop cur q.indices.size q s
  have hfin : finalizeSignedPhaseInternal cur s =
      (unreserveAll cur { r.2.1 with storage := killQueue r.2.1.storage } (r.1.drain r.2.1.storage).2,
        r.2.2) := rfl
  -- the loop started from an empty deletion overlay
  have hdel' : ∀ i, r.1.deletionOverlay.contains i = true ↔ i ∈ (pre ++ post.take 1).map Prod.fst := by
    intro i
    rw [hdel i]
    simp [q, SignedSubmissions.get]
  have hQ' : bestFirst s.storage s.storage.signedSubmissionIndices = (pre ++ post.take 1) ++ post.drop 1 := by
    rw [List.append_assoc, List.take_append_drop]
    exact hQ
  refine ⟨pre, post, hQ, hpre, ?_⟩
  rcases hout with ⟨rfl, hr⟩ | ⟨e, rest, ready, rfl, hcheck, hr⟩
  · -- every submission was popped and slashed: nothing is left to drain
    have hperm := drain_perm hwf _ _ hQ' hins hdel' (q := r.1)
    rw [show r.2 = (rejectAll cur s pre, false) from hr] at hfin
    simp only [List.drop_nil, List.perm_nil] at hperm
    refine .inl ⟨rfl, by rw [hfin], by rw [hfin]; simp [killQueue], ?_⟩
    rw [hfin]
    simp only [unreserveAll_ledger, rejectAll_ledger, rejectAll_storage]
    rw [hperm]
    simp
  · have hr' : r.2 = (acceptSolution cur (rejectAll cur s pre) ready e.1 e.2.who e.2.deposit e.2.reward, true) :=
      hr
    have hperm := drain_perm hwf _ _ hQ' hins hdel' (q := r.1)
    rw [hr'] at hfin
    refine .inr ⟨e, rest, ready, rfl, hcheck, by rw [hfin], by rw [hfin]; simp [killQueue],
      (r.1.drain s.storage).2, by simpa using hperm, ?_⟩
    rw [hfin]
    simp [unreserveEntry, rewardEntry]

end Finalize

end ElectionMultiPhase
