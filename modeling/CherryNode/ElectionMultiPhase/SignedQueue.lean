import CherryNode.ElectionMultiPhase.Signed

/-!
# The signed queue: what `submit` writes

`QueueWF` is the invariant of the three storage items of the signed queue:
`SignedSubmissionIndices` names each stored submission once, under its own
score, below `SignedSubmissionNextIndex`, and holds at most
`SignedMaxSubmissions` entries.  From a state where it holds, a `submit`
either changes nothing at all, or stores the new submission under the next
index, or does that and ejects the weakest entry (`submit_cases`); each of the
two writes keeps the invariant (`QueueWF.storeInserted`,
`QueueWF.storeEjecting`).
-/

namespace ElectionMultiPhase

open SpArithmetic NposElections Frame

variable {A S B : Type} {submission : SignedSubmission A S} {weakScore : ElectionScore} {weakIdx : Nat}

/-- The invariant of the signed queue in storage. -/
structure QueueWF (capacity : Nat) (st : Storage A S) : Prop where
  /-- Every indexed submission is stored, under its own score. -/
  stored : ∀ score idx, st.signedSubmissionIndices.get? score = some idx →
    ∃ submission, st.signedSubmissionsMap.get? idx = some submission ∧
      submission.rawSolution.score = score
  /-- Every stored submission is indexed by its score. -/
  indexed : ∀ idx submission, st.signedSubmissionsMap.get? idx = some submission →
    st.signedSubmissionIndices.get? submission.rawSolution.score = some idx
  lt_next : ∀ score idx, st.signedSubmissionIndices.get? score = some idx →
    idx < st.signedSubmissionNextIndex
  size_le : st.signedSubmissionIndices.size ≤ capacity

/-- The storage after a submission is stored under `idx` with no ejection. -/
def storeInserted (st : Storage A S) (idx : Nat) (submission : SignedSubmission A S) : Storage A S :=
  { st with
    signedSubmissionIndices := st.signedSubmissionIndices.insert submission.rawSolution.score idx
    signedSubmissionNextIndex := u32Succ idx
    signedSubmissionsMap := st.signedSubmissionsMap.insert idx submission }

/-- The storage after a submission is stored under `idx`, ejecting the entry
`weakIdx` of score `weakScore`. -/
def storeEjecting (st : Storage A S) (weakScore : ElectionScore) (weakIdx idx : Nat)
    (submission : SignedSubmission A S) : Storage A S :=
  { st with
    signedSubmissionIndices :=
      (st.signedSubmissionIndices.erase weakScore).insert submission.rawSolution.score idx
    signedSubmissionNextIndex := u32Succ idx
    signedSubmissionsMap := (st.signedSubmissionsMap.erase weakIdx).insert idx submission }

/-! ## The two writes keep the invariant -/

namespace QueueWF

variable {capacity : Nat} {st : Storage A S}

variable {idx : Nat}

theorem map_lt_next (hwf : QueueWF capacity st)
    (h : st.signedSubmissionsMap.get? idx = some submission) : idx < st.signedSubmissionNextIndex :=
  hwf.lt_next _ idx (hwf.indexed idx submission h)

theorem index_injective (hwf : QueueWF capacity st) {score score' : ElectionScore}
    (h : st.signedSubmissionIndices.get? score = some idx)
    (h' : st.signedSubmissionIndices.get? score' = some idx) : score = score' := by
  obtain ⟨submission, hs, rfl⟩ := hwf.stored score idx h
  obtain ⟨submission', hs', rfl⟩ := hwf.stored score' idx h'
  rw [hs] at hs'
  cases hs'
  rfl

theorem storeInserted (hwf : QueueWF capacity st)
    (hnew : st.signedSubmissionIndices.contains submission.rawSolution.score = false)
    (hlt : st.signedSubmissionIndices.size < capacity)
    (hroom : st.signedSubmissionNextIndex + 1 < 2 ^ 32) :
    QueueWF capacity (ElectionMultiPhase.storeInserted st st.signedSubmissionNextIndex submission) := by
  have hnone : st.signedSubmissionIndices.get? submission.rawSolution.score = none := by
    simpa [OrdMap.contains] using hnew
  have hsucc : u32Succ st.signedSubmissionNextIndex = st.signedSubmissionNextIndex + 1 :=
    Nat.mod_eq_of_lt hroom
  constructor
  case stored =>
    intro score idx h
    simp only [ElectionMultiPhase.storeInserted, OrdMap.get?_insert] at h ⊢
    split_ifs at h with hs
    · cases h
      exact ⟨submission, by simp, hs⟩
    · obtain ⟨old, hold, hscore⟩ := hwf.stored score idx h
      have hne : st.signedSubmissionNextIndex ≠ idx := Nat.ne_of_gt (hwf.lt_next score idx h)
      exact ⟨old, by simp [hne, hold], hscore⟩
  case indexed =>
    intro idx old h
    simp only [ElectionMultiPhase.storeInserted, OrdMap.get?_insert] at h ⊢
    split_ifs at h with hi
    · cases h
      simp [hi]
    · have hidx := hwf.indexed idx old h
      -- the old score is indexed, the new one is not: they differ
      have hne : submission.rawSolution.score ≠ old.rawSolution.score := by
        rintro heq
        rw [← heq, hnone] at hidx
        cases hidx
      simp [hne, hidx]
  case lt_next =>
    intro score idx h
    simp only [ElectionMultiPhase.storeInserted, OrdMap.get?_insert, hsucc] at h ⊢
    split_ifs at h
    · cases h
      omega
    · have := hwf.lt_next score idx h
      omega
  case size_le =>
    simp only [ElectionMultiPhase.storeInserted]
    rw [OrdMap.size_insert_of_not_contains hnew]
    omega

theorem storeEjecting (hwf : QueueWF capacity st)
    (hnew : st.signedSubmissionIndices.contains submission.rawSolution.score = false)
    (hfirst : st.signedSubmissionIndices.first? = some (weakScore, weakIdx))
    (hroom : st.signedSubmissionNextIndex + 1 < 2 ^ 32) :
    QueueWF capacity
      (ElectionMultiPhase.storeEjecting st weakScore weakIdx st.signedSubmissionNextIndex submission) := by
  have hnone : st.signedSubmissionIndices.get? submission.rawSolution.score = none := by
    simpa [OrdMap.contains] using hnew
  have hweakGet := OrdMap.get?_of_first? hfirst
  obtain ⟨weak, hweak, hweakScore⟩ := hwf.stored weakScore weakIdx hweakGet
  have hsucc : u32Succ st.signedSubmissionNextIndex = st.signedSubmissionNextIndex + 1 :=
    Nat.mod_eq_of_lt hroom
  constructor
  case stored =>
    intro score idx h
    simp only [ElectionMultiPhase.storeEjecting, OrdMap.get?_insert, OrdMap.get?_erase] at h ⊢
    split_ifs at h with hs hw
    · cases h
      exact ⟨submission, by simp, hs⟩
    · obtain ⟨old, hold, hscore⟩ := hwf.stored score idx h
      have hne : st.signedSubmissionNextIndex ≠ idx := Nat.ne_of_gt (hwf.lt_next score idx h)
      -- the weakest entry's index belongs to the weakest score only
      have hwi : weakIdx ≠ idx := by
        rintro rfl
        exact hw (hwf.index_injective hweakGet h)
      exact ⟨old, by simp [hne, hwi, hold], hscore⟩
  case indexed =>
    intro idx old h
    simp only [ElectionMultiPhase.storeEjecting, OrdMap.get?_insert, OrdMap.get?_erase] at h ⊢
    split_ifs at h with hi hwi
    · cases h
      simp [hi]
    · have hidx := hwf.indexed idx old h
      have hne : submission.rawSolution.score ≠ old.rawSolution.score := by
        rintro heq
        rw [← heq, hnone] at hidx
        cases hidx
      have hnw : weakScore ≠ old.rawSolution.score := by
        rintro heq
        rw [← heq] at hidx
        exact hwi (Option.some.inj (hweakGet.symm.trans hidx))
      simp [hne, hnw, hidx]
  case lt_next =>
    intro score idx h
    simp only [ElectionMultiPhase.storeEjecting, OrdMap.get?_insert, OrdMap.get?_erase, hsucc] at h ⊢
    split_ifs at h
    · cases h
      omega
    · have := hwf.lt_next score idx h
      omega
  case size_le =>
    have hcont : st.signedSubmissionIndices.contains weakScore = true := by
      simp [OrdMap.contains, hweakGet]
    have hnew' : (st.signedSubmissionIndices.erase weakScore).contains submission.rawSolution.score =
        false := by
      simp [hnew]
    simp only [ElectionMultiPhase.storeEjecting]
    rw [OrdMap.size_insert_of_not_contains hnew']
    have := OrdMap.size_erase_of_contains hcont
    have := hwf.size_le
    omega

end QueueWF

/-! ## `insert` and `put` on a queue fresh from storage -/

section Insert

variable (st : Storage A S) (capacity : Nat) (threshold : Perbill) (submission : SignedSubmission A S)

theorem insert_get_of_lt (hnew : st.signedSubmissionIndices.contains submission.rawSolution.score = false)
    (hlt : st.signedSubmissionIndices.size < capacity) :
    (SignedSubmissions.get st).insert st capacity threshold submission =
      (⟨st.signedSubmissionIndices.insert submission.rawSolution.score st.signedSubmissionNextIndex,
        u32Succ st.signedSubmissionNextIndex, OrdMap.empty.insert st.signedSubmissionNextIndex submission,
        OrdMap.empty⟩, .inserted) := by
  have hnone : st.signedSubmissionIndices.get? submission.rawSolution.score = none := by
    simpa [OrdMap.contains] using hnew
  simp [SignedSubmissions.insert, SignedSubmissions.get, SignedSubmissions.finishInsert, hlt, hnone]

theorem insert_get_of_full (hnew : st.signedSubmissionIndices.contains submission.rawSolution.score = false)
    (hfull : ¬ st.signedSubmissionIndices.size < capacity)
    (hfirst : st.signedSubmissionIndices.first? = some (weakScore, weakIdx))
    (hbetter : isScoreBetter submission.rawSolution.score weakScore threshold = true)
    {weak : SignedSubmission A S} (hweak : st.signedSubmissionsMap.get? weakIdx = some weak) :
    (SignedSubmissions.get st).insert st capacity threshold submission =
      (⟨(st.signedSubmissionIndices.erase weakScore).insert submission.rawSolution.score
          st.signedSubmissionNextIndex,
        u32Succ st.signedSubmissionNextIndex, OrdMap.empty.insert st.signedSubmissionNextIndex submission,
        OrdMap.empty.insert weakIdx ()⟩, .insertedEjecting weak) := by
  have hget := OrdMap.get?_of_first? hfirst
  simp [SignedSubmissions.insert, SignedSubmissions.get, SignedSubmissions.finishInsert,
    SignedSubmissions.swapOutSubmission, hnew, hfull, hfirst, hbetter, hget, hweak]

theorem insert_get_notInserted
    (h : st.signedSubmissionIndices.contains submission.rawSolution.score = true ∨
      (¬ st.signedSubmissionIndices.size < capacity ∧
        ∀ weakScore weakIdx, st.signedSubmissionIndices.first? = some (weakScore, weakIdx) →
          isScoreBetter submission.rawSolution.score weakScore threshold = false)) :
    ((SignedSubmissions.get st).insert st capacity threshold submission).2 = .notInserted := by
  by_cases hold : st.signedSubmissionIndices.contains submission.rawSolution.score = true
  · obtain ⟨prevIdx, hprev⟩ := (OrdMap.contains_iff_exists _ _).mp hold
    simp [SignedSubmissions.insert, SignedSubmissions.get, hold, hprev]
  · have hnew : st.signedSubmissionIndices.contains submission.rawSolution.score = false := by
      simpa using hold
    obtain ⟨hfull, hworse⟩ := h.resolve_left hold
    rcases hfirst : st.signedSubmissionIndices.first? with _ | ⟨weakScore, weakIdx⟩
    · simp [SignedSubmissions.insert, SignedSubmissions.get, hfull, hnew, hfirst]
    · simp [SignedSubmissions.insert, SignedSubmissions.get, hfull, hnew, hfirst,
        hworse weakScore weakIdx hfirst]

theorem put_inserted :
    (⟨st.signedSubmissionIndices.insert submission.rawSolution.score st.signedSubmissionNextIndex,
        u32Succ st.signedSubmissionNextIndex, OrdMap.empty.insert st.signedSubmissionNextIndex submission,
        OrdMap.empty⟩ : SignedSubmissions A S).put st =
      storeInserted st st.signedSubmissionNextIndex submission := by
  simp [SignedSubmissions.put, storeInserted, OrdMap.keys, OrdMap.empty, OrdMap.insert, OrdMap.insertList]

theorem put_ejecting
    (hne : weakIdx ≠ st.signedSubmissionNextIndex) :
    (⟨(st.signedSubmissionIndices.erase weakScore).insert submission.rawSolution.score
          st.signedSubmissionNextIndex,
        u32Succ st.signedSubmissionNextIndex, OrdMap.empty.insert st.signedSubmissionNextIndex submission,
        OrdMap.empty.insert weakIdx ()⟩ : SignedSubmissions A S).put st =
      storeEjecting st weakScore weakIdx st.signedSubmissionNextIndex submission := by
  simp [SignedSubmissions.put, storeEjecting, OrdMap.keys, OrdMap.empty, OrdMap.insert,
    OrdMap.insertList, OrdMap.erase, Ne.symm hne]

theorem insert_get_cases (hwf : QueueWF capacity st) :
    ((SignedSubmissions.get st).insert st capacity threshold submission).2 = .notInserted ∨
    (st.signedSubmissionIndices.contains submission.rawSolution.score = false ∧
      st.signedSubmissionIndices.size < capacity ∧
      (SignedSubmissions.get st).insert st capacity threshold submission =
        (⟨st.signedSubmissionIndices.insert submission.rawSolution.score st.signedSubmissionNextIndex,
          u32Succ st.signedSubmissionNextIndex, OrdMap.empty.insert st.signedSubmissionNextIndex submission,
          OrdMap.empty⟩, .inserted)) ∨
    ∃ weakScore weakIdx weak,
      st.signedSubmissionIndices.contains submission.rawSolution.score = false ∧
      ¬ st.signedSubmissionIndices.size < capacity ∧
      st.signedSubmissionIndices.first? = some (weakScore, weakIdx) ∧
      st.signedSubmissionsMap.get? weakIdx = some weak ∧
      (SignedSubmissions.get st).insert st capacity threshold submission =
        (⟨(st.signedSubmissionIndices.erase weakScore).insert submission.rawSolution.score
            st.signedSubmissionNextIndex,
          u32Succ st.signedSubmissionNextIndex, OrdMap.empty.insert st.signedSubmissionNextIndex submission,
          OrdMap.empty.insert weakIdx ()⟩, .insertedEjecting weak) := by
  by_cases hnew : st.signedSubmissionIndices.contains submission.rawSolution.score = false
  case neg =>
    exact .inl (insert_get_notInserted st capacity threshold submission (.inl (by simpa using hnew)))
  by_cases hlt : st.signedSubmissionIndices.size < capacity
  case pos => exact .inr (.inl ⟨hnew, hlt, insert_get_of_lt st capacity threshold submission hnew hlt⟩)
  -- at capacity: the weakest entry decides
  rcases hfirst : st.signedSubmissionIndices.first? with _ | ⟨weakScore, weakIdx⟩
  · exact .inl (insert_get_notInserted st capacity threshold submission (.inr ⟨hlt, by simp [hfirst]⟩))
  by_cases hbetter : isScoreBetter submission.rawSolution.score weakScore threshold = true
  · obtain ⟨weak, hweak, -⟩ := hwf.stored weakScore weakIdx (OrdMap.get?_of_first? hfirst)
    exact .inr (.inr ⟨weakScore, weakIdx, weak, hnew, hlt, rfl, hweak,
      insert_get_of_full st capacity threshold submission hnew hlt hfirst hbetter hweak⟩)
  · refine .inl (insert_get_notInserted st capacity threshold submission (.inr ⟨hlt, ?_⟩))
    intro weakScore' weakIdx' h
    rw [hfirst, Option.some.injEq, Prod.mk.injEq] at h
    obtain ⟨rfl, rfl⟩ := h
    simpa using hbetter

end Insert

/-! ## What `submit` can do -/

section Submit

variable (cfg : SignedConfig S) (cur : Currency A B)

/-- The submission `submit` builds for `who`. -/
def SignedConfig.submissionOf (who : A) (rawSolution : RawSolution S) (size : SolutionOrSnapshotSize) :
    SignedSubmission A S :=
  ⟨who, cfg.depositFor rawSolution size, rawSolution, cfg.reward rawSolution⟩

@[simp] theorem SignedConfig.submissionOf_who (who : A) (rawSolution : RawSolution S)
    (size : SolutionOrSnapshotSize) : (cfg.submissionOf who rawSolution size).who = who := rfl

@[simp] theorem SignedConfig.submissionOf_deposit (who : A) (rawSolution : RawSolution S)
    (size : SolutionOrSnapshotSize) :
    (cfg.submissionOf who rawSolution size).deposit = cfg.depositFor rawSolution size := rfl

theorem submit_error (s : St A S B) (o : Origin A) (rawSolution : RawSolution S) (num : Nat)
    {e : DispatchError Error} (h : callResult (submit cfg cur o rawSolution num) s = .error e) :
    applyCall (submit cfg cur o rawSolution num) s = s := by
  cases o with
  | root => rfl
  | none => rfl
  | signed who =>
    simp only [callResult, applyCall, submit] at h ⊢
    simp only [bind_apply, ensureSigned_signed, get_apply, ensure_apply] at h ⊢
    split_ifs at h ⊢ <;> try rfl
    rcases hmeta : s.storage.snapshotMetadata with _ | size
    · simp
    · simp only [hmeta, okOr_some] at h ⊢
      split_ifs at h ⊢ <;> try rfl
      -- past the checks, only `NotInserted` and the reserve can fail, before any write
      rcases hres : ((SignedSubmissions.get s.storage).insert s.storage cfg.signedMaxSubmissions
          cfg.solutionImprovementThreshold ⟨who, cfg.depositFor rawSolution size, rawSolution,
            cfg.reward rawSolution⟩).2 with
        _ | _ | weakest
      · simp
      · rcases hr : cur.reserve who (cfg.depositFor rawSolution size) s.balances with _ | b
        · simp [reserveDeposit, hr]
        · simp [hres, reserveDeposit, hr] at h
      · rcases hr : cur.reserve who (cfg.depositFor rawSolution size) s.balances with _ | b
        · simp [reserveDeposit, hr]
        · simp [hres, reserveDeposit, unreserveDeposit, hr] at h

/-- **What `submit` can do**: leave the state, or reserve the deposit and
store the submission under the next index, at capacity also ejecting the
weakest entry and unreserving its deposit. -/
theorem submit_cases (s : St A S B) (hwf : QueueWF cfg.signedMaxSubmissions s.storage)
    (o : Origin A) (rawSolution : RawSolution S) (num : Nat) :
    applyCall (submit cfg cur o rawSolution num) s = s ∨
    ∃ who size b, s.storage.snapshotMetadata = some size ∧
      s.storage.signedSubmissionIndices.contains rawSolution.score = false ∧
      cur.reserve who (cfg.depositFor rawSolution size) s.balances = some b ∧
      ((s.storage.signedSubmissionIndices.size < cfg.signedMaxSubmissions ∧
        applyCall (submit cfg cur o rawSolution num) s =
          ⟨storeInserted s.storage s.storage.signedSubmissionNextIndex
              (cfg.submissionOf who rawSolution size), b,
            s.ledger ++ [.reserved s.storage.signedSubmissionNextIndex who
              (cfg.depositFor rawSolution size)]⟩) ∨
       ∃ weakScore weakIdx weak,
        s.storage.signedSubmissionIndices.first? = some (weakScore, weakIdx) ∧
        s.storage.signedSubmissionsMap.get? weakIdx = some weak ∧
        ¬ s.storage.signedSubmissionIndices.size < cfg.signedMaxSubmissions ∧
        applyCall (submit cfg cur o rawSolution num) s =
          ⟨storeEjecting s.storage weakScore weakIdx s.storage.signedSubmissionNextIndex
              (cfg.submissionOf who rawSolution size), (cur.unreserve weak.who weak.deposit b).1,
            s.ledger ++ [.reserved s.storage.signedSubmissionNextIndex who
              (cfg.depositFor rawSolution size), .unreserved weakIdx weak.who weak.deposit]⟩) := by
  cases o with
  | root => exact .inl rfl
  | none => exact .inl rfl
  | signed who =>
    simp only [applyCall, submit, bind_apply, ensureSigned_signed, get_apply, ensure_apply,
      SignedConfig.submissionOf]
    -- the checks before the insert write nothing
    split_ifs with hwit hphase <;> try exact .inl rfl
    rcases hmeta : s.storage.snapshotMetadata with _ | size
    · simp
    simp only [okOr_some]
    split_ifs with hweight
    case neg => exact .inl rfl
    rcases insert_get_cases s.storage cfg.signedMaxSubmissions cfg.solutionImprovementThreshold
        ⟨who, cfg.depositFor rawSolution size, rawSolution, cfg.reward rawSolution⟩ hwf with
      hres | ⟨hnew, hlt, hins⟩ | ⟨weakScore, weakIdx, weak, hnew, hfull, hfirst, hweak, hins⟩
    · -- `NotInserted` throws before the reserve
      rw [hres]
      exact .inl rfl
    · rw [hins]
      rcases hr : cur.reserve who (cfg.depositFor rawSolution size) s.balances with _ | b
      · simp [reserveDeposit, hr]
      · refine .inr ⟨who, size, b, rfl, hnew, hr, .inl ⟨hlt, ?_⟩⟩
        simp [reserveDeposit, hr]
        exact ⟨put_inserted s.storage ⟨who, cfg.depositFor rawSolution size, rawSolution,
          cfg.reward rawSolution⟩, rfl⟩
    · -- the ejected entry's index is below the next one
      have hne : weakIdx ≠ s.storage.signedSubmissionNextIndex :=
        Nat.ne_of_lt (hwf.lt_next weakScore weakIdx (OrdMap.get?_of_first? hfirst))
      rw [hins]
      rcases hr : cur.reserve who (cfg.depositFor rawSolution size) s.balances with _ | b
      · simp [reserveDeposit, hr]
      · refine .inr ⟨who, size, b, rfl, hnew, hr, .inr ⟨weakScore, weakIdx, weak, hfirst, hweak, hfull, ?_⟩⟩
        simp [reserveDeposit, unreserveDeposit, hr]
        exact ⟨put_ejecting s.storage ⟨who, cfg.depositFor rawSolution size, rawSolution,
          cfg.reward rawSolution⟩ hne, rfl, by simp [SignedSubmissions.get, hfirst]⟩

end Submit

end ElectionMultiPhase
