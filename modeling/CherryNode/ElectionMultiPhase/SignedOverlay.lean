import CherryNode.ElectionMultiPhase.SignedPhase

/-!
# The signed queue refines a map from score to submission

A `SignedSubmissions` value stands for a map from score to submission (`abs`):
each score of `indices` with the submission its index resolves to, through the
insertion overlay, else `SignedSubmissionsMap`, unless the deletion overlay
holds it (`getSubmission`).  Between calls storage satisfies `StoreInv`;
between `get` and `put` the queue satisfies `Overlay` against it.

Against the map, `insert` and `pop_last` are `absInsert` and `absPopLast`
(`Overlay.insert_refines`, `Overlay.popLast_refines`); `iter` lists the map in
score order (`iter_eq_abs`), `put` writes it back (`Overlay.put_storeInv`) and
`drain` hands back each submission once (`Overlay.drain_perm`).  `next_idx`
is a `u32`: from `u32::MAX` it wraps to `0` (`put_wraps_next_index`); below
that the queue refines the map on every run (`signedQueue_refines_map`).
-/

namespace ElectionMultiPhase

open SpArithmetic NposElections Frame

variable {A S : Type} {score : ElectionScore}

/-- The map from score to submission that the queue stands for. -/
def SignedSubmissions.abs (q : SignedSubmissions A S) (st : Storage A S) :
    OrdMap ElectionScore (SignedSubmission A S) :=
  q.indices.filterMap fun _ idx => q.getSubmission st idx

/-- The three storage items of the queue between calls: at most `capacity`
scores, on distinct indices below the next index, each index stored and no
other. -/
structure StoreInv (capacity : Nat) (st : Storage A S) : Prop where
  size_le : st.signedSubmissionIndices.size ≤ capacity
  injective : ∀ score score' idx, st.signedSubmissionIndices.get? score = some idx →
    st.signedSubmissionIndices.get? score' = some idx → score = score'
  lt_next : ∀ score idx, st.signedSubmissionIndices.get? score = some idx →
    idx < st.signedSubmissionNextIndex
  stored : ∀ score idx, st.signedSubmissionIndices.get? score = some idx →
    (st.signedSubmissionsMap.get? idx).isSome
  indexed : ∀ idx submission, st.signedSubmissionsMap.get? idx = some submission →
    ∃ score, st.signedSubmissionIndices.get? score = some idx

/-- The queue in memory against the storage it was read from. -/
structure Overlay (capacity : Nat) (st : Storage A S) (q : SignedSubmissions A S) : Prop where
  size_le : q.indices.size ≤ capacity
  injective : ∀ score score' idx, q.indices.get? score = some idx →
    q.indices.get? score' = some idx → score = score'
  lt_next : ∀ score idx, q.indices.get? score = some idx → idx < q.nextIdx
  /-- Exactly the indices of `indices` resolve to a submission. -/
  present : ∀ idx, (∃ score, q.indices.get? score = some idx) ↔ (q.getSubmission st idx).isSome
  stored_lt : ∀ idx submission, st.signedSubmissionsMap.get? idx = some submission → idx < q.nextIdx
  overlay_fresh : ∀ idx submission, q.insertionOverlay.get? idx = some submission →
    st.signedSubmissionsMap.get? idx = none
  deleted_stored : ∀ idx, q.deletionOverlay.contains idx = true → (st.signedSubmissionsMap.get? idx).isSome

/-! ## The submissions as a map from scores -/

/-- `insert` on the map: a present score is refused; below capacity the
submission is added; at capacity it replaces the weakest entry if its score is
better than that entry's by the threshold, and is refused otherwise. -/
def absInsert (capacity : Nat) (threshold : Perbill) (m : OrdMap ElectionScore (SignedSubmission A S))
    (submission : SignedSubmission A S) : OrdMap ElectionScore (SignedSubmission A S) × InsertResult A S :=
  let score := submission.rawSolution.score
  if m.contains score then (m, .notInserted)
  else if m.size < capacity then (m.insert score submission, .inserted)
  else
    match m.first? with
    | none => (m, .notInserted)
    | some (weakestScore, weakest) =>
      if isScoreBetter score weakestScore threshold then
        ((m.erase weakestScore).insert score submission, .insertedEjecting weakest)
      else (m, .notInserted)

/-- `pop_last` on the map: the entry of the best score goes. -/
def absPopLast (m : OrdMap ElectionScore (SignedSubmission A S)) :
    OrdMap ElectionScore (SignedSubmission A S) × Option (SignedSubmission A S) :=
  match m.last? with
  | none => (m, none)
  | some (score, best) => (m.erase score, some best)

/-! ## Resolving an index -/

namespace SignedSubmissions

variable {q : SignedSubmissions A S} {st : Storage A S}

@[simp] theorem abs_get? (q : SignedSubmissions A S) (st : Storage A S) (score : ElectionScore) :
    (q.abs st).get? score = (q.indices.get? score).bind (q.getSubmission st) := by
  simp [abs]

/-- `iter` walks the map in increasing score order, whatever the queue. -/
theorem iter_eq_abs (q : SignedSubmissions A S) (st : Storage A S) :
    q.iter st = (q.abs st).toList.map Prod.snd := by
  simp only [iter, abs, OrdMap.filterMap, List.map_filterMap]
  congr
  funext e
  cases q.getSubmission st e.2 <;> rfl

/-- A queue fresh from storage resolves through `SignedSubmissionsMap` alone. -/
@[simp] theorem getSubmission_get (st : Storage A S) (idx : Nat) :
    (get st).getSubmission st idx = st.signedSubmissionsMap.get? idx := by
  simp [getSubmission, get]

end SignedSubmissions

namespace Overlay

variable {capacity : Nat} {st : Storage A S} {q : SignedSubmissions A S}

/-- The queue read from storage satisfying `StoreInv`. -/
theorem get (h : StoreInv capacity st) : Overlay capacity st (SignedSubmissions.get st) where
  size_le := h.size_le
  injective := h.injective
  lt_next := h.lt_next
  present idx := by
    rw [SignedSubmissions.getSubmission_get]
    constructor
    · rintro ⟨score, hs⟩
      exact h.stored score idx hs
    · intro hsome
      obtain ⟨submission, hsub⟩ := Option.isSome_iff_exists.mp hsome
      exact h.indexed idx submission hsub
  stored_lt idx submission hsub := by
    obtain ⟨score, hs⟩ := h.indexed idx submission hsub
    exact h.lt_next score idx hs
  overlay_fresh idx submission hov := by simp [SignedSubmissions.get] at hov
  deleted_stored idx hdel := by simp [SignedSubmissions.get] at hdel

/-- An index of `indices` resolves. -/
theorem resolves (hq : Overlay capacity st q) {idx : Nat}
    (h : q.indices.get? score = some idx) : ∃ submission, q.getSubmission st idx = some submission :=
  Option.isSome_iff_exists.mp ((hq.present idx).mp ⟨score, h⟩)

theorem abs_contains (hq : Overlay capacity st q) (score : ElectionScore) :
    (q.abs st).contains score = q.indices.contains score := by
  rcases h : q.indices.get? score with _ | idx
  · simp [OrdMap.contains, h]
  · obtain ⟨submission, hsub⟩ := hq.resolves h
    simp [OrdMap.contains, h, hsub]

theorem abs_size (hq : Overlay capacity st q) : (q.abs st).size = q.indices.size :=
  OrdMap.size_filterMap fun _ _ h => (hq.present _).mp ⟨_, h⟩

theorem abs_first? (hq : Overlay capacity st q) :
    (q.abs st).first? = q.indices.first?.bind fun e => (q.getSubmission st e.2).map (e.1, ·) :=
  OrdMap.filterMap_toList_head? fun _ _ h => (hq.present _).mp ⟨_, h⟩

theorem abs_last? (hq : Overlay capacity st q) :
    (q.abs st).last? = q.indices.last?.bind fun e => (q.getSubmission st e.2).map (e.1, ·) :=
  OrdMap.filterMap_toList_getLast? fun _ _ h => (hq.present _).mp ⟨_, h⟩

end Overlay

/-! ## `swap_out_submission` and the end of `insert` -/

/-- What `swap_out_submission` leaves besides `indices`: the removed index no
longer resolves, every other index resolves as before, the insertion overlay
only loses entries, and only stored indices are marked deleted. -/
structure Swapped (st : Storage A S) (q q' : SignedSubmissions A S) (removeIdx : Nat) : Prop where
  nextIdx : q'.nextIdx = q.nextIdx
  getSubmission : ∀ idx, q'.getSubmission st idx = if idx = removeIdx then none else q.getSubmission st idx
  overlay : ∀ idx submission, q'.insertionOverlay.get? idx = some submission →
    q.insertionOverlay.get? idx = some submission
  deleted : ∀ idx, q'.deletionOverlay.contains idx = true → (st.signedSubmissionsMap.get? idx).isSome

namespace Overlay

variable {capacity : Nat} {st : Storage A S} {q : SignedSubmissions A S}

theorem not_deleted (hq : Overlay capacity st q) {idx : Nat}
    (h : q.indices.get? score = some idx) : q.deletionOverlay.contains idx = false := by
  obtain ⟨submission, hsub⟩ := hq.resolves h
  by_contra hdel
  simp [SignedSubmissions.getSubmission, Bool.not_eq_false _ ▸ hdel] at hsub

variable {removeIdx : Nat} {removeScore : ElectionScore}

/-- **`swap_out_submission`** of a present score: its index stops resolving and
its submission is handed back; with `insert`, the new score is indexed too. -/
theorem swapOut (hq : Overlay capacity st q)
    (hr : q.indices.get? removeScore = some removeIdx) (insert : Option (ElectionScore × Nat)) :
    ∃ q₁, Swapped st q q₁ removeIdx ∧ q₁.indices = q.indices.erase removeScore ∧
      q.swapOutSubmission st removeScore insert =
        (match insert with
          | some (insertScore, insertIdx) => { q₁ with indices := q₁.indices.insert insertScore insertIdx }
          | none => q₁, q.getSubmission st removeIdx) := by
  have hnd := hq.not_deleted hr
  unfold SignedSubmissions.swapOutSubmission
  rcases hov : q.insertionOverlay.get? removeIdx with _ | submission
  · -- the submission is in storage: the index is marked deleted
    refine ⟨{ q with
        indices := q.indices.erase removeScore
        deletionOverlay := q.deletionOverlay.insert removeIdx () },
      ⟨rfl, fun idx => ?_, fun _ _ h => h, fun idx hidx => ?_⟩, rfl, ?_⟩
    · by_cases hi : idx = removeIdx
      · simp [SignedSubmissions.getSubmission, hi]
      · simp [SignedSubmissions.getSubmission, hi, Ne.symm hi]
    · by_cases hi : idx = removeIdx
      · subst hi
        obtain ⟨w, hw⟩ := hq.resolves hr
        have hst : st.signedSubmissionsMap.get? idx = some w := by
          simpa [SignedSubmissions.getSubmission, hnd, hov] using hw
        simp [hst]
      · exact hq.deleted_stored idx (by simpa [Ne.symm hi] using hidx)
    · cases insert <;> simp [hr, hov, hnd, SignedSubmissions.getSubmission]
  · -- the submission was inserted in this queue: it leaves the overlay
    refine ⟨{ q with
        indices := q.indices.erase removeScore
        insertionOverlay := q.insertionOverlay.erase removeIdx },
      ⟨rfl, fun idx => ?_, fun idx w h => ?_, hq.deleted_stored⟩, rfl, ?_⟩
    · by_cases hi : idx = removeIdx
      · subst hi
        simp [SignedSubmissions.getSubmission, hnd, hq.overlay_fresh idx submission hov]
      · simp [SignedSubmissions.getSubmission, hi, Ne.symm hi]
    · by_cases hi : removeIdx = idx
      · simp [hi] at h
      · simpa [hi] using h
    · cases insert <;> simp [hr, hov, hnd, SignedSubmissions.getSubmission]

theorem swapped (hq : Overlay capacity st q) {q₁ : SignedSubmissions A S}
    (hr : q.indices.get? removeScore = some removeIdx) (hs : Swapped st q q₁ removeIdx)
    (hidx : q₁.indices = q.indices.erase removeScore) : Overlay capacity st q₁ where
  size_le := by
    have hc : q.indices.contains removeScore = true := (OrdMap.contains_iff_exists _ _).mpr ⟨_, hr⟩
    have := OrdMap.size_erase_of_contains hc
    have := hq.size_le
    rw [hidx]
    omega
  injective score score' idx h h' := by
    rw [hidx, OrdMap.get?_erase] at h h'
    split_ifs at h h'
    exact hq.injective score score' idx h h'
  lt_next score idx h := by
    rw [hidx, OrdMap.get?_erase] at h
    split_ifs at h
    exact hs.nextIdx ▸ hq.lt_next score idx h
  present idx := by
    rw [hs.getSubmission, hidx]
    by_cases hi : idx = removeIdx
    · -- only `removeScore` named the removed index
      subst hi
      simp only [if_true, Option.isSome_none, Bool.false_eq_true, iff_false, not_exists]
      intro score h
      rw [OrdMap.get?_erase] at h
      split_ifs at h with hsc
      exact hsc (hq.injective _ _ _ hr h)
    · rw [if_neg hi, ← hq.present]
      constructor
      · rintro ⟨score, h⟩
        rw [OrdMap.get?_erase] at h
        split_ifs at h
        exact ⟨score, h⟩
      · rintro ⟨score, h⟩
        refine ⟨score, ?_⟩
        have hsc : removeScore ≠ score := by
          rintro rfl
          rw [hr] at h
          exact hi (Option.some.inj h).symm
        rw [OrdMap.get?_erase, if_neg hsc, h]
  stored_lt idx submission h := hs.nextIdx ▸ hq.stored_lt idx submission h
  overlay_fresh idx submission h := hq.overlay_fresh idx submission (hs.overlay idx submission h)
  deleted_stored := hs.deleted

/-- The end of `insert`: a new score indexed under `next_idx`, the submission
put in the insertion overlay there, and `next_idx` incremented. -/
theorem finishInsert (hq : Overlay capacity st q)
    (hnew : q.indices.get? score = none) (hsize : q.indices.size < capacity)
    (hroom : q.nextIdx + 1 < 2 ^ 32) (submission : SignedSubmission A S)
    (weakest : Option (SignedSubmission A S)) {n : Nat} (hn : n = q.nextIdx) :
    let q' := (SignedSubmissions.finishInsert { q with indices := q.indices.insert score n }
      submission weakest).1
    Overlay capacity st q' ∧ q'.nextIdx = q.nextIdx + 1 ∧
      ∀ idx, q'.getSubmission st idx = if idx = q.nextIdx then some submission else q.getSubmission st idx := by
  subst hn
  intro q'
  have hsucc : u32Succ q.nextIdx = q.nextIdx + 1 := Nat.mod_eq_of_lt hroom
  -- `next_idx` names nothing yet: no score, no stored or deleted submission
  have hfree : ∀ score', q.indices.get? score' ≠ some q.nextIdx := fun score' h =>
    Nat.lt_irrefl _ (hq.lt_next score' _ h)
  have hnotStored : st.signedSubmissionsMap.get? q.nextIdx = none := by
    rcases h : st.signedSubmissionsMap.get? q.nextIdx with _ | w
    · rfl
    · exact absurd (hq.stored_lt _ w h) (Nat.lt_irrefl _)
  have hnotDel : q.deletionOverlay.contains q.nextIdx = false := by
    by_contra hdel
    have := hq.deleted_stored _ (by simpa using hdel)
    rw [hnotStored] at this
    cases this
  have hget : ∀ idx, q'.getSubmission st idx = if idx = q.nextIdx then some submission
      else q.getSubmission st idx := by
    intro idx
    by_cases hi : idx = q.nextIdx
    · subst hi
      simp [q', SignedSubmissions.finishInsert, SignedSubmissions.getSubmission, hnotDel]
    · simp [q', SignedSubmissions.finishInsert, SignedSubmissions.getSubmission, Ne.symm hi, hi]
  refine ⟨⟨?_, ?_, ?_, ?_, ?_, ?_, ?_⟩, hsucc, hget⟩
  · have hc : q.indices.contains score = false := by simp [OrdMap.contains, hnew]
    show (q.indices.insert score q.nextIdx).size ≤ capacity
    rw [OrdMap.size_insert_of_not_contains hc]
    omega
  · intro score₁ score₂ idx h₁ h₂
    change (q.indices.insert score q.nextIdx).get? score₁ = some idx at h₁
    change (q.indices.insert score q.nextIdx).get? score₂ = some idx at h₂
    rw [OrdMap.get?_insert] at h₁ h₂
    split_ifs at h₁ h₂ with hs₁ hs₂ hs₂
    · exact hs₁.symm.trans hs₂
    · cases h₁
      exact absurd h₂ (hfree score₂)
    · cases h₂
      exact absurd h₁ (hfree score₁)
    · exact hq.injective score₁ score₂ idx h₁ h₂
  · intro score' idx h
    change (q.indices.insert score q.nextIdx).get? score' = some idx at h
    show idx < u32Succ q.nextIdx
    rw [hsucc]
    rw [OrdMap.get?_insert] at h
    split_ifs at h
    · cases h
      exact Nat.lt_succ_self _
    · exact Nat.lt_succ_of_lt (hq.lt_next score' idx h)
  · intro idx
    rw [hget]
    show (∃ score', (q.indices.insert score q.nextIdx).get? score' = some idx) ↔ _
    by_cases hi : idx = q.nextIdx
    · subst hi
      simp only [if_true, Option.isSome_some, iff_true]
      exact ⟨score, by simp⟩
    · rw [if_neg hi, ← hq.present]
      constructor
      · rintro ⟨score', h⟩
        rw [OrdMap.get?_insert] at h
        split_ifs at h
        · exact absurd (Option.some.inj h).symm hi
        · exact ⟨score', h⟩
      · rintro ⟨score', h⟩
        refine ⟨score', ?_⟩
        have hsc : score ≠ score' := by
          rintro rfl
          rw [hnew] at h
          cases h
        rw [OrdMap.get?_insert, if_neg hsc, h]
  · intro idx w h
    show idx < u32Succ q.nextIdx
    rw [hsucc]
    exact Nat.lt_succ_of_lt (hq.stored_lt idx w h)
  · intro idx w h
    change (q.insertionOverlay.insert q.nextIdx submission).get? idx = some w at h
    rw [OrdMap.get?_insert] at h
    split_ifs at h with hi
    · rw [← hi]
      exact hnotStored
    · exact hq.overlay_fresh idx w h
  · exact hq.deleted_stored

end Overlay

/-! ## The paths of `insert` -/

namespace SignedSubmissions

variable (q : SignedSubmissions A S) (st : Storage A S) (capacity : Nat) (threshold : Perbill)
  (submission : SignedSubmission A S)

@[simp] theorem finishInsert_indices (weakest : Option (SignedSubmission A S)) :
    (q.finishInsert submission weakest).1.indices = q.indices := rfl

theorem insert_of_contains (hc : q.indices.contains submission.rawSolution.score = true) :
    q.insert st capacity threshold submission = (q, .notInserted) := by
  obtain ⟨prevIdx, hprev⟩ := (OrdMap.contains_iff_exists _ _).mp hc
  simp only [insert, hc, or_true, if_true, hprev, OrdMap.insert_insert, OrdMap.insert_of_get? hprev]

theorem insert_of_lt (hnew : q.indices.get? submission.rawSolution.score = none)
    (hlt : q.indices.size < capacity) :
    q.insert st capacity threshold submission =
      finishInsert { q with indices := q.indices.insert submission.rawSolution.score q.nextIdx }
        submission none := by
  simp only [insert, hlt, true_or, if_true, hnew]

theorem insert_of_full (hnew : q.indices.get? submission.rawSolution.score = none)
    (hfull : ¬ q.indices.size < capacity) :
    q.insert st capacity threshold submission =
      match q.indices.first? with
      | none => (q, .notInserted)
      | some (weakestScore, _) =>
        if !isScoreBetter submission.rawSolution.score weakestScore threshold then (q, .notInserted)
        else
          let r := q.swapOutSubmission st weakestScore (some (submission.rawSolution.score, q.nextIdx))
          finishInsert r.1 submission r.2 := by
  have hc : q.indices.contains submission.rawSolution.score = false := by simp [OrdMap.contains, hnew]
  -- both sides match on the weakest entry
  rcases hw : q.indices.first? with _ | ⟨weakestScore, _⟩ <;>
    simp only [insert, hfull, hc, hw, false_or, Bool.false_eq_true, if_false]

end SignedSubmissions

namespace Overlay

variable {capacity : Nat} {st : Storage A S} {q : SignedSubmissions A S}

theorem abs_eq {q' : SignedSubmissions A S} {m : OrdMap ElectionScore (SignedSubmission A S)}
    (h : ∀ score, (q'.indices.get? score).bind (q'.getSubmission st) = m.get? score) : q'.abs st = m :=
  OrdMap.ext_get? fun score => by rw [SignedSubmissions.abs_get?, h]

/-- **`insert` refines `absInsert`**, and keeps the queue an overlay. -/
theorem insert_refines (hq : Overlay capacity st q) (hroom : q.nextIdx + 1 < 2 ^ 32) (threshold : Perbill)
    (submission : SignedSubmission A S) :
    Overlay capacity st (q.insert st capacity threshold submission).1 ∧
      (q.insert st capacity threshold submission).1.nextIdx ≤ q.nextIdx + 1 ∧
      ((q.insert st capacity threshold submission).1.abs st, (q.insert st capacity threshold submission).2) =
        absInsert capacity threshold (q.abs st) submission := by
  by_cases hc : q.indices.contains submission.rawSolution.score = true
  · rw [SignedSubmissions.insert_of_contains q st capacity threshold submission hc]
    refine ⟨hq, Nat.le_succ _, ?_⟩
    simp [absInsert, hq.abs_contains, hc]
  have hnew : q.indices.get? submission.rawSolution.score = none := by simpa [OrdMap.contains] using hc
  have hcA : (q.abs st).contains submission.rawSolution.score = false := by
    simpa [hq.abs_contains] using hc
  by_cases hlt : q.indices.size < capacity
  · -- room left: the submission is added under `next_idx`
    obtain ⟨hq', hnext, hget⟩ := hq.finishInsert hnew hlt hroom submission none rfl
    rw [SignedSubmissions.insert_of_lt q st capacity threshold submission hnew hlt]
    refine ⟨hq', Nat.le_of_eq hnext, ?_⟩
    have habs : (q.abs st).size < capacity := by rw [hq.abs_size]; exact hlt
    simp only [absInsert, hcA, habs, Bool.false_eq_true, if_false, if_true]
    refine Prod.ext (abs_eq fun k => ?_) rfl
    rw [SignedSubmissions.finishInsert_indices, OrdMap.get?_insert, OrdMap.get?_insert]
    by_cases hk : submission.rawSolution.score = k
    · rw [if_pos hk, if_pos hk, Option.bind_some, hget, if_pos rfl]
    · simp only [hk, if_false, SignedSubmissions.abs_get?]
      rcases h : q.indices.get? k with _ | idx
      · rfl
      · have hne : idx ≠ q.nextIdx := Nat.ne_of_lt (hq.lt_next k idx h)
        simp only [Option.bind_some, hget, if_neg hne]
  -- at capacity: the weakest entry decides
  rw [SignedSubmissions.insert_of_full q st capacity threshold submission hnew hlt]
  have hfullA : ¬ (q.abs st).size < capacity := by rw [hq.abs_size]; exact hlt
  rcases hfirst : q.indices.first? with _ | ⟨weakestScore, weakestIdx⟩
  · refine ⟨hq, Nat.le_succ _, ?_⟩
    simp [absInsert, hcA, hfullA, hq.abs_first?, hfirst]
  dsimp only
  have hwi := OrdMap.get?_of_first? hfirst
  obtain ⟨weakest, hw⟩ := hq.resolves hwi
  have hfirstA : (q.abs st).first? = some (weakestScore, weakest) := by
    simp [hq.abs_first?, hfirst, hw]
  by_cases hb : isScoreBetter submission.rawSolution.score weakestScore threshold = true
  swap
  · simp only [hb, Bool.not_false, if_true]
    refine ⟨hq, Nat.le_succ _, ?_⟩
    simp [absInsert, hcA, hfullA, hfirstA, hb]
  -- better than the weakest: swap it out, then store the submission
  obtain ⟨q₁, hs, hidx, hswap⟩ := hq.swapOut hwi (some (submission.rawSolution.score, q.nextIdx))
  have hq₁ := hq.swapped hwi hs hidx
  have hnew₁ : q₁.indices.get? submission.rawSolution.score = none := by
    rw [hidx, OrdMap.get?_erase]
    split_ifs <;> simp [hnew]
  have hlt₁ : q₁.indices.size < capacity := by
    have hcw : q.indices.contains weakestScore = true := (OrdMap.contains_iff_exists _ _).mpr ⟨_, hwi⟩
    have := OrdMap.size_erase_of_contains hcw
    have := hq.size_le
    rw [hidx]
    omega
  obtain ⟨hq', hnext, hget⟩ :=
    hq₁.finishInsert hnew₁ hlt₁ (hs.nextIdx ▸ hroom) submission (some weakest) hs.nextIdx.symm
  simp only [hb, Bool.not_true, Bool.false_eq_true, if_false, hswap, hw]
  refine ⟨hq', Nat.le_of_eq (hnext.trans (by rw [hs.nextIdx])), ?_⟩
  simp only [absInsert, hcA, hfullA, hfirstA, hb, Bool.false_eq_true, if_false, if_true]
  refine Prod.ext (abs_eq fun k => ?_) rfl
  rw [SignedSubmissions.finishInsert_indices, OrdMap.get?_insert, OrdMap.get?_insert]
  by_cases hk : submission.rawSolution.score = k
  · rw [if_pos hk, if_pos hk, Option.bind_some, hget, hs.nextIdx, if_pos rfl]
  · have hk₁ : q₁.indices.get? k = (q.indices.erase weakestScore).get? k := by rw [hidx]
    rw [if_neg hk, if_neg hk, hk₁, OrdMap.get?_erase, OrdMap.get?_erase]
    by_cases hwk : weakestScore = k
    · rw [if_pos hwk, if_pos hwk]
      rfl
    · rw [if_neg hwk, if_neg hwk, SignedSubmissions.abs_get?]
      rcases h : q.indices.get? k with _ | idx
      · rfl
      · -- an index other than the new one and the ejected one resolves as before
        have hne₁ : idx ≠ q₁.nextIdx := by rw [hs.nextIdx]; exact Nat.ne_of_lt (hq.lt_next k idx h)
        have hne' : idx ≠ weakestIdx := fun he => hwk (hq.injective _ _ _ hwi (he ▸ h))
        rw [Option.bind_some, hget, if_neg hne₁, hs.getSubmission, if_neg hne', Option.bind_some]

/-- **`pop_last` refines `absPopLast`**, and keeps the queue an overlay. -/
theorem popLast_refines (hq : Overlay capacity st q) :
    Overlay capacity st (q.popLast st).1 ∧ (q.popLast st).1.nextIdx = q.nextIdx ∧
      ((q.popLast st).1.abs st, (q.popLast st).2) = absPopLast (q.abs st) := by
  unfold SignedSubmissions.popLast
  rcases hlast : q.indices.last? with _ | ⟨bestScore, bestIdx⟩
  · refine ⟨hq, rfl, ?_⟩
    simp [absPopLast, hq.abs_last?, hlast]
  have hbi := OrdMap.get?_of_last? hlast
  obtain ⟨best, hb⟩ := hq.resolves hbi
  obtain ⟨q₁, hs, hidx, hswap⟩ := hq.swapOut hbi none
  have hlastA : (q.abs st).last? = some (bestScore, best) := by
    simp [hq.abs_last?, hlast, hb]
  simp only [hswap]
  refine ⟨hq.swapped hbi hs hidx, hs.nextIdx, ?_⟩
  simp only [absPopLast, hlastA, hb, Prod.mk.injEq, and_true]
  refine abs_eq fun k => ?_
  rw [hidx, OrdMap.get?_erase, OrdMap.get?_erase]
  by_cases hk : bestScore = k
  · simp [hk]
  · simp only [hk, if_false, SignedSubmissions.abs_get?]
    rcases h : q.indices.get? k with _ | idx
    · rfl
    · have hne : idx ≠ bestIdx := fun he => hk (hq.injective _ _ _ hbi (he ▸ h))
      simp [hs.getSubmission, hne]

end Overlay

/-! ## `put` and `drain` -/

namespace SignedSubmissions

/-- What `put` writes to `SignedSubmissionsMap`: at every index, what the queue
resolves it to. -/
theorem put_get? (q : SignedSubmissions A S) (st : Storage A S) (idx : Nat) :
    (q.put st).signedSubmissionsMap.get? idx = q.getSubmission st idx := by
  -- the loop over the deleted keys erases from both maps at once
  have hpair : ∀ (keys : List Nat) (acc : OrdMap Nat (SignedSubmission A S) × OrdMap Nat (SignedSubmission A S)),
      keys.foldl (fun acc key => (acc.1.erase key, acc.2.erase key)) acc =
        (keys.foldl (fun m key => m.erase key) acc.1, keys.foldl (fun m key => m.erase key) acc.2) := by
    intro keys
    induction keys with
    | nil => intro acc; rfl
    | cons key keys ih => intro acc; exact ih _
  simp only [put, hpair, OrdMap.get?_foldl_insert_toList]
  have herase := OrdMap.get?_foldl_erase (ν := SignedSubmission A S) (fun k : Nat => k) q.deletionOverlay.keys
  simp only [List.map_id'] at herase
  rw [herase, herase, getSubmission]
  by_cases hdel : q.deletionOverlay.contains idx = true
  · simp [(OrdMap.mem_keys _ _).mpr hdel, hdel]
  · have : idx ∉ q.deletionOverlay.keys := fun h => hdel ((OrdMap.mem_keys _ _).mp h)
    simp [this, hdel]

end SignedSubmissions

namespace Overlay

variable {capacity : Nat} {st : Storage A S} {q : SignedSubmissions A S}

/-- **`put`** writes storage satisfying `StoreInv`, denoting the same map. -/
theorem put_storeInv (hq : Overlay capacity st q) :
    StoreInv capacity (q.put st) ∧ (SignedSubmissions.get (q.put st)).abs (q.put st) = q.abs st := by
  refine ⟨⟨hq.size_le, hq.injective, hq.lt_next, fun score idx h => ?_, fun idx submission h => ?_⟩, ?_⟩
  · rw [SignedSubmissions.put_get?]
    exact (hq.present idx).mp ⟨score, h⟩
  · rw [SignedSubmissions.put_get?] at h
    exact (hq.present idx).mpr (by rw [h]; rfl)
  · refine abs_eq fun k => ?_
    simp only [SignedSubmissions.getSubmission_get, SignedSubmissions.abs_get?, SignedSubmissions.put_get?]
    rfl

theorem getSubmission_eq_some (hq : Overlay capacity st q) (idx : Nat) (submission : SignedSubmission A S) :
    q.getSubmission st idx = some submission ↔
      (st.signedSubmissionsMap.get? idx = some submission ∧ q.deletionOverlay.contains idx = false) ∨
        q.insertionOverlay.get? idx = some submission := by
  unfold SignedSubmissions.getSubmission
  rcases hov : q.insertionOverlay.get? idx with _ | w
  · by_cases hdel : q.deletionOverlay.contains idx = true <;> simp [hdel]
  · -- an overlay entry is neither stored nor deleted
    have hst := hq.overlay_fresh idx w hov
    have hdel : q.deletionOverlay.contains idx = false := by
      by_contra h
      have := hq.deleted_stored idx (by simpa using h)
      rw [hst] at this
      cases this
    simp [hdel, hst]

/-- **`drain`** hands back every submission of the map once. -/
theorem drain_perm (hq : Overlay capacity st q) :
    ((q.drain st).2.map Prod.snd).Perm ((q.abs st).toList.map Prod.snd) := by
  let L := q.indices.toList.filterMap fun e => (q.getSubmission st e.2).map (e.2, ·)
  have hL : L.map Prod.snd = (q.abs st).toList.map Prod.snd := by
    simp only [L, SignedSubmissions.abs, OrdMap.filterMap, List.map_filterMap, Option.map_map]
    rfl
  have hmemL : ∀ e : Nat × SignedSubmission A S, e ∈ L ↔ q.getSubmission st e.1 = some e.2 := by
    rintro ⟨idx, submission⟩
    simp only [L, List.mem_filterMap, Option.map_eq_some_iff, Prod.mk.injEq]
    constructor
    · rintro ⟨⟨score, i⟩, -, w, hw, rfl, rfl⟩
      exact hw
    · intro h
      obtain ⟨score, hs⟩ := (hq.present idx).mpr (by rw [h]; rfl)
      exact ⟨(score, idx), OrdMap.mem_toList_of_get? hs, submission, h, rfl, rfl⟩
  have hmemD : ∀ e : Nat × SignedSubmission A S, e ∈ (q.drain st).2 ↔ q.getSubmission st e.1 = some e.2 := by
    rintro ⟨idx, submission⟩
    rw [hq.getSubmission_eq_some]
    simp [SignedSubmissions.drain, ← OrdMap.get?_eq_some_iff]
  have hndL : L.Nodup := by
    -- the indices of `indices` are distinct, and each entry keeps its index
    have hvals : (q.indices.toList.map Prod.snd).Nodup := q.indices.values_nodup hq.injective
    rw [List.Nodup, List.pairwise_map] at hvals
    refine List.Pairwise.filterMap _ ?_ hvals
    intro a a' hne b hb b' hb'
    obtain ⟨_, -, rfl⟩ := Option.map_eq_some_iff.mp hb
    obtain ⟨_, -, rfl⟩ := Option.map_eq_some_iff.mp hb'
    exact fun h => hne (congrArg Prod.fst h)
  have hndD : (q.drain st).2.Nodup := by
    refine List.nodup_append.mpr ⟨(OrdMap.toList_nodup _).filter _, OrdMap.toList_nodup _, ?_⟩
    -- a stored entry is never also an overlay entry
    intro a ha b hb hab
    subst hab
    have hst := OrdMap.get?_of_mem_toList (List.mem_filter.mp ha).1
    rw [hq.overlay_fresh a.1 a.2 (OrdMap.get?_of_mem_toList hb)] at hst
    cases hst
  have hperm := (List.perm_ext_iff_of_nodup hndD hndL).mpr fun e => (hmemD e).trans (hmemL e).symm
  exact (hperm.map Prod.snd).trans (by rw [hL])

end Overlay

/-! ## Runs of `insert` and `pop_last` -/

/-- A call on the queue between `get` and `put`. -/
inductive QueueOp (A S : Type)
  | insert (submission : SignedSubmission A S)
  | popLast

/-- What a call returns. -/
inductive QueueOut (A S : Type)
  | insertResult (r : InsertResult A S)
  | popped (submission : Option (SignedSubmission A S))

section Run

variable (st : Storage A S) (capacity : Nat) (threshold : Perbill)

/-- One call on the queue in memory. -/
def QueueOp.run (q : SignedSubmissions A S) : QueueOp A S → SignedSubmissions A S × QueueOut A S
  | .insert submission =>
    let r := q.insert st capacity threshold submission
    (r.1, .insertResult r.2)
  | .popLast =>
    let r := q.popLast st
    (r.1, .popped r.2)

/-- One call on the map. -/
def QueueOp.spec (m : OrdMap ElectionScore (SignedSubmission A S)) :
    QueueOp A S → OrdMap ElectionScore (SignedSubmission A S) × QueueOut A S
  | .insert submission =>
    let r := absInsert capacity threshold m submission
    (r.1, .insertResult r.2)
  | .popLast =>
    let r := absPopLast m
    (r.1, .popped r.2)

/-- The calls one after the other on the queue, with what each returned. -/
def runQueue : SignedSubmissions A S → List (QueueOp A S) → SignedSubmissions A S × List (QueueOut A S)
  | q, [] => (q, [])
  | q, op :: ops =>
    let r := op.run st capacity threshold q
    let rest := runQueue r.1 ops
    (rest.1, r.2 :: rest.2)

/-- The calls one after the other on the map. -/
def specQueue : OrdMap ElectionScore (SignedSubmission A S) → List (QueueOp A S) →
    OrdMap ElectionScore (SignedSubmission A S) × List (QueueOut A S)
  | m, [] => (m, [])
  | m, op :: ops =>
    let r := op.spec capacity threshold m
    let rest := specQueue r.1 ops
    (rest.1, r.2 :: rest.2)

variable {st capacity}

/-- **Step lemma.**  One call keeps the queue an overlay, uses at most one new
index, and does to the map what the map's call does. -/
theorem Overlay.run {q : SignedSubmissions A S} (hq : Overlay capacity st q) (hroom : q.nextIdx + 1 < 2 ^ 32)
    (op : QueueOp A S) :
    Overlay capacity st (op.run st capacity threshold q).1 ∧
      (op.run st capacity threshold q).1.nextIdx ≤ q.nextIdx + 1 ∧
      ((op.run st capacity threshold q).1.abs st, (op.run st capacity threshold q).2) =
        op.spec capacity threshold (q.abs st) := by
  cases op with
  | insert submission =>
    obtain ⟨h₁, h₂, h₃⟩ := hq.insert_refines hroom threshold submission
    refine ⟨h₁, h₂, ?_⟩
    simp only [QueueOp.run, QueueOp.spec, ← h₃]
  | popLast =>
    obtain ⟨h₁, h₂, h₃⟩ := hq.popLast_refines
    refine ⟨h₁, Nat.le_succ_of_le (Nat.le_of_eq h₂), ?_⟩
    simp only [QueueOp.run, QueueOp.spec, ← h₃]

/-- **Run lemma**, by induction on the calls: with room for one new index per
call, the queue stays an overlay, denotes the map the map's calls reach, and
returns what they return. -/
theorem Overlay.runQueue :
    ∀ (ops : List (QueueOp A S)) {q : SignedSubmissions A S}, Overlay capacity st q →
      q.nextIdx + ops.length < 2 ^ 32 →
      Overlay capacity st (ElectionMultiPhase.runQueue st capacity threshold q ops).1 ∧
        (ElectionMultiPhase.runQueue st capacity threshold q ops).1.abs st =
          (specQueue capacity threshold (q.abs st) ops).1 ∧
        (ElectionMultiPhase.runQueue st capacity threshold q ops).2 =
          (specQueue capacity threshold (q.abs st) ops).2
  | [], _, hq, _ => ⟨hq, rfl, rfl⟩
  | op :: ops, q, hq, hroom => by
    have hroom₁ : q.nextIdx + 1 < 2 ^ 32 := by
      simp only [List.length_cons] at hroom
      omega
    obtain ⟨hq₁, hnext, hstep⟩ := hq.run threshold hroom₁ op
    have hroom' : (op.run st capacity threshold q).1.nextIdx + ops.length < 2 ^ 32 := by
      simp only [List.length_cons] at hroom
      omega
    obtain ⟨h₁, h₂, h₃⟩ := Overlay.runQueue ops hq₁ hroom'
    simp only [ElectionMultiPhase.runQueue, specQueue, ← hstep]
    exact ⟨h₁, h₂, by rw [h₃]⟩

end Run

/-- **The signed queue refines the map from score to submission**: every
sequence of `insert` and `pop_last` returns what the map's calls return, and
`iter`, `put` and `drain` read, write and empty the map reached. -/
theorem signedQueue_refines_map (capacity : Nat) (threshold : Perbill) (st : Storage A S)
    (hst : StoreInv capacity st) (ops : List (QueueOp A S))
    (hroom : st.signedSubmissionNextIndex + ops.length < 2 ^ 32) :
    (runQueue st capacity threshold (SignedSubmissions.get st) ops).2 =
        (specQueue capacity threshold ((SignedSubmissions.get st).abs st) ops).2 ∧
      (runQueue st capacity threshold (SignedSubmissions.get st) ops).1.iter st =
        (specQueue capacity threshold ((SignedSubmissions.get st).abs st) ops).1.toList.map Prod.snd ∧
      StoreInv capacity ((runQueue st capacity threshold (SignedSubmissions.get st) ops).1.put st) ∧
      (SignedSubmissions.get ((runQueue st capacity threshold (SignedSubmissions.get st) ops).1.put st)).abs
          ((runQueue st capacity threshold (SignedSubmissions.get st) ops).1.put st) =
        (specQueue capacity threshold ((SignedSubmissions.get st).abs st) ops).1 ∧
      (((runQueue st capacity threshold (SignedSubmissions.get st) ops).1.drain st).2.map Prod.snd).Perm
        ((specQueue capacity threshold ((SignedSubmissions.get st).abs st) ops).1.toList.map Prod.snd) ∧
      ((runQueue st capacity threshold (SignedSubmissions.get st) ops).1.drain st).1.signedSubmissionIndices =
        OrdMap.empty ∧
      ((runQueue st capacity threshold (SignedSubmissions.get st) ops).1.drain st).1.signedSubmissionNextIndex = 0 ∧
      ((runQueue st capacity threshold (SignedSubmissions.get st) ops).1.drain st).1.signedSubmissionsMap =
        OrdMap.empty := by
  obtain ⟨hq, habs, hout⟩ := Overlay.runQueue threshold ops (Overlay.get hst) hroom
  obtain ⟨hput, hputAbs⟩ := hq.put_storeInv
  refine ⟨hout, ?_, hput, hputAbs.trans habs, ?_, rfl, rfl, rfl⟩
  · rw [SignedSubmissions.iter_eq_abs, habs]
  · rw [← habs]
    exact hq.drain_perm

/-! ## One insertion from `u32::MAX` -/

/-- Voter `10`'s submission of `zeroEdgeSolution`, deposit `5`, reward `7`. -/
def demoSubmission : SignedSubmission Nat (Solution 16 65535) := ⟨10, 5, zeroEdgeSolution, 7⟩

/-- Insert `demoSubmission`, then pop the best entry. -/
def insertThenPop : List (QueueOp Nat (Solution 16 65535)) := [.insert demoSubmission, .popLast]

theorem StoreInv.of_empty {capacity : Nat} {st : Storage A S}
    (hidx : st.signedSubmissionIndices = OrdMap.empty) (hmap : st.signedSubmissionsMap = OrdMap.empty) :
    StoreInv capacity st where
  size_le := by rw [hidx]; exact Nat.zero_le _
  injective _ _ _ h := by simp [hidx] at h
  lt_next _ _ h := by simp [hidx] at h
  stored _ _ h := by simp [hidx] at h
  indexed _ _ h := by simp [hmap] at h

theorem signedQueue_refines_map_insertPop :
    StoreInv 2 zeroEdgeStorage ∧ zeroEdgeStorage.signedSubmissionNextIndex + insertThenPop.length < 2 ^ 32 ∧
      ((runQueue zeroEdgeStorage 2 PerThing.zero (SignedSubmissions.get zeroEdgeStorage) insertThenPop).2 =
          (specQueue 2 PerThing.zero ((SignedSubmissions.get zeroEdgeStorage).abs zeroEdgeStorage)
            insertThenPop).2 ∧
        (runQueue zeroEdgeStorage 2 PerThing.zero (SignedSubmissions.get zeroEdgeStorage) insertThenPop).1.iter
            zeroEdgeStorage =
          (specQueue 2 PerThing.zero ((SignedSubmissions.get zeroEdgeStorage).abs zeroEdgeStorage)
            insertThenPop).1.toList.map Prod.snd ∧
        StoreInv 2 ((runQueue zeroEdgeStorage 2 PerThing.zero (SignedSubmissions.get zeroEdgeStorage)
          insertThenPop).1.put zeroEdgeStorage) ∧
        (SignedSubmissions.get ((runQueue zeroEdgeStorage 2 PerThing.zero
            (SignedSubmissions.get zeroEdgeStorage) insertThenPop).1.put zeroEdgeStorage)).abs
            ((runQueue zeroEdgeStorage 2 PerThing.zero (SignedSubmissions.get zeroEdgeStorage)
              insertThenPop).1.put zeroEdgeStorage) =
          (specQueue 2 PerThing.zero ((SignedSubmissions.get zeroEdgeStorage).abs zeroEdgeStorage)
            insertThenPop).1 ∧
        (((runQueue zeroEdgeStorage 2 PerThing.zero (SignedSubmissions.get zeroEdgeStorage)
            insertThenPop).1.drain zeroEdgeStorage).2.map Prod.snd).Perm
          ((specQueue 2 PerThing.zero ((SignedSubmissions.get zeroEdgeStorage).abs zeroEdgeStorage)
            insertThenPop).1.toList.map Prod.snd) ∧
        ((runQueue zeroEdgeStorage 2 PerThing.zero (SignedSubmissions.get zeroEdgeStorage)
            insertThenPop).1.drain zeroEdgeStorage).1.signedSubmissionIndices = OrdMap.empty ∧
        ((runQueue zeroEdgeStorage 2 PerThing.zero (SignedSubmissions.get zeroEdgeStorage)
            insertThenPop).1.drain zeroEdgeStorage).1.signedSubmissionNextIndex = 0 ∧
        ((runQueue zeroEdgeStorage 2 PerThing.zero (SignedSubmissions.get zeroEdgeStorage)
            insertThenPop).1.drain zeroEdgeStorage).1.signedSubmissionsMap = OrdMap.empty) :=
  have hst : StoreInv 2 zeroEdgeStorage := StoreInv.of_empty rfl rfl
  have hroom : zeroEdgeStorage.signedSubmissionNextIndex + insertThenPop.length < 2 ^ 32 := by decide
  ⟨hst, hroom, signedQueue_refines_map 2 PerThing.zero zeroEdgeStorage hst insertThenPop hroom⟩

/-- The queue of `zeroEdgeStorage` with `SignedSubmissionNextIndex = u32::MAX`. -/
def lastIndexStorage : Storage Nat (Solution 16 65535) :=
  { zeroEdgeStorage with signedSubmissionNextIndex := 2 ^ 32 - 1 }

/-- From `SignedSubmissionNextIndex = u32::MAX`, one `insert` and `put` write
the submission under index `u32::MAX` and the next index `0`: the stored index
is no longer below the next one. -/
theorem put_wraps_next_index :
    StoreInv 2 lastIndexStorage ∧
      ((SignedSubmissions.get lastIndexStorage).insert lastIndexStorage 2 PerThing.zero demoSubmission).2 =
        .inserted ∧
      (((SignedSubmissions.get lastIndexStorage).insert lastIndexStorage 2 PerThing.zero
        demoSubmission).1.put lastIndexStorage).signedSubmissionNextIndex = 0 ∧
      ¬ StoreInv 2 (((SignedSubmissions.get lastIndexStorage).insert lastIndexStorage 2 PerThing.zero
        demoSubmission).1.put lastIndexStorage) := by
  have hget : (((SignedSubmissions.get lastIndexStorage).insert lastIndexStorage 2 PerThing.zero
      demoSubmission).1.put lastIndexStorage).signedSubmissionIndices.get? demoSubmission.rawSolution.score =
        some (2 ^ 32 - 1) := by decide
  refine ⟨StoreInv.of_empty rfl rfl, rfl, by decide, fun h => ?_⟩
  have hlt := h.lt_next _ _ hget
  rw [show (((SignedSubmissions.get lastIndexStorage).insert lastIndexStorage 2 PerThing.zero
      demoSubmission).1.put lastIndexStorage).signedSubmissionNextIndex = 0 by decide] at hlt
  exact Nat.not_lt_zero _ hlt

end ElectionMultiPhase
