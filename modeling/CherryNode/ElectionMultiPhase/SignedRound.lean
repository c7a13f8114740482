import CherryNode.ElectionMultiPhase.SignedQueue

/-!
# The signed phase over a round: what the deposits go through

While submissions come in, the ledger of the round (`RoundLedger`) holds,
for each index: nothing at or above `SignedSubmissionNextIndex`; one
reservation of the stored submission's own deposit for an index the map
holds; and for any other index either nothing or one reservation followed by
one unreservation (an ejected submission).  Every `submit` keeps this together
with `QueueWF` (`SubmitInv.submit`), as long as the next index does not wrap
around the `u32` (`submitAll_inv`).
-/

namespace ElectionMultiPhase

open SpArithmetic NposElections Frame

variable {A S B : Type}

/-! ## The ledger of one index -/

/-- The submission index an entry is for. -/
def LedgerEntry.idx : LedgerEntry A → Nat
  | .reserved idx _ _ => idx
  | .unreserved idx _ _ => idx
  | .slashed idx _ _ => idx
  | .rewarded idx _ _ => idx

@[simp] theorem LedgerEntry.idx_reserved (idx : Nat) (who : A) (amount : Nat) :
    (LedgerEntry.reserved idx who amount).idx = idx := rfl

@[simp] theorem LedgerEntry.idx_unreserved (idx : Nat) (who : A) (amount : Nat) :
    (LedgerEntry.unreserved idx who amount).idx = idx := rfl

@[simp] theorem LedgerEntry.idx_rewarded (idx : Nat) (who : A) (amount : Nat) :
    (LedgerEntry.rewarded idx who amount).idx = idx := rfl

/-- The entries of a ledger for the submission of index `i`, in order. -/
def ledgerFor (i : Nat) (l : List (LedgerEntry A)) : List (LedgerEntry A) :=
  l.filter fun e => e.idx == i

@[simp] theorem ledgerFor_nil (i : Nat) : ledgerFor i ([] : List (LedgerEntry A)) = [] := rfl

@[simp] theorem ledgerFor_cons (i : Nat) (e : LedgerEntry A) (l : List (LedgerEntry A)) :
    ledgerFor i (e :: l) = if e.idx = i then e :: ledgerFor i l else ledgerFor i l := by
  by_cases h : e.idx = i <;> simp [ledgerFor, h]

@[simp] theorem ledgerFor_append (i : Nat) (l l' : List (LedgerEntry A)) :
    ledgerFor i (l ++ l') = ledgerFor i l ++ ledgerFor i l' :=
  List.filter_append ..

/-- The ledger of the round so far, against the queue in storage. -/
structure RoundLedger (st : Storage A S) (L : List (LedgerEntry A)) : Prop where
  /-- Indices not handed out yet have no entry. -/
  fresh : ∀ i, st.signedSubmissionNextIndex ≤ i → ledgerFor i L = []
  /-- A stored submission has its own deposit reserved, once. -/
  stored : ∀ i submission, st.signedSubmissionsMap.get? i = some submission →
    ledgerFor i L = [.reserved i submission.who submission.deposit]
  /-- Any other index was never used, or reserved once and unreserved once. -/
  released : ∀ i, st.signedSubmissionsMap.get? i = none →
    ledgerFor i L = [] ∨ ∃ who deposit, ledgerFor i L = [.reserved i who deposit, .unreserved i who deposit]

namespace RoundLedger

variable {capacity : Nat} {st : Storage A S} {L : List (LedgerEntry A)}

theorem empty (hmap : st.signedSubmissionsMap = OrdMap.empty) : RoundLedger st ([] : List (LedgerEntry A)) where
  fresh _ _ := rfl
  stored i submission h := by simp [hmap] at h
  released _ _ := .inl rfl

theorem storeInserted (h : RoundLedger st L) (submission : SignedSubmission A S)
    (hroom : st.signedSubmissionNextIndex + 1 < 2 ^ 32) :
    RoundLedger (ElectionMultiPhase.storeInserted st st.signedSubmissionNextIndex submission)
      (L ++ [.reserved st.signedSubmissionNextIndex submission.who submission.deposit]) := by
  have hsucc : u32Succ st.signedSubmissionNextIndex = st.signedSubmissionNextIndex + 1 :=
    Nat.mod_eq_of_lt hroom
  constructor
  case fresh =>
    intro i hi
    simp only [ElectionMultiPhase.storeInserted, hsucc] at hi
    simp [h.fresh i (by omega), Nat.ne_of_lt hi]
  case stored =>
    intro i old hget
    simp only [ElectionMultiPhase.storeInserted, OrdMap.get?_insert] at hget
    split_ifs at hget with hi
    · -- the new index: its first entry is this reservation
      cases hget
      subst hi
      simp [h.fresh _ le_rfl]
    · simp [h.stored i old hget, hi]
  case released =>
    intro i hget
    simp only [ElectionMultiPhase.storeInserted, OrdMap.get?_insert] at hget
    split_ifs at hget with hi
    simp [hi, h.released i hget]

theorem storeEjecting (h : RoundLedger st L) (hwf : QueueWF capacity st) (submission : SignedSubmission A S)
    {weakScore : ElectionScore} {weakIdx : Nat} {weak : SignedSubmission A S}
    (hweak : st.signedSubmissionsMap.get? weakIdx = some weak)
    (hroom : st.signedSubmissionNextIndex + 1 < 2 ^ 32) :
    RoundLedger (ElectionMultiPhase.storeEjecting st weakScore weakIdx st.signedSubmissionNextIndex submission)
      (L ++ [.reserved st.signedSubmissionNextIndex submission.who submission.deposit,
        .unreserved weakIdx weak.who weak.deposit]) := by
  have hsucc : u32Succ st.signedSubmissionNextIndex = st.signedSubmissionNextIndex + 1 :=
    Nat.mod_eq_of_lt hroom
  have hweakLt := hwf.map_lt_next hweak
  constructor
  case fresh =>
    intro i hi
    simp only [ElectionMultiPhase.storeEjecting, hsucc] at hi
    simp [h.fresh i (by omega), Nat.ne_of_lt hi, show weakIdx ≠ i by omega]
  case stored =>
    intro i old hget
    simp only [ElectionMultiPhase.storeEjecting, OrdMap.get?_insert, OrdMap.get?_erase] at hget
    split_ifs at hget with hi hw
    · cases hget
      subst hi
      simp [h.fresh _ le_rfl, Nat.ne_of_lt hweakLt]
    · simp [h.stored i old hget, hi, hw]
  case released =>
    intro i hget
    simp only [ElectionMultiPhase.storeEjecting, OrdMap.get?_insert, OrdMap.get?_erase] at hget
    split_ifs at hget with hi hw
    · -- the ejected index: its reservation is now followed by the unreservation
      subst hw
      right
      exact ⟨weak.who, weak.deposit, by simp [h.stored weakIdx weak hweak, hi]⟩
    · simp [hi, hw, h.released i hget]

end RoundLedger

/-! ## A run of submissions -/

/-- A `submit` extrinsic. -/
structure SubmitCall (A S : Type) where
  origin : Origin A
  rawSolution : RawSolution S
  numSignedSubmissions : Nat

section Run

variable (cfg : SignedConfig S) (cur : Currency A B)

/-- One `submit` extrinsic applied to the state. -/
def submitStep (s : St A S B) (c : SubmitCall A S) : St A S B :=
  applyCall (submit cfg cur c.origin c.rawSolution c.numSignedSubmissions) s

/-- The invariant of a round while submissions come in: the queue is well
formed and what the round added to the ledger is a `RoundLedger`. -/
structure SubmitInv (l0 : List (LedgerEntry A)) (s : St A S B) : Prop where
  wf : QueueWF cfg.signedMaxSubmissions s.storage
  ledger : ∃ L, s.ledger = l0 ++ L ∧ RoundLedger s.storage L

/-- A round starts from an empty queue. -/
theorem SubmitInv.start (s : St A S B) (hindices : s.storage.signedSubmissionIndices = OrdMap.empty)
    (hmap : s.storage.signedSubmissionsMap = OrdMap.empty) : SubmitInv cfg s.ledger s where
  wf :=
    { stored := fun score idx h => by simp [hindices] at h
      indexed := fun idx submission h => by simp [hmap] at h
      lt_next := fun score idx h => by simp [hindices] at h
      size_le := by simp [hindices, OrdMap.size, OrdMap.empty] }
  ledger := ⟨[], by simp, RoundLedger.empty hmap⟩

variable {l0 : List (LedgerEntry A)}

/-- **Step lemma.**  One `submit` keeps the invariant and moves the next index
by at most one. -/
theorem SubmitInv.submit {s : St A S B} (h : SubmitInv cfg l0 s)
    (hroom : s.storage.signedSubmissionNextIndex + 1 < 2 ^ 32) (c : SubmitCall A S) :
    SubmitInv cfg l0 (submitStep cfg cur s c) ∧
      (submitStep cfg cur s c).storage.signedSubmissionNextIndex ≤ s.storage.signedSubmissionNextIndex + 1 := by
  have hsucc : u32Succ s.storage.signedSubmissionNextIndex = s.storage.signedSubmissionNextIndex + 1 :=
    Nat.mod_eq_of_lt hroom
  obtain ⟨L, hL, hround⟩ := h.ledger
  unfold submitStep
  rcases submit_cases cfg cur s h.wf c.origin c.rawSolution c.numSignedSubmissions with
    heq | ⟨who, size, b, -, hnew, -, ⟨hlt, heq⟩ | ⟨weakScore, weakIdx, weak, hfirst, hweak, -, heq⟩⟩
  · rw [heq]
    exact ⟨h, by omega⟩
  · rw [heq]
    refine ⟨⟨h.wf.storeInserted hnew hlt hroom, ⟨_, by simp [hL], hround.storeInserted _ hroom⟩⟩, ?_⟩
    simp [storeInserted, hsucc]
  · rw [heq]
    refine ⟨⟨h.wf.storeEjecting hnew hfirst hroom,
      ⟨_, by simp [hL], hround.storeEjecting h.wf _ hweak hroom⟩⟩, ?_⟩
    simp [storeEjecting, hsucc]

/-- **Run lemma.**  A run of submissions whose indices stay below `2 ^ 32`
keeps the invariant. -/
theorem submitAll_inv :
    ∀ (calls : List (SubmitCall A S)) {s : St A S B}, SubmitInv cfg l0 s →
      s.storage.signedSubmissionNextIndex + calls.length < 2 ^ 32 →
      SubmitInv cfg l0 (calls.foldl (submitStep cfg cur) s)
  | [], _, h, _ => h
  | c :: calls, s, h, hroom => by
    have hroom1 : s.storage.signedSubmissionNextIndex + 1 < 2 ^ 32 := by
      simp at hroom
      omega
    obtain ⟨h', hnext⟩ := h.submit cfg cur hroom1 c
    exact submitAll_inv calls h' (by simp at hroom; omega)

end Run

end ElectionMultiPhase
