import CherryNode.NposElections.PhragmenRounds

/-!
# Backed stakes are the sums of the edge weights

Every write of an edge's weight in `seq_phragmen_core`, `balance_voter` and
`try_normalize_elected` comes with a write of its candidate's backed stake:
the old weight taken off (`saturating_sub`), the new one added
(`saturating_add`).  When neither saturates, the backed stake stays what the
edges give it, `backing`.  `LocalOk.replace` is that step for one edge; each
loop over a voter's edges is an induction on it, with `other` what the other
voters give.

No sum saturates: the budgets' total fits in `u128` (`VoteWeight` is `u64`,
fewer than `2 ^ 64` voters), and a voter's edges weigh at most its budget.  In
the final loop of `seq_phragmen_core` that is the work of `PhragmenRounds`: an
elected edge's load is at most its voter's.  `seqPhragmenCore_inv` is the
result (`PhragmenInv`).
-/

namespace NposElections

open SpArithmetic Helpers128bit Tally

variable {A : Type} {cands : List (Candidate A)} {v : Voter A} {voters : List (Voter A)} {other : Nat → Nat}

/-- The weight of a voter's edges to candidate `c`. -/
def edgeBacking (edges : List (Edge A)) (c : Nat) : Nat := tally Edge.candidate Edge.weight edges c

/-- The weight of all voters' edges to candidate `c`. -/
def backing (voters : List (Voter A)) (c : Nat) : Nat := (voters.map fun v => edgeBacking v.edges c).sum

/-- Each backed stake is what one voter's edges give its candidate, on top of
`other`. -/
def LocalOk (other : Nat → Nat) (cands : List (Candidate A)) (edges : List (Edge A)) : Prop :=
  ∀ c < cands.length, backedOf cands c = other c + edgeBacking edges c

/-! ## Writes through a pointer -/

@[simp] theorem length_setBacked (cands : List (Candidate A)) (i : Nat) (f : Nat → Nat) :
    (setBacked cands i f).length = cands.length := by
  simp [setBacked]

theorem backedOf_setBacked {i : Nat} {f : Nat → Nat} {c : Nat}
    (hc : c < cands.length) :
    backedOf (setBacked cands i f) c = if i = c then f (backedOf cands c) else backedOf cands c := by
  unfold backedOf setBacked
  rw [List.getElem?_modify, List.getElem?_eq_getElem hc]
  split <;> rfl

/-- A write of a backed stake leaves the candidates' elected flags alone. -/
@[simp] theorem isElected_setBacked (cands : List (Candidate A)) (i : Nat) (f : Nat → Nat) (j : Nat) :
    isElected (setBacked cands i f) j = isElected cands j := by
  unfold isElected setBacked
  rw [List.getElem?_modify]
  cases cands[j]? with
  | none => rfl
  | some c => simp only [Option.map_some, Option.getD_some]; split <;> rfl

/-- The elected flags, and with them the length, survive a write of a backed
stake. -/
@[simp] theorem map_elected_setBacked (cands : List (Candidate A)) (i : Nat) (f : Nat → Nat) :
    (setBacked cands i f).map Candidate.elected = cands.map Candidate.elected := by
  apply List.ext_getElem
  · simp
  · intro j h₁ h₂
    simp only [List.getElem_map, setBacked, List.getElem_modify]
    split <;> rfl

variable {es : List (Edge A)} {cs cs' cands cands' : List (Candidate A)} {pre post : List (Voter A)} {u u₀ : Voter A}

theorem isElected_of_map_elected
    (h : cs'.map Candidate.elected = cs.map Candidate.elected) (i : Nat) : isElected cs' i = isElected cs i := by
  unfold isElected
  rw [← List.getElem?_map, ← List.getElem?_map, h]

theorem length_of_map_elected
    (h : cs'.map Candidate.elected = cs.map Candidate.elected) : cs'.length = cs.length := by
  simpa using congrArg List.length h

theorem backedOf_eq_getElem {c : Nat} (hc : c < cands.length) :
    backedOf cands c = cands[c].backedStake := by
  simp [backedOf, List.getElem?_eq_getElem hc]

/-! ## Backing -/

@[simp] theorem backing_nil (c : Nat) : backing ([] : List (Voter A)) c = 0 := rfl

theorem backing_append (vs₁ vs₂ : List (Voter A)) (c : Nat) :
    backing (vs₁ ++ vs₂) c = backing vs₁ c + backing vs₂ c := by
  simp [backing]

theorem backing_cons (v : Voter A) (vs : List (Voter A)) (c : Nat) :
    backing (v :: vs) c = edgeBacking v.edges c + backing vs c := by
  simp [backing]

theorem backing_middle (pre post : List (Voter A)) (v : Voter A) (c : Nat) :
    backing (pre ++ v :: post) c = (backing pre c + backing post c) + edgeBacking v.edges c := by
  rw [backing_append, backing_cons]
  omega

theorem edgeBacking_le (hnd : (v.edges.map Edge.candidate).Nodup)
    (hw : ∀ e ∈ v.edges, e.weight ≤ v.budget) (c : Nat) : edgeBacking v.edges c ≤ v.budget :=
  tally_le hnd hw c

theorem backing_le (hnd : ∀ v ∈ voters, (v.edges.map Edge.candidate).Nodup)
    (hw : ∀ v ∈ voters, ∀ e ∈ v.edges, e.weight ≤ v.budget) (c : Nat) :
    backing voters c ≤ (voters.map Voter.budget).sum := by
  unfold backing
  induction voters with
  | nil => simp
  | cons v vs ih =>
    simp only [List.map_cons, List.sum_cons]
    have h₁ := edgeBacking_le (hnd v List.mem_cons_self) (hw v List.mem_cons_self) c
    have h₂ := ih (fun v' hv' => hnd v' (List.mem_cons_of_mem v hv'))
      (fun v' hv' => hw v' (List.mem_cons_of_mem v hv'))
    omega

theorem backing_eq_zero (h : ∀ v ∈ voters, ∀ e ∈ v.edges, e.weight = 0) (c : Nat) :
    backing voters c = 0 := by
  apply List.sum_eq_zero
  intro x hx
  obtain ⟨v, hv, rfl⟩ := List.mem_map.mp hx
  apply List.sum_eq_zero
  intro y hy
  obtain ⟨e, he, rfl⟩ := List.mem_map.mp hy
  exact h v hv e (List.mem_filter.mp he).1

theorem sum_backing_le (cs : List Nat) (hcs : cs.Nodup) (voters : List (Voter A)) :
    (cs.map (backing voters)).sum ≤ (voters.map fun v => (v.edges.map Edge.weight).sum).sum := by
  induction voters with
  | nil =>
    rw [List.sum_eq_zero]
    · exact Nat.zero_le _
    · intro x hx
      obtain ⟨c, _, rfl⟩ := List.mem_map.mp hx
      rfl
  | cons v vs ih =>
    have hsplit : (cs.map (backing (v :: vs))).sum =
        (cs.map (edgeBacking v.edges)).sum + (cs.map (backing vs)).sum := by
      rw [← List.sum_map_add, List.map_congr_left fun c _ => backing_cons v vs c]
    have hv : (cs.map (edgeBacking v.edges)).sum ≤ (v.edges.map Edge.weight).sum := sum_tally_le cs hcs v.edges
    rw [hsplit, List.map_cons, List.sum_cons]
    omega

/-! ## One edge at a time -/

/-- **The ledger step**: an edge changes its weight, and its candidate's backed
stake loses the old weight and gains the new one; with the edges' candidates
distinct, and no saturation, the backed stakes stay what the edges give. -/
theorem LocalOk.replace {done rest : List (Edge A)}
    {e e' : Edge A} (hok : LocalOk other cands (done ++ e :: rest))
    (hnd : ((done ++ e :: rest).map Edge.candidate).Nodup) (hc : e.candidate < cands.length)
    (he : e'.candidate = e.candidate) (hfit : other e.candidate + e'.weight ≤ u128Max) {f : Nat → Nat}
    (hf : f (backedOf cands e.candidate) = u128SaturatingAdd (backedOf cands e.candidate - e.weight) e'.weight) :
    LocalOk other (setBacked cands e.candidate f) (done ++ e' :: rest) := by
  intro c hc'
  rw [length_setBacked] at hc'
  rw [backedOf_setBacked hc']
  have hnd' : ((done ++ e' :: rest).map Edge.candidate).Nodup := by
    simpa [he] using hnd
  by_cases hce : e.candidate = c
  · -- the edge's own candidate: its backed stake was `other` plus the old weight
    subst hce
    rw [if_pos rfl, hf, hok _ hc]
    have hold : edgeBacking (done ++ e :: rest) e.candidate = e.weight :=
      tally_of_mem hnd (List.mem_append_right done List.mem_cons_self)
    have hnew : edgeBacking (done ++ e' :: rest) e.candidate = e'.weight := by
      rw [← he]
      exact tally_of_mem hnd' (List.mem_append_right done List.mem_cons_self)
    rw [hold, hnew, Nat.add_sub_cancel, u128SaturatingAdd, min_eq_left hfit]
  · rw [if_neg hce, hok c hc']
    have := tally_replace Edge.candidate Edge.weight done rest he c
    simp only [if_neg hce, Nat.add_zero] at this
    unfold edgeBacking
    rw [this]

/-- The ledger step at a position of the voter's edges. -/
theorem LocalOk.modify {j : Nat}
    (hok : LocalOk other cands es) (hnd : (es.map Edge.candidate).Nodup) (hj : j < es.length)
    (hc : es[j].candidate < cands.length) {w : Nat} (hfit : other es[j].candidate + w ≤ u128Max) {f : Nat → Nat}
    (hf : f (backedOf cands es[j].candidate) = u128SaturatingAdd (backedOf cands es[j].candidate - es[j].weight) w) :
    LocalOk other (setBacked cands es[j].candidate f) (es.modify j fun e => { e with weight := w }) := by
  have hsplit : es = es.take j ++ es[j] :: es.drop (j + 1) := by
    rw [← List.drop_eq_getElem_cons hj, List.take_append_drop]
  rw [List.modify_eq_take_cons_drop hj]
  rw [hsplit] at hok hnd
  refine hok.replace hnd hc ?_ hfit hf
  rfl

theorem map_candidate_modify (es : List (Edge A)) (j w : Nat) :
    (es.modify j fun e => { e with weight := w }).map Edge.candidate = es.map Edge.candidate := by
  apply List.ext_getElem
  · simp
  · intro i h₁ h₂
    simp only [List.getElem_map, List.getElem_modify]
    split <;> rfl

theorem LocalOk.backing_eq
    (hok : LocalOk (fun c => backing pre c + backing post c) cands v.edges) :
    ∀ c < cands.length, backedOf cands c = backing (pre ++ v :: post) c := fun c hc => by
  rw [hok c hc, backing_middle]

theorem localOk_of_backing
    (h : ∀ c < cands.length, backedOf cands c = backing (pre ++ v :: post) c) :
    LocalOk (fun c => backing pre c + backing post c) cands v.edges := fun c hc => by
  rw [h c hc, backing_middle]

/-! ## `setup_inputs` -/

theorem nodup_candidate_of_who {g : Nat → Option A} (hnd : (es.map Edge.who).Nodup)
    (hg : ∀ e ∈ es, g e.candidate = some e.who) : (es.map Edge.candidate).Nodup := by
  apply List.Nodup.of_map g
  have h : (es.map Edge.candidate).map g = (es.map Edge.who).map some := by
    rw [List.map_map, List.map_map]
    exact List.map_congr_left hg
  rw [h]
  exact hnd.map (Option.some_injective A)

section Setup

variable [DecidableEq A]

/-- What `setup_inputs` never changes in a candidate, and what the final loop
starts from: its account, its backed stake, its elected flag. -/
def Candidate.setupShape (c : Candidate A) : A × Nat × Bool := (c.who, c.backedStake, c.elected)

theorem foldl_update_mem (l : List (A × Nat)) :
    ∀ (cache : A → Option Nat) (who : A) (idx : Nat),
      (l.foldl (fun (cache : A → Option Nat) (p : A × Nat) => Function.update cache p.1 (some p.2)) cache)
        who = some idx →
      cache who = some idx ∨ (who, idx) ∈ l := by
  induction l with
  | nil => exact fun cache who idx h => .inl h
  | cons p l ih =>
    intro cache who idx h
    rcases ih _ who idx h with h | h
    · dsimp only at h
      by_cases hw : who = p.1
      · subst hw
        rw [Function.update_self, Option.some.injEq] at h
        exact .inr (h ▸ List.mem_cons_self)
      · rw [Function.update_of_ne hw] at h
        exact .inl h
    · exact .inr (List.mem_cons_of_mem p h)

variable {initialCandidates : List A}

theorem cIdxCache_spec {who : A} {idx : Nat}
    (h : cIdxCache initialCandidates who = some idx) :
    ∃ h : idx < initialCandidates.length, initialCandidates[idx] = who := by
  rcases foldl_update_mem _ _ who idx h with h | h
  · cases h
  · obtain ⟨hlt, heq⟩ := List.getElem?_eq_some_iff.mp (List.mem_zipIdx_iff_getElem?.mp h)
    exact ⟨hlt, heq⟩

theorem voterEdges_spec (cache : A → Option Nat) (voterStake : Nat) :
    ∀ (votes : List A) (cands cands' : List (Candidate A)) (edges edges' : List (Edge A)),
      (∀ c ∈ cands, c.approvalStake ≤ u128Max) → (edges.map Edge.who).Nodup →
      voterEdges cache voterStake (cands, edges) votes = (cands', edges') →
      cands'.map Candidate.setupShape = cands.map Candidate.setupShape ∧ (∀ c ∈ cands', c.approvalStake ≤ u128Max) ∧
        (edges'.map Edge.who).Nodup ∧
        ∀ e ∈ edges', e ∈ edges ∨ (cache e.who = some e.candidate ∧ e.weight = 0 ∧ e.load = ⟨0, 0⟩)
  | [], cands, cands', edges, edges', happ, hnd, h => by
    simp only [voterEdges, Prod.mk.injEq] at h
    obtain ⟨rfl, rfl⟩ := h
    exact ⟨rfl, happ, hnd, fun e he => .inl he⟩
  | v :: votes, cands, cands', edges, edges', happ, hnd, h => by
    unfold voterEdges at h
    split at h
    · -- a duplicate vote
      exact voterEdges_spec cache voterStake votes cands cands' edges edges' happ hnd h
    · rename_i hdup
      split at h
      · rename_i idx hidx
        have happ' : ∀ c ∈ cands.modify idx (fun c =>
            { c with approvalStake := u128SaturatingAdd c.approvalStake voterStake }), c.approvalStake ≤ u128Max := by
          intro c hc
          obtain ⟨j, hj, rfl⟩ := List.getElem_of_mem hc
          rw [List.getElem_modify]
          split
          · exact min_le_right _ _
          · exact happ _ (List.getElem_mem _)
        have hnd' : ((edges ++ [(⟨v, ⟨0, 0⟩, idx, 0⟩ : Edge A)]).map Edge.who).Nodup := by
          rw [List.map_append, List.nodup_append]
          refine ⟨hnd, List.nodup_singleton _, ?_⟩
          intro a ha b hb hab
          simp only [List.map_cons, List.map_nil, List.mem_singleton] at hb
          subst hb hab
          obtain ⟨e, he, rfl⟩ := List.mem_map.mp ha
          simp only [List.any_eq_true, beq_iff_eq, not_exists, not_and] at hdup
          exact hdup e he rfl
        obtain ⟨h₁, h₂, h₃, h₄⟩ := voterEdges_spec cache voterStake votes _ _ _ _ happ' hnd' h
        refine ⟨?_, h₂, h₃, fun e he => ?_⟩
        · rw [h₁]
          apply List.ext_getElem
          · simp
          · intro j h₁ h₂
            simp only [List.getElem_map, List.getElem_modify]
            split <;> rfl
        · rcases h₄ e he with he | he
          · rcases List.mem_append.mp he with he | he
            · exact .inl he
            · rw [List.mem_singleton] at he
              subst he
              exact .inr ⟨hidx, rfl, rfl⟩
          · exact .inr he
      · exact voterEdges_spec cache voterStake votes cands cands' edges edges' happ hnd h

/-- What `setup_inputs` gives each voter, before any round. -/
structure SetupVoter (cache : A → Option Nat) (v : Voter A) : Prop where
  load_eq : v.load = Rational128.zero
  who_nodup : (v.edges.map Edge.who).Nodup
  edge_fresh : ∀ e ∈ v.edges, cache e.who = some e.candidate ∧ e.weight = 0 ∧ e.load = ⟨0, 0⟩

theorem setupVoters_spec (cache : A → Option Nat) :
    ∀ (initialVoters : List (A × Nat × List A)) (cands cands' : List (Candidate A)) (voters : List (Voter A)),
      (∀ c ∈ cands, c.approvalStake ≤ u128Max) → setupVoters cache cands initialVoters = (cands', voters) →
      cands'.map Candidate.setupShape = cands.map Candidate.setupShape ∧ (∀ c ∈ cands', c.approvalStake ≤ u128Max) ∧
        (voters.map Voter.budget).Sublist (initialVoters.map fun x => x.2.1) ∧ ∀ v ∈ voters, SetupVoter cache v
  | [], cands, cands', voters, happ, h => by
    simp only [setupVoters, Prod.mk.injEq] at h
    obtain ⟨rfl, rfl⟩ := h
    exact ⟨rfl, happ, List.Sublist.slnil, fun v hv => by cases hv⟩
  | (who, voterStake, votes) :: rest, cands, cands', voters, happ, h => by
    simp only [setupVoters, Prod.mk.injEq] at h
    obtain ⟨hc, rfl⟩ := h
    generalize hr : voterEdges cache voterStake (cands, []) votes = r at hc
    obtain ⟨h₁, h₂, h₃, h₄⟩ := voterEdges_spec cache voterStake votes cands r.1 [] r.2 happ List.nodup_nil hr
    generalize hs : setupVoters cache r.1 rest = s at hc
    obtain ⟨k₁, k₂, k₃, k₄⟩ := setupVoters_spec cache rest r.1 s.1 s.2 h₂ hs
    subst hc
    refine ⟨k₁.trans h₁, k₂, ?_, ?_⟩
    · split
      · exact k₃.cons _
      · simpa using k₃.cons_cons voterStake
    · intro v hv
      split at hv
      · exact k₄ v hv
      · rcases List.mem_cons.mp hv with rfl | hv
        · refine ⟨rfl, h₃, fun e he => ?_⟩
          rcases h₄ e he with he | he
          · cases he
          · exact he
        · exact k₄ v hv

theorem setupInputs_spec {initialVoters : List (A × Nat × List A)}
    (hstake : ∀ x ∈ initialVoters, x.2.1 < 2 ^ 64)
    (h : setupInputs initialCandidates initialVoters = (cands, voters)) :
    RoundInv cands voters ⟨0, den⟩ ∧ cands.length = initialCandidates.length ∧ (∀ c ∈ cands, c.backedStake = 0) ∧
      (voters.map Voter.budget).Sublist (initialVoters.map fun x => x.2.1) ∧
      ∀ v ∈ voters, (v.edges.map Edge.candidate).Nodup ∧ ∀ e ∈ v.edges, e.weight = 0 := by
  obtain ⟨h₁, h₂, h₃, h₄⟩ := setupVoters_spec _ initialVoters _ cands voters
    (fun c hc => by obtain ⟨w, -, rfl⟩ := List.mem_map.mp hc; exact Nat.zero_le _) h
  have hshape : cands.map Candidate.setupShape = initialCandidates.map fun w => (w, 0, false) := by
    rw [h₁, List.map_map]
    rfl
  have hlen : cands.length = initialCandidates.length := by simpa using congrArg List.length hshape
  -- each candidate is its account's, unelected and unbacked
  have hmem : ∀ c ∈ cands, c.backedStake = 0 ∧ c.elected = false := by
    intro c hc
    have := List.mem_map_of_mem (f := Candidate.setupShape) hc
    rw [hshape] at this
    obtain ⟨w, -, hw⟩ := List.mem_map.mp this
    simp only [Candidate.setupShape, Prod.mk.injEq] at hw
    exact ⟨hw.2.1.symm, hw.2.2.symm⟩
  have hwho : ∀ i (hi : i < cands.length), cands[i].who = initialCandidates[i] := by
    intro i hi
    have := congrArg (·[i]?) hshape
    simp only [List.getElem?_map, List.getElem?_eq_getElem hi, List.getElem?_eq_getElem (hlen ▸ hi),
      Option.map_some, Option.some.injEq, Candidate.setupShape, Prod.mk.injEq] at this
    exact this.1
  -- an edge names the position of its account
  have hptr : ∀ v ∈ voters, ∀ e ∈ v.edges, ∃ h : e.candidate < cands.length, cands[e.candidate].who = e.who := by
    intro v hv e he
    obtain ⟨hlt, hL⟩ := cIdxCache_spec ((h₄ v hv).edge_fresh e he).1
    exact ⟨hlen ▸ hlt, (hwho _ _).trans hL⟩
  have hunelected : ∀ i, isElected cands i = false := by
    intro i
    unfold isElected
    cases hi : cands[i]? with
    | none => rfl
    | some c => exact (hmem c (List.mem_of_getElem? hi)).2
  refine ⟨⟨.inr ⟨rfl, Nat.zero_le _⟩, h₂, ?_, hptr, ?_, ?_, ?_, ?_⟩, hlen, fun c hc => (hmem c hc).1, h₃, ?_⟩
  · intro v hv
    obtain ⟨x, hx, hxv⟩ := List.mem_map.mp (h₃.subset (List.mem_map_of_mem hv))
    have := hstake x hx
    omega
  · intro v hv
    rw [(h₄ v hv).load_eq]
    exact Nat.le_refl 0
  · intro v hv e he
    rw [((h₄ v hv).edge_fresh e he).2.2]
    exact Nat.zero_le _
  · intro v hv e he hel
    rw [hunelected] at hel
    cases hel
  · intro cs' _ i hi _
    rw [scoreKey, if_pos rfl]
    exact Nat.zero_le _
  · intro v hv
    refine ⟨nodup_candidate_of_who (g := fun i => initialCandidates[i]?) (h₄ v hv).who_nodup ?_,
      fun e he => ((h₄ v hv).edge_fresh e he).2.1⟩
    intro e he
    obtain ⟨hlt, hL⟩ := cIdxCache_spec ((h₄ v hv).edge_fresh e he).1
    exact List.getElem?_eq_some_iff.mpr ⟨hlt, hL⟩

end Setup

/-! ## The final loop of `seq_phragmen_core` -/

section FinalLoop

variable {other : Nat → Nat}

variable {voter : Voter A}

theorem backEdge_spec {done rest : List (Edge A)} {e : Edge A}
    (hok : LocalOk other cands (done ++ e :: rest)) (hnd : ((done ++ e :: rest).map Edge.candidate).Nodup)
    (hc : e.candidate < cands.length) (hw : e.weight = 0) (hbudget : voter.budget < 2 ^ 128)
    (hload : voter.load.n < 2 ^ 128) (hle : e.load.n ≤ voter.load.n)
    (hpos : isElected cands e.candidate = true → 0 < voter.load.n) (hfit : other e.candidate + voter.budget ≤ u128Max) :
    ∃ cands' e', backEdge voter cands e = some (cands', e') ∧ e'.candidate = e.candidate ∧
      e'.weight ≤ voter.budget ∧ (0 < e'.weight → isElected cands e.candidate = true) ∧
      cands'.map Candidate.elected = cands.map Candidate.elected ∧ LocalOk other cands' (done ++ e' :: rest) := by
  -- the weight `multiply_by_rational` gives, or none off the elected
  obtain ⟨w, hw', hwle, hwpos⟩ : ∃ w, (if isElected cands e.candidate then
      mulRationalOrMax voter.budget e.load.n voter.load.n else some 0) = some w ∧ w ≤ voter.budget ∧
      (0 < w → isElected cands e.candidate = true) := by
    by_cases hel : isElected cands e.candidate = true
    · obtain ⟨v, hv, hvle⟩ :=
        multiplyByRational_le_left hbudget (lt_of_le_of_lt hle hload) hload hle (hpos hel)
      refine ⟨v, ?_, hvle, fun _ => hel⟩
      rw [if_pos hel, mulRationalOrMax, hv]
      rfl
    · exact ⟨0, by rw [if_neg hel], Nat.zero_le _, fun h => absurd h (lt_irrefl 0)⟩
  have hfit' : other e.candidate + w ≤ u128Max := le_trans (Nat.add_le_add_left hwle _) hfit
  refine ⟨_, { e with weight := w }, by rw [backEdge, hw']; rfl, rfl, hwle, hwpos, map_elected_setBacked .., ?_⟩
  refine hok.replace hnd hc ?_ hfit' ?_
  · rfl
  · rw [hw, Nat.sub_zero]

theorem backEdges_spec (hbudget : voter.budget < 2 ^ 128) (hload : voter.load.n < 2 ^ 128) :
    ∀ (es done : List (Edge A)) (cands : List (Candidate A)),
      LocalOk other cands (done ++ es) → ((done ++ es).map Edge.candidate).Nodup →
      (∀ e ∈ es, e.candidate < cands.length ∧ e.weight = 0 ∧ e.load.n ≤ voter.load.n ∧
        (isElected cands e.candidate = true → 0 < voter.load.n) ∧ other e.candidate + voter.budget ≤ u128Max) →
      ∃ cands' es', backEdges voter cands es = some (cands', es') ∧ es'.map Edge.candidate = es.map Edge.candidate ∧
        (∀ e ∈ es', e.weight ≤ voter.budget ∧ (0 < e.weight → isElected cands e.candidate = true)) ∧
        cands'.map Candidate.elected = cands.map Candidate.elected ∧ LocalOk other cands' (done ++ es')
  | [], done, cands, hok, _, _ => ⟨cands, [], rfl, rfl, (fun _ he => by cases he), rfl, hok⟩
  | e :: es, done, cands, hok, hnd, hes => by
    obtain ⟨hc, hw, hle, hpos, hfit⟩ := hes e List.mem_cons_self
    obtain ⟨cs, e', hstep, hcand, hwle, hwpos, hel, hok'⟩ := backEdge_spec hok hnd hc hw hbudget hload hle hpos hfit
    have hnd' : (((done ++ [e']) ++ es).map Edge.candidate).Nodup := by
      simpa [hcand] using hnd
    have hes' : ∀ x ∈ es, x.candidate < cs.length ∧ x.weight = 0 ∧ x.load.n ≤ voter.load.n ∧
        (isElected cs x.candidate = true → 0 < voter.load.n) ∧ other x.candidate + voter.budget ≤ u128Max := by
      intro x hx
      obtain ⟨h₁, h₂, h₃, h₄, h₅⟩ := hes x (List.mem_cons_of_mem e hx)
      rw [length_of_map_elected hel, isElected_of_map_elected hel]
      exact ⟨h₁, h₂, h₃, h₄, h₅⟩
    obtain ⟨cs', es', hrec, hmap, hws, hel', hok''⟩ :=
      backEdges_spec hbudget hload es (done ++ [e']) cs (by rwa [List.append_assoc, List.singleton_append]) hnd' hes'
    refine ⟨cs', e' :: es', ?_, ?_, ?_, hel'.trans hel, ?_⟩
    · simp only [backEdges, hstep, Option.bind_some, hrec, Option.map_some]
    · rw [List.map_cons, List.map_cons, hmap, hcand]
    · intro x hx
      rcases List.mem_cons.mp hx with rfl | hx
      · rw [hcand]
        exact ⟨hwle, hwpos⟩
      · obtain ⟨h₁, h₂⟩ := hws x hx
        refine ⟨h₁, fun h => ?_⟩
        rw [← isElected_of_map_elected hel]
        exact h₂ h
    · rwa [List.append_assoc, List.singleton_append] at hok''

theorem LocalOk.filter_pos {es : List (Edge A)} (hok : LocalOk other cands es) :
    LocalOk other cands (es.filter fun e => 0 < e.weight) := fun c hc => by
  rw [hok c hc]
  unfold edgeBacking
  rw [tally_filter_pos]

theorem correctElected_spec {B : Nat} :
    ∀ (es done : List (Edge A)) (cands : List (Candidate A)) (ns : List Nat),
      LocalOk other cands (done ++ es) → ((done ++ es).map Edge.candidate).Nodup →
      (∀ e ∈ es, e.candidate < cands.length ∧ isElected cands e.candidate = true ∧ other e.candidate + B ≤ u128Max) →
      (∀ n ∈ ns, n ≤ B) → ns.length = es.length →
      ∃ cands' es', correctElected cands es ns = (cands', es') ∧ es'.map Edge.weight = ns ∧
        es'.map Edge.candidate = es.map Edge.candidate ∧ cands'.map Candidate.elected = cands.map Candidate.elected ∧
        LocalOk other cands' (done ++ es')
  | [], done, cands, ns, hok, _, _, _, hlen => by
    rw [List.length_nil, List.length_eq_zero_iff] at hlen
    subst hlen
    exact ⟨cands, [], rfl, rfl, rfl, rfl, hok⟩
  | e :: es, done, cands, [], _, _, _, _, hlen => by cases hlen
  | e :: es, done, cands, n :: ns, hok, hnd, hes, hns, hlen => by
    obtain ⟨hc, hel, hfit⟩ := hes e List.mem_cons_self
    have hnB := hns n List.mem_cons_self
    have hfit' : other e.candidate + n ≤ u128Max := le_trans (Nat.add_le_add_left hnB _) hfit
    have hok' : LocalOk other (setBacked cands e.candidate fun b => u128SaturatingAdd (b - e.weight) n)
        (done ++ { e with weight := n } :: es) := by
      refine hok.replace hnd hc ?_ hfit' ?_ <;> rfl
    have hnd' : (((done ++ [{ e with weight := n }]) ++ es).map Edge.candidate).Nodup := by
      simpa using hnd
    have hes' : ∀ x ∈ es, x.candidate < (setBacked cands e.candidate fun b => u128SaturatingAdd (b - e.weight) n).length ∧
        isElected (setBacked cands e.candidate fun b => u128SaturatingAdd (b - e.weight) n) x.candidate = true ∧
        other x.candidate + B ≤ u128Max := by
      intro x hx
      rw [length_setBacked, isElected_setBacked]
      exact hes x (List.mem_cons_of_mem e hx)
    obtain ⟨cs', es', hrec, hw, hmap, hel', hok''⟩ := correctElected_spec es (done ++ [{ e with weight := n }]) _ ns
      (by rwa [List.append_assoc, List.singleton_append]) hnd' hes' (fun m hm => hns m (List.mem_cons_of_mem n hm))
      (by simpa using hlen)
    refine ⟨cs', { e with weight := n } :: es', ?_, ?_, ?_, ?_, ?_⟩
    · simp only [correctElected, if_pos hel, hrec]
    · rw [List.map_cons, hw]
    · rw [List.map_cons, List.map_cons, hmap]
    · rw [hel', map_elected_setBacked]
    · rwa [List.append_assoc, List.singleton_append] at hok''

theorem tryNormalizeElected_spec (hok : LocalOk other cands v.edges)
    (hnd : (v.edges.map Edge.candidate).Nodup)
    (hes : ∀ e ∈ v.edges, e.candidate < cands.length ∧ isElected cands e.candidate = true ∧
      other e.candidate + v.budget ≤ u128Max)
    (hsum : (v.edges.map Edge.weight).sum < 2 ^ 128) (hlen : v.edges.length < 2 ^ 128) :
    ∃ cands' v', tryNormalizeElected cands v = .ok (cands', v') ∧ v'.budget = v.budget ∧
      v'.edges.map Edge.candidate = v.edges.map Edge.candidate ∧
      (v.edges ≠ [] → (v'.edges.map Edge.weight).sum = v.budget) ∧
      cands'.map Candidate.elected = cands.map Candidate.elected ∧ LocalOk other cands' v'.edges := by
  -- every edge is elected, so all weights are normalized
  have hw : electedWeights cands v.edges = v.edges.map Edge.weight := by
    rw [electedWeights, List.filter_eq_self.mpr fun e he => (hes e he).2.1]
  obtain ⟨out, hout, hlen', hsum'⟩ :=
    normalize_spec (2 ^ 128) (v.edges.map Edge.weight) v.budget hsum (by rwa [List.length_map])
  have hle : ∀ n ∈ out, n ≤ v.budget := by
    intro n hn
    have hne : v.edges ≠ [] := by
      rintro hnil
      rw [hnil, List.map_nil, List.length_nil, List.length_eq_zero_iff] at hlen'
      rw [hlen'] at hn
      cases hn
    rw [← hsum' (by simpa using hne)]
    exact List.le_sum_of_mem hn
  obtain ⟨cs', es', hcor, hws, hmap, hel, hok'⟩ := correctElected_spec v.edges [] cands out hok hnd hes hle
    (by rw [hlen', List.length_map])
  refine ⟨cs', { v with edges := es' }, ?_, rfl, hmap, fun hne => ?_, hel, hok'⟩
  · rw [tryNormalizeElected, hw, hout]
    simp only [Except.map, hcor]
  · rw [hws]
    exact hsum' (by simpa using hne)

end FinalLoop

/-- What the final loop makes of a voter, and what `balance` keeps: the edges
point to distinct elected candidates and weigh the budget in all. -/
structure VoterOk (cands : List (Candidate A)) (v : Voter A) : Prop where
  edge_ptr : ∀ e ∈ v.edges, e.candidate < cands.length
  nodup : (v.edges.map Edge.candidate).Nodup
  elected : ∀ e ∈ v.edges, isElected cands e.candidate = true
  weight_sum : v.edges ≠ [] → (v.edges.map Edge.weight).sum = v.budget

theorem VoterOk.sum_le (h : VoterOk cands v) :
    (v.edges.map Edge.weight).sum ≤ v.budget := by
  by_cases hne : v.edges = []
  · simp [hne]
  · exact le_of_eq (h.weight_sum hne)

theorem VoterOk.weight_le (h : VoterOk cands v) :
    ∀ e ∈ v.edges, e.weight ≤ v.budget := fun _ he =>
  le_trans (List.le_sum_of_mem (List.mem_map_of_mem he)) h.sum_le

theorem VoterOk.of_elected (h : VoterOk cands v)
    (hel : cands'.map Candidate.elected = cands.map Candidate.elected) : VoterOk cands' v where
  edge_ptr e he := (length_of_map_elected hel).symm ▸ h.edge_ptr e he
  nodup := h.nodup
  elected e he := (isElected_of_map_elected hel _).trans (h.elected e he)
  weight_sum := h.weight_sum

/-- What the final loop needs of a voter it has not reached yet: the end of
the rounds, and the edges as `setup_inputs` made them. -/
structure FreshVoter (cands : List (Candidate A)) (v : Voter A) : Prop where
  budget_lt : v.budget < 2 ^ 64
  load_lt : v.load.n < 2 ^ 128
  edge_ptr : ∀ e ∈ v.edges, e.candidate < cands.length
  nodup : (v.edges.map Edge.candidate).Nodup
  weight_zero : ∀ e ∈ v.edges, e.weight = 0
  edge_load_le : ∀ e ∈ v.edges, e.load.n ≤ v.load.n
  elected_load_pos : ∀ e ∈ v.edges, isElected cands e.candidate = true → 0 < v.load.n

theorem FreshVoter.of_elected (h : FreshVoter cands v)
    (hel : cands'.map Candidate.elected = cands.map Candidate.elected) : FreshVoter cands' v where
  budget_lt := h.budget_lt
  load_lt := h.load_lt
  edge_ptr e he := (length_of_map_elected hel).symm ▸ h.edge_ptr e he
  nodup := h.nodup
  weight_zero := h.weight_zero
  edge_load_le := h.edge_load_le
  elected_load_pos e he := (isElected_of_map_elected hel _) ▸ h.elected_load_pos e he

theorem length_le_of_edge_ptr
    (hnd : (es.map Edge.candidate).Nodup) (hptr : ∀ e ∈ es, e.candidate < cands.length) :
    es.length ≤ cands.length := by
  have hsub : es.map Edge.candidate ⊆ List.range cands.length := by
    intro i hi
    obtain ⟨e, he, rfl⟩ := List.mem_map.mp hi
    exact List.mem_range.mpr (hptr e he)
  simpa using hnd.length_le_of_subset hsub

theorem exists_of_map_candidate {es es' : List (Edge A)} (h : es'.map Edge.candidate = es.map Edge.candidate)
    {e : Edge A} (he : e ∈ es') : ∃ e₀ ∈ es, e₀.candidate = e.candidate := by
  have := List.mem_map_of_mem (f := Edge.candidate) he
  rw [h] at this
  exact List.mem_map.mp this

theorem tryNormalizeElected_voterOk
    (hok : LocalOk other cands v.edges) (hnd : (v.edges.map Edge.candidate).Nodup)
    (hes : ∀ e ∈ v.edges, e.candidate < cands.length ∧ isElected cands e.candidate = true ∧
      other e.candidate + v.budget ≤ u128Max)
    (hsum : (v.edges.map Edge.weight).sum < 2 ^ 128) (hlen : v.edges.length < 2 ^ 128) :
    ∃ cands' v', tryNormalizeElected cands v = .ok (cands', v') ∧ v'.budget = v.budget ∧ VoterOk cands' v' ∧
      cands'.map Candidate.elected = cands.map Candidate.elected ∧ LocalOk other cands' v'.edges := by
  obtain ⟨cands', v', htry, hb, hmap', hsum', hel', hok'⟩ := tryNormalizeElected_spec hok hnd hes hsum hlen
  refine ⟨cands', v', htry, hb, ⟨?_, ?_, ?_, ?_⟩, hel', hok'⟩
  · intro e he
    obtain ⟨e₀, he₀, hc⟩ := exists_of_map_candidate hmap' he
    rw [length_of_map_elected hel', ← hc]
    exact (hes e₀ he₀).1
  · rw [hmap']
    exact hnd
  · intro e he
    obtain ⟨e₀, he₀, hc⟩ := exists_of_map_candidate hmap' he
    rw [isElected_of_map_elected hel', ← hc]
    exact (hes e₀ he₀).2.1
  · intro hne
    have hvne : v.edges ≠ [] := by
      intro h
      rw [h, List.map_nil, List.map_eq_nil_iff] at hmap'
      exact hne hmap'
    rw [hsum' hvne, hb]

theorem finalVoter_spec
    (hcands : cands.length < 2 ^ 64) (hv : FreshVoter cands v) (hok : LocalOk other cands v.edges)
    (hfit : ∀ c, other c + v.budget ≤ u128Max) :
    ∃ cs es cands' v', backEdges v cands v.edges = some (cs, es) ∧
      tryNormalizeElected cs { v with edges := es.filter fun e => 0 < e.weight } = .ok (cands', v') ∧
      v'.budget = v.budget ∧ VoterOk cands' v' ∧ cands'.map Candidate.elected = cands.map Candidate.elected ∧
      LocalOk other cands' v'.edges := by
  have hbudget : v.budget < 2 ^ 128 := lt_trans hv.budget_lt (by norm_num)
  obtain ⟨cs, es, hback, hmap, hws, hel, hok'⟩ := backEdges_spec hbudget hv.load_lt v.edges [] cands hok hv.nodup
    (fun e he => ⟨hv.edge_ptr e he, hv.weight_zero e he, hv.edge_load_le e he, hv.elected_load_pos e he, hfit _⟩)
  have hlen := length_of_map_elected hel
  -- the edges left after `retain`: distinct, elected, each at most the budget
  set kept := es.filter fun e => 0 < e.weight with hkept
  have hnde : (es.map Edge.candidate).Nodup := by
    rw [hmap]
    exact hv.nodup
  have hnd : (kept.map Edge.candidate).Nodup := hnde.sublist (List.filter_sublist.map _)
  have hmem : ∀ e ∈ kept, e ∈ es ∧ 0 < e.weight := fun e he => by
    simpa [hkept] using he
  have hes : ∀ e ∈ kept, e.candidate < cs.length ∧ isElected cs e.candidate = true ∧
      other e.candidate + v.budget ≤ u128Max := by
    intro e he
    obtain ⟨he, hpos⟩ := hmem e he
    obtain ⟨e₀, he₀, hc⟩ := exists_of_map_candidate hmap he
    refine ⟨?_, ?_, hfit _⟩
    · rw [hlen, ← hc]
      exact hv.edge_ptr e₀ he₀
    · rw [isElected_of_map_elected hel]
      exact (hws e he).2 hpos
  have hkeptlen : kept.length < 2 ^ 64 :=
    lt_of_le_of_lt (length_le_of_edge_ptr hnd fun e he => (hes e he).1) (hlen ▸ hcands)
  -- at most `2 ^ 64` edges of at most `2 ^ 64` each
  have hsum : (kept.map Edge.weight).sum < 2 ^ 128 := by
    have hle : (kept.map Edge.weight).sum ≤ kept.length * v.budget := by
      have := List.sum_le_card_nsmul (kept.map Edge.weight) v.budget fun w hw => by
        obtain ⟨e, he, rfl⟩ := List.mem_map.mp hw
        exact (hws e (hmem e he).1).1
      simpa using this
    calc (kept.map Edge.weight).sum ≤ kept.length * v.budget := hle
      _ < 2 ^ 64 * 2 ^ 64 := Nat.mul_lt_mul'' hkeptlen hv.budget_lt
      _ = 2 ^ 128 := by norm_num
  have hokk : LocalOk other cs kept := by
    rw [List.nil_append] at hok'
    exact hok'.filter_pos
  obtain ⟨cands', v', htry, hb, hvok, hel', hok''⟩ :=
    tryNormalizeElected_voterOk (v := { v with edges := kept }) hokk hnd hes hsum (lt_trans hkeptlen (by norm_num))
  exact ⟨cs, es, cands', v', hback, htry, hb, hvok, hel'.trans hel, hok''⟩

theorem finalLoop_spec :
    ∀ (vs pre : List (Voter A)) (cands : List (Candidate A)), cands.length < 2 ^ 64 →
      (∀ c < cands.length, backedOf cands c = backing pre c + backing vs c) → (∀ u ∈ pre, VoterOk cands u) →
      (∀ v ∈ vs, FreshVoter cands v) → (pre.map Voter.budget).sum + (vs.map Voter.budget).sum < u128Max →
      ∃ cands' vs', finalLoop cands vs = some (.ok (cands', vs')) ∧
        cands'.map Candidate.elected = cands.map Candidate.elected ∧ vs'.map Voter.budget = vs.map Voter.budget ∧
        (∀ c < cands.length, backedOf cands' c = backing (pre ++ vs') c) ∧ ∀ u ∈ pre ++ vs', VoterOk cands' u
  | [], pre, cands, _, hbk, hpre, _, _ => by
    refine ⟨cands, [], rfl, rfl, rfl, fun c hc => ?_, by simpa using hpre⟩
    rw [hbk c hc, List.append_nil, backing_nil, Nat.add_zero]
  | v :: post, pre, cands, hcands, hbk, hpre, hvs, htot => by
    have hv := hvs v List.mem_cons_self
    have hpost : ∀ u ∈ post, FreshVoter cands u := fun u hu => hvs u (List.mem_cons_of_mem v hu)
    have hok : LocalOk (fun c => backing pre c + backing post c) cands v.edges := fun c hc => by
      dsimp only
      rw [hbk c hc, backing_cons]
      omega
    -- the other voters back a candidate with at most their budgets
    have hfit : ∀ c, (backing pre c + backing post c) + v.budget ≤ u128Max := by
      intro c
      have h₁ := backing_le (fun u hu => (hpre u hu).nodup) (fun u hu => (hpre u hu).weight_le) c
      have h₂ := backing_le (fun u hu => (hpost u hu).nodup)
        (fun u hu e he => ((hpost u hu).weight_zero e he).trans_le (Nat.zero_le _)) c
      simp only [List.map_cons, List.sum_cons] at htot
      omega
    obtain ⟨cs, es, cands', v', hback, htry, hb, hv', hel, hok'⟩ := finalVoter_spec hcands hv hok hfit
    have hlen := length_of_map_elected hel
    have hbk' : ∀ c < cands'.length, backedOf cands' c = backing (pre ++ [v']) c + backing post c := by
      intro c hc
      have h := hok' c hc
      dsimp only at h
      rw [h, backing_append, backing_cons, backing_nil]
      omega
    have hpre' : ∀ u ∈ pre ++ [v'], VoterOk cands' u := by
      intro u hu
      rcases List.mem_append.mp hu with hu | hu
      · exact (hpre u hu).of_elected hel
      · rw [List.mem_singleton.mp hu]
        exact hv'
    have htot' : ((pre ++ [v']).map Voter.budget).sum + (post.map Voter.budget).sum < u128Max := by
      simp only [List.map_cons, List.sum_cons] at htot
      simp only [List.map_append, List.map_cons, List.map_nil, List.sum_append, List.sum_cons, List.sum_nil, hb]
      omega
    obtain ⟨cf, post', hfin, hel', hbud, hbkf, hokf⟩ := finalLoop_spec post (pre ++ [v']) cands' (hlen ▸ hcands)
      hbk' hpre' (fun u hu => (hpost u hu).of_elected hel) htot'
    refine ⟨cf, v' :: post', ?_, hel'.trans hel, ?_, fun c hc => ?_, fun u hu => hokf u (by simpa using hu)⟩
    · simp only [finalLoop, hback, Option.bind_some, htry, hfin, Option.map_some, Except.map]
    · rw [List.map_cons, List.map_cons, hbud, hb]
    · rw [hbkf c (hlen ▸ hc), List.append_assoc, List.singleton_append]

/-- What holds after `seq_phragmen_core` and after each `balance`: fewer than
`2 ^ 64` candidates, budgets that fit in `u128` together, every voter
`VoterOk`, and every backed stake what the edges give. -/
structure PhragmenInv (cands : List (Candidate A)) (voters : List (Voter A)) : Prop where
  cands_lt : cands.length < 2 ^ 64
  total_lt : (voters.map Voter.budget).sum < u128Max
  voter_ok : ∀ v ∈ voters, VoterOk cands v
  backed_eq : ∀ c < cands.length, backedOf cands c = backing voters c

/-! ## `seq_phragmen_core` -/

theorem Voter.budget_of_frame (h : u.frame = u₀.frame) : u.budget = u₀.budget :=
  congrArg Prod.fst h

theorem Voter.map_of_frame (h : u.frame = u₀.frame) {β : Type} (f : Nat × Nat → β) :
    u.edges.map (fun e => f (e.candidate, e.weight)) = u₀.edges.map (fun e => f (e.candidate, e.weight)) := by
  have := congrArg (fun x => x.2.map fun t => f t.2) h
  simpa [Voter.frame, List.map_map, Function.comp_def] using this

theorem exists_of_frame {voters voters' : List (Voter A)} (h : voters'.map Voter.frame = voters.map Voter.frame)
    {u : Voter A} (hu : u ∈ voters') : ∃ u₀ ∈ voters, u₀.frame = u.frame := by
  have := List.mem_map_of_mem (f := Voter.frame) hu
  rw [h] at this
  exact List.mem_map.mp this

theorem sum_stake_lt {initialVoters : List (A × Nat × List A)} (hvoters : initialVoters.length < 2 ^ 64)
    (hstake : ∀ x ∈ initialVoters, x.2.1 < 2 ^ 64) :
    (initialVoters.map fun x => x.2.1).sum < u128Max := by
  have h₁ : (initialVoters.map fun x => x.2.1).sum ≤ initialVoters.length * (2 ^ 64 - 1) := by
    have := List.sum_le_card_nsmul (initialVoters.map fun x => x.2.1) (2 ^ 64 - 1) fun s hs => by
      obtain ⟨x, hx, rfl⟩ := List.mem_map.mp hs
      have := hstake x hx
      omega
    simpa using this
  have h₂ : initialVoters.length * (2 ^ 64 - 1) ≤ (2 ^ 64 - 1) * (2 ^ 64 - 1) :=
    Nat.mul_le_mul_right _ (by omega)
  calc (initialVoters.map fun x => x.2.1).sum ≤ (2 ^ 64 - 1) * (2 ^ 64 - 1) := h₁.trans h₂
    _ < u128Max := by norm_num [u128Max]

section Core

variable [DecidableEq A]

/-- **`seq_phragmen_core` keeps the books**: from the output of
`setup_inputs`, a successful run leaves `PhragmenInv`. -/
theorem seqPhragmenCore_inv {initialCandidates : List A} {initialVoters : List (A × Nat × List A)} {toElect : Nat}
    (hcands : initialCandidates.length < 2 ^ 64)
    (hvoters : initialVoters.length < 2 ^ 64) (hstake : ∀ x ∈ initialVoters, x.2.1 < 2 ^ 64)
    (h : seqPhragmenCore toElect (setupInputs initialCandidates initialVoters).1
      (setupInputs initialCandidates initialVoters).2 = some (.ok (cands, voters))) :
    PhragmenInv cands voters := by
  generalize hs : setupInputs initialCandidates initialVoters = s at h
  obtain ⟨c₀, v₀⟩ := s
  obtain ⟨hround, hlen₀, hback₀, hsub, hv₀⟩ := setupInputs_spec hstake hs
  obtain ⟨r, hr, hfin⟩ := Option.bind_eq_some_iff.mp h
  obtain ⟨hloads, hbase, hframe⟩ := electionRounds_spec _ _ c₀ v₀ _ r.1 r.2 hround hr
  -- the rounds keep the candidates' lengths and backed stakes, the voters' budgets and edges
  have hlen : r.1.length = initialCandidates.length := by
    rw [← hlen₀]
    simpa using congrArg List.length hbase
  have hbudgets : r.2.map Voter.budget = v₀.map Voter.budget := by
    have := congrArg (List.map Prod.fst) hframe
    simpa [List.map_map, Voter.frame, Function.comp_def] using this
  have hzero : ∀ c, backedOf r.1 c = 0 := by
    intro c
    unfold backedOf
    cases hc : r.1[c]? with
    | none => rfl
    | some x =>
      have := List.mem_map_of_mem (f := Candidate.base) (List.mem_of_getElem? hc)
      rw [hbase] at this
      obtain ⟨x₀, hx₀, hx⟩ := List.mem_map.mp this
      simp only [Candidate.base, Prod.mk.injEq] at hx
      simpa [← hx.2.2] using hback₀ x₀ hx₀
  have hfresh : ∀ u ∈ r.2, FreshVoter r.1 u := by
    intro u hu
    obtain ⟨u₀, hu₀, hf⟩ := exists_of_frame hframe hu
    have hcand : u.edges.map Edge.candidate = u₀.edges.map Edge.candidate := Voter.map_of_frame hf.symm Prod.fst
    have hweight : u.edges.map Edge.weight = u₀.edges.map Edge.weight := Voter.map_of_frame hf.symm Prod.snd
    refine ⟨?_, hloads.load_lt u hu, hloads.edge_ptr u hu, hcand ▸ (hv₀ u₀ hu₀).1, ?_,
      hloads.edge_load_le u hu, hloads.elected_load_pos u hu⟩
    · have hb : u.budget ∈ initialVoters.map fun x => x.2.1 := by
        rw [Voter.budget_of_frame hf.symm]
        exact hsub.subset (List.mem_map_of_mem hu₀)
      obtain ⟨x, hx, hxu⟩ := List.mem_map.mp hb
      rw [← hxu]
      exact hstake x hx
    · intro e he
      have := List.mem_map_of_mem (f := Edge.weight) he
      rw [hweight] at this
      obtain ⟨e₀, he₀, hw⟩ := List.mem_map.mp this
      rw [← hw]
      exact (hv₀ u₀ hu₀).2 e₀ he₀
  have htot : (r.2.map Voter.budget).sum < u128Max := by
    rw [hbudgets]
    exact lt_of_le_of_lt (hsub.sum_le_sum fun _ _ => Nat.zero_le _) (sum_stake_lt hvoters hstake)
  obtain ⟨cf, vf, hfin', hel, hbud, hbk, hok⟩ := finalLoop_spec r.2 [] r.1 (hlen ▸ hcands)
    (fun c _ => by
      rw [hzero, backing_nil, backing_eq_zero fun u hu => (hfresh u hu).weight_zero]) (fun u hu => by cases hu)
    hfresh (by simpa using htot)
  rw [hfin] at hfin'
  obtain ⟨rfl, rfl⟩ : cands = cf ∧ voters = vf := by simpa using hfin'
  have hlenf := length_of_map_elected hel
  refine ⟨hlenf ▸ hlen ▸ hcands, ?_, fun u hu => hok u (by simpa using hu), fun c hc => ?_⟩
  · rw [hbud]
    exact htot
  · rw [hbk c (hlenf ▸ hc)]
    rfl

end Core

end NposElections
