import Mathlib
import CherryNode.NposElections.Backing

/-!
# `balance` keeps the books

`balance_voter` takes a voter's weight off its elected candidates, sorts them
by what the other voters give them, lifts the least backed to a common level
with its budget (water-filling: `cumulativeLoop` finds how many, `spreadExcess`
lifts them) and normalizes the weights to the budget.  Every write goes through
the ledger step of `Backing`; the water-filling arithmetic keeps the lifted
weights within the budget, so the normalization gives the whole budget back
(`balanceVoter_spec`).  `balance_backing` is the result for an election, with
`balance` never reaching its `expect`s.
-/

namespace NposElections

open SpArithmetic Helpers128bit Tally

variable {A : Type} {other : Nat → Nat} {cands : List (Candidate A)} {v : Voter A}

/-! ## The ledger, one position at a time -/

variable {es : List (Edge A)} {α β : Type}

theorem LocalOk.backedOf_eq
    (hok : LocalOk other cands es) (hnd : (es.map Edge.candidate).Nodup) {e : Edge A} (he : e ∈ es)
    (hc : e.candidate < cands.length) : backedOf cands e.candidate = other e.candidate + e.weight := by
  rw [hok _ hc]
  unfold edgeBacking
  rw [tally_of_mem hnd he]

theorem edgeBacking_eq_zero (h : ∀ e ∈ es, e.weight = 0) (c : Nat) : edgeBacking es c = 0 := by
  apply List.sum_eq_zero
  intro x hx
  obtain ⟨e, he, rfl⟩ := List.mem_map.mp hx
  exact h e (List.mem_filter.mp he).1

theorem sum_weight_modify (es : List (Edge A)) {j : Nat} (hj : j < es.length) (w : Nat) :
    ((es.modify j fun e => { e with weight := w }).map Edge.weight).sum + es[j].weight =
      (es.map Edge.weight).sum + w := by
  have hsplit : es = es.take j ++ es[j] :: es.drop (j + 1) := by
    rw [← List.drop_eq_getElem_cons hj, List.take_append_drop]
  rw [List.modify_eq_take_cons_drop hj]
  conv => rhs; rw [hsplit]
  simp only [List.map_append, List.map_cons, List.sum_append, List.sum_cons]
  omega

theorem u128SaturatingAdd_zero {x : Nat} (hx : x ≤ u128Max) : u128SaturatingAdd x 0 = x := by
  rw [u128SaturatingAdd, Nat.add_zero, min_eq_left hx]

/-! ## "Remove all backings" -/

section Remove

variable {other : Nat → Nat}

theorem removeBackings_spec (hother : ∀ c, other c ≤ u128Max) :
    ∀ (ps : List (Edge A × Nat)) (cands : List (Candidate A)) (edges : List (Edge A)),
      LocalOk other cands edges → (edges.map Edge.candidate).Nodup → (ps.map Prod.snd).Nodup →
      (∀ p ∈ ps, ∃ h : p.2 < edges.length, edges[p.2] = p.1 ∧ p.1.candidate < cands.length) →
      (∀ i (h : i < edges.length), i ∉ ps.map Prod.snd → edges[i].weight = 0) →
      ∃ cands' edges', removeBackings cands edges ps = (cands', edges') ∧ LocalOk other cands' edges' ∧
        edges'.map Edge.candidate = edges.map Edge.candidate ∧
        cands'.map Candidate.elected = cands.map Candidate.elected ∧ ∀ e ∈ edges', e.weight = 0
  | [], cands, edges, hok, _, _, _, hzero => by
    refine ⟨cands, edges, rfl, hok, rfl, rfl, fun e he => ?_⟩
    obtain ⟨i, hi, rfl⟩ := List.getElem_of_mem he
    exact hzero i hi (List.not_mem_nil)
  | (e, j) :: rest, cands, edges, hok, hnd, hpos, hps, hzero => by
    obtain ⟨hj, hej, hc⟩ := hps (e, j) List.mem_cons_self
    dsimp only at hj hej hc
    rw [List.map_cons, List.nodup_cons] at hpos
    dsimp only at hpos
    -- the write at `j`: the weight goes, and so does the candidate's share of it
    have hc' : edges[j].candidate < cands.length := hej ▸ hc
    have hback := hok.backedOf_eq hnd (List.getElem_mem hj) hc'
    have hok' := hok.modify hnd hj hc' (w := 0) (by rw [Nat.add_zero]; exact hother _)
      (f := (· - e.weight)) (by rw [hback, Nat.add_sub_cancel, hej, Nat.add_sub_cancel, u128SaturatingAdd_zero (hother _)])
    rw [hej] at hok'
    have hlen : (edges.modify j fun e => { e with weight := 0 }).length = edges.length := List.length_modify _ _ _
    have hps' : ∀ p ∈ rest, ∃ h : p.2 < (edges.modify j fun e => { e with weight := 0 }).length,
        (edges.modify j fun e => { e with weight := 0 })[p.2] = p.1 ∧
          p.1.candidate < (setBacked cands e.candidate (· - e.weight)).length := by
      intro p hp
      obtain ⟨hp2, hpe, hpc⟩ := hps p (List.mem_cons_of_mem _ hp)
      have hne : j ≠ p.2 := fun h => hpos.1 (by rw [h]; exact List.mem_map_of_mem hp)
      refine ⟨hlen ▸ hp2, ?_, by rw [length_setBacked]; exact hpc⟩
      rw [List.getElem_modify, if_neg hne, hpe]
    -- the positions left to visit shrink by `j`, whose weight is now gone
    have hzero' : ∀ i (h : i < (edges.modify j fun e => { e with weight := 0 }).length), i ∉ rest.map Prod.snd →
        (edges.modify j fun e => { e with weight := 0 })[i].weight = 0 := by
      intro i hi hnot
      rw [List.getElem_modify]
      split
      · rfl
      · rename_i hji
        exact hzero i (hlen ▸ hi) fun hmem => by
          rcases List.mem_cons.mp hmem with h | h
          · exact hji h.symm
          · exact hnot h
    obtain ⟨cands', edges', hrec, hok'', hmap, hel, hw⟩ := removeBackings_spec hother rest _ _ hok'
      (by rw [map_candidate_modify]; exact hnd) hpos.2 hps' hzero'
    refine ⟨cands', edges', hrec, hok'', by rw [hmap, map_candidate_modify], ?_, hw⟩
    rw [hel, map_elected_setBacked]

end Remove

/-! ## "Do the final update" -/

section Spread

variable {other : Nat → Nat} {share lastStake : Nat}

/-- The lifting loop over the first sorted edges, each at a position that
weighs nothing yet: each edge takes the common level less what the others give
its candidate, so the total weight grows by the level for each edge, less the
others' part. -/
theorem spreadExcess_spec :
    ∀ (ps : List (Edge A × Nat)) (cands : List (Candidate A)) (edges : List (Edge A)),
      LocalOk other cands edges → (edges.map Edge.candidate).Nodup → (ps.map Prod.snd).Nodup →
      (∀ p ∈ ps, ∃ h : p.2 < edges.length, edges[p.2].candidate = p.1.candidate ∧ edges[p.2].weight = 0 ∧
        p.1.candidate < cands.length ∧ other p.1.candidate ≤ u128SaturatingAdd share lastStake) →
      ∃ cands' edges', spreadExcess share lastStake cands edges ps = (cands', edges') ∧ LocalOk other cands' edges' ∧
        edges'.map Edge.candidate = edges.map Edge.candidate ∧
        cands'.map Candidate.elected = cands.map Candidate.elected ∧
        (edges'.map Edge.weight).sum + (ps.map fun p => other p.1.candidate).sum =
          (edges.map Edge.weight).sum + ps.length * u128SaturatingAdd share lastStake
  | [], cands, edges, hok, _, _, _ => ⟨cands, edges, rfl, hok, rfl, rfl, by simp⟩
  | (e, j) :: rest, cands, edges, hok, hnd, hpos, hps => by
    obtain ⟨hj, hcand, hw0, hc, hle⟩ := hps (e, j) List.mem_cons_self
    dsimp only at hj hcand hw0 hc hle
    rw [List.map_cons, List.nodup_cons] at hpos
    dsimp only at hpos
    have hc' : edges[j].candidate < cands.length := hcand ▸ hc
    -- the candidate has only the others' backing now
    have hback : backedOf cands e.candidate = other e.candidate := by
      have := hok.backedOf_eq hnd (List.getElem_mem hj) hc'
      rw [hw0, Nat.add_zero, hcand] at this
      exact this
    have hw : u128SaturatingAdd share lastStake - backedOf cands e.candidate =
        u128SaturatingAdd share lastStake - other e.candidate := by
      rw [hback]
    have hfit : other edges[j].candidate + (u128SaturatingAdd share lastStake - backedOf cands e.candidate) ≤
        u128Max := by
      rw [hcand, hw, Nat.add_sub_cancel' hle]
      exact min_le_right _ _
    have hok' := hok.modify hnd hj hc' hfit
      (f := (u128SaturatingAdd · (u128SaturatingAdd share lastStake - backedOf cands e.candidate)))
      (by rw [hw0, Nat.sub_zero])
    rw [hcand] at hok'
    have hps' : ∀ p ∈ rest, ∃ h : p.2 < (edges.modify j fun x =>
          { x with weight := u128SaturatingAdd share lastStake - backedOf cands e.candidate }).length,
        (edges.modify j fun x => { x with weight := u128SaturatingAdd share lastStake - backedOf cands e.candidate })[p.2].candidate = p.1.candidate ∧
        (edges.modify j fun x => { x with weight := u128SaturatingAdd share lastStake - backedOf cands e.candidate })[p.2].weight = 0 ∧
        p.1.candidate < (setBacked cands e.candidate
          (u128SaturatingAdd · (u128SaturatingAdd share lastStake - backedOf cands e.candidate))).length ∧
        other p.1.candidate ≤ u128SaturatingAdd share lastStake := by
      intro p hp
      obtain ⟨hp2, hpc, hpw, hpl, hpo⟩ := hps p (List.mem_cons_of_mem _ hp)
      have hne : j ≠ p.2 := fun h => hpos.1 (by rw [h]; exact List.mem_map_of_mem hp)
      refine ⟨by rw [List.length_modify]; exact hp2, ?_, ?_, by rw [length_setBacked]; exact hpl, hpo⟩
      · rw [List.getElem_modify, if_neg hne, hpc]
      · rw [List.getElem_modify, if_neg hne, hpw]
    obtain ⟨cands', edges', hrec, hok'', hmap, hel, hsum⟩ :=
      spreadExcess_spec rest _ _ hok' (by rw [map_candidate_modify]; exact hnd) hpos.2 hps'
    refine ⟨cands', edges', hrec, hok'', by rw [hmap, map_candidate_modify], by rw [hel, map_elected_setBacked], ?_⟩
    -- the total: one more edge at the level, less the others' part
    have hmod := sum_weight_modify edges hj (u128SaturatingAdd share lastStake - backedOf cands e.candidate)
    rw [hw0, Nat.add_zero] at hmod
    rw [List.map_cons, List.sum_cons, List.length_cons, Nat.succ_mul]
    dsimp only
    omega

end Spread

/-! ## The loop over the sorted stakes -/

/-- The loop of `balance_voter` over the sorted backed stakes, from the `pre`
ones it has gone past: it stops after some `k` of them with their sum, and the
`k`-th, lifted to a level shared by all `k`, needs at most the budget more than
they have. -/
theorem cumulativeLoop_spec (budget : Nat) :
    ∀ (bs pre : List Nat), budget + (pre ++ bs).sum < u128Max →
      (∀ last, pre.getLast? = some last → last * pre.length ≤ budget + pre.sum) → 0 < (pre ++ bs).length →
      ∃ k last, 0 < k ∧ k ≤ (pre ++ bs).length ∧ (pre ++ bs)[k - 1]? = some last ∧
        cumulativeLoop budget pre.length pre.sum bs = (((pre ++ bs).take k).sum,
          if k = (pre ++ bs).length then none else some (k - 1)) ∧
        last * k ≤ budget + ((pre ++ bs).take k).sum
  | [], pre, _, hlast, hpos => by
    rw [List.append_nil] at hpos ⊢
    obtain ⟨last, hl⟩ := Option.isSome_iff_exists.mp (List.getLast?_isSome.mpr (List.ne_nil_of_length_pos hpos))
    refine ⟨pre.length, last, hpos, le_refl _, ?_, ?_, ?_⟩
    · rw [← hl, List.getLast?_eq_getElem?]
    · rw [List.take_length, if_pos rfl]
      rfl
    · rw [List.take_length]
      exact hlast last hl
  | b :: rest, pre, htot, hlast, hpos => by
    unfold cumulativeLoop
    have hsum : (pre ++ b :: rest).sum = pre.sum + b + rest.sum := by
      simp only [List.sum_append, List.sum_cons]
      omega
    by_cases hbreak : budget < u128SaturatingMul b pre.length - pre.sum
    · -- the stop, never at the first stake
      rw [if_pos hbreak]
      have hpre : 0 < pre.length := by
        rcases Nat.eq_zero_or_pos pre.length with h | h
        · rw [h, u128SaturatingMul, Nat.mul_zero, min_eq_left (Nat.zero_le _), Nat.zero_sub] at hbreak
          exact absurd hbreak (Nat.not_lt_zero _)
        · exact h
      obtain ⟨last, hl⟩ := Option.isSome_iff_exists.mp (List.getLast?_isSome.mpr (List.ne_nil_of_length_pos hpre))
      have hlen : pre.length < (pre ++ b :: rest).length := by simp
      refine ⟨pre.length, last, hpre, hlen.le, ?_, ?_, ?_⟩
      · rw [List.getElem?_append_left (by omega), ← hl, List.getLast?_eq_getElem?]
      · rw [List.take_left' rfl, if_neg hlen.ne]
      · rw [List.take_left' rfl]
        exact hlast last hl
    · rw [if_neg hbreak]
      -- `b` joins the stakes gone past: nothing saturates below the total
      have hmul : b * pre.length ≤ budget + pre.sum := by
        by_cases hfit : b * pre.length ≤ u128Max
        · rw [u128SaturatingMul, min_eq_left hfit] at hbreak
          omega
        · rw [u128SaturatingMul, min_eq_right (by omega)] at hbreak
          omega
      have hadd : u128SaturatingAdd pre.sum b = (pre ++ [b]).sum := by
        rw [u128SaturatingAdd, min_eq_left (by omega), List.sum_append, List.sum_singleton]
      have hlen : pre.length + 1 = (pre ++ [b]).length := by simp
      rw [hadd, hlen]
      have hlast' : ∀ last, (pre ++ [b]).getLast? = some last → last * (pre ++ [b]).length ≤ budget + (pre ++ [b]).sum := by
        intro last hl
        rw [List.getLast?_append, List.getLast?_singleton, Option.some_or, Option.some.injEq] at hl
        subst hl
        rw [← hlen, List.sum_append, List.sum_singleton, Nat.mul_succ]
        omega
      have heq : pre ++ [b] ++ rest = pre ++ b :: rest := by simp
      rw [← heq] at htot hpos ⊢
      exact cumulativeLoop_spec budget rest (pre ++ [b]) htot hlast' hpos

/-! ## The water-filling -/

theorem getElem_of_map_eq {f : α → β} {l l' : List α} (h : l'.map f = l.map f) {i : Nat}
    (hi' : i < l'.length) (hi : i < l.length) : f l'[i] = f l[i] := by
  have := congrArg (·[i]?) h
  simpa [List.getElem?_eq_getElem hi', List.getElem?_eq_getElem hi] using this

theorem le_of_mem_take_of_pairwise {α : Type} {f : α → Nat} {l : List α} (hl : l.Pairwise fun a b => f a ≤ f b)
    {k : Nat} {q : α} (hq : l[k - 1]? = some q) {p : α} (hp : p ∈ l.take k) : f p ≤ f q := by
  obtain ⟨j, hj, rfl⟩ := List.mem_iff_getElem.mp hp
  obtain ⟨hk, rfl⟩ := List.getElem?_eq_some_iff.mp hq
  rw [List.length_take] at hj
  rw [List.getElem_take]
  rcases Nat.lt_or_ge j (k - 1) with h | h
  · exact List.pairwise_iff_getElem.mp hl j (k - 1) _ hk h
  · have hjk : j = k - 1 := by omega
    subst hjk
    exact le_refl _

theorem level_le {budget cum last k : Nat} (hk : 0 < k) (hbound : last * k ≤ budget + cum) :
    (budget + cum - last * k) / k + last ≤ budget + cum := by
  have h₁ := Nat.div_le_self (budget + cum - last * k) k
  have h₂ : last ≤ last * k := Nat.le_mul_of_pos_right last hk
  omega

theorem spread_total_le {budget cum last k S : Nat} (hbound : last * k ≤ budget + cum)
    (hS : S + cum = k * ((budget + cum - last * k) / k + last)) : S ≤ budget := by
  have hq := Nat.mul_div_le (budget + cum - last * k) k
  rw [Nat.mul_add, Nat.mul_comm k last] at hS
  omega

theorem removeAll_spec
    (hother : ∀ c, other c ≤ u128Max) (hv : VoterOk cands v) (hok : LocalOk other cands v.edges) :
    ∃ cands' edges', removeBackings cands v.edges v.edges.zipIdx = (cands', edges') ∧ LocalOk other cands' edges' ∧
      edges'.map Edge.candidate = v.edges.map Edge.candidate ∧
      cands'.map Candidate.elected = cands.map Candidate.elected ∧ (∀ e ∈ edges', e.weight = 0) ∧
      ∀ c < cands'.length, backedOf cands' c = other c := by
  have hps : ∀ p ∈ v.edges.zipIdx, ∃ h : p.2 < v.edges.length, v.edges[p.2] = p.1 ∧ p.1.candidate < cands.length := by
    intro p hp
    obtain ⟨h, hp1⟩ := List.getElem?_eq_some_iff.mp (List.mem_zipIdx_iff_getElem?.mp hp)
    exact ⟨h, hp1, hp1 ▸ hv.edge_ptr _ (List.getElem_mem h)⟩
  -- every position is visited
  have hall : ∀ i (h : i < v.edges.length), i ∉ v.edges.zipIdx.map Prod.snd → v.edges[i].weight = 0 := by
    intro i hi hnot
    rw [List.zipIdx_map_snd, List.mem_range'_1] at hnot
    omega
  obtain ⟨cands', edges', hrem, hok', hmap, hel, hw⟩ :=
    removeBackings_spec hother v.edges.zipIdx cands v.edges hok hv.nodup (List.nodup_zipIdx_map_snd _) hps hall
  refine ⟨cands', edges', hrem, hok', hmap, hel, hw, fun c hc => ?_⟩
  rw [hok' c hc, edgeBacking_eq_zero hw, Nat.add_zero]

theorem waterFill_spec {O : Nat}
    (hsumO : ∀ cs : List Nat, cs.Nodup → (cs.map other).sum ≤ O) (hO : O + v.budget < u128Max)
    (hcands : cands.length < 2 ^ 64) (hv : VoterOk cands v) (hok : LocalOk other cands v.edges)
    (hne : v.edges ≠ []) :
    ∃ cands' v', waterFill cands v v.edges.zipIdx = some (cands', v') ∧ v'.budget = v.budget ∧
      VoterOk cands' v' ∧ cands'.map Candidate.elected = cands.map Candidate.elected ∧
      LocalOk other cands' v'.edges := by
  have hother : ∀ c, other c ≤ O := fun c => by simpa using hsumO [c] (List.nodup_singleton c)
  obtain ⟨cands₁, edges₁, hrem, hok₁, hmap₁, hel₁, hw₁, hback₁⟩ :=
    removeAll_spec (fun c => by have := hother c; omega) hv hok
  have hlen₁ := length_of_map_elected hel₁
  have hedges₁ : edges₁.length = v.edges.length := by simpa using congrArg List.length hmap₁
  -- the elected edges sorted by the others' backing of their candidates
  set sorted := List.insertionSort
    (fun p q : Edge A × Nat => backedOf cands₁ p.1.candidate ≤ backedOf cands₁ q.1.candidate) v.edges.zipIdx
    with hsorted
  have hperm : sorted.Perm v.edges.zipIdx := List.perm_insertionSort _ _
  have hpair : sorted.Pairwise fun p q => backedOf cands₁ p.1.candidate ≤ backedOf cands₁ q.1.candidate :=
    @List.pairwise_insertionSort _
      (fun p q : Edge A × Nat => backedOf cands₁ p.1.candidate ≤ backedOf cands₁ q.1.candidate) _
      ⟨fun _ _ => le_total _ _⟩ ⟨fun _ _ _ => le_trans⟩ v.edges.zipIdx
  have hmem : ∀ p ∈ sorted, ∃ h : p.2 < v.edges.length, v.edges[p.2] = p.1 := fun p hp =>
    List.getElem?_eq_some_iff.mp (List.mem_zipIdx_iff_getElem?.mp (hperm.subset hp))
  have hf : ∀ p ∈ sorted, backedOf cands₁ p.1.candidate = other p.1.candidate := by
    intro p hp
    obtain ⟨h, hp1⟩ := hmem p hp
    apply hback₁
    rw [hlen₁, ← hp1]
    exact hv.edge_ptr _ (List.getElem_mem h)
  have hcs : (sorted.map fun p => p.1.candidate).Nodup := by
    rw [(hperm.map _).nodup_iff]
    have h : (v.edges.zipIdx.map fun p => p.1.candidate) = (v.edges.zipIdx.map Prod.fst).map Edge.candidate := by
      rw [List.map_map]
      rfl
    rw [h, List.zipIdx_map_fst]
    exact hv.nodup
  -- the loop over the sorted stakes stops after `k` of them
  set bs := sorted.map fun p => backedOf cands₁ p.1.candidate with hbs
  have hbslen : bs.length = v.edges.length := by
    rw [hbs, List.length_map, hperm.length_eq, List.length_zipIdx]
  have hbssum : bs.sum ≤ O := by
    have h : bs = (sorted.map fun p => p.1.candidate).map other := by
      rw [hbs, List.map_map]
      exact List.map_congr_left hf
    rw [h]
    exact hsumO _ hcs
  obtain ⟨k, last, hk0, hkle, hlast, hloop, hbound⟩ := cumulativeLoop_spec v.budget bs []
    (by rw [List.nil_append]; omega) (fun _ h => by cases h)
    (by rw [List.nil_append, hbslen]; exact List.length_pos_of_ne_nil hne)
  simp only [List.nil_append, List.length_nil, List.sum_nil] at hkle hlast hloop hbound
  have hcumle : (bs.take k).sum ≤ bs.sum := (List.take_sublist k bs).sum_le_sum fun _ _ => Nat.zero_le _
  -- the budget and the stakes gone past fit in `u128`: nothing saturates
  have hadd : u128SaturatingAdd v.budget (bs.take k).sum = v.budget + (bs.take k).sum :=
    min_eq_left (by omega)
  have hmul : u128SaturatingMul last k = last * k := min_eq_left (by omega)
  have hlevel := level_le hk0 hbound
  have hT : u128SaturatingAdd ((v.budget + (bs.take k).sum - last * k) / k) last =
      (v.budget + (bs.take k).sum - last * k) / k + last := min_eq_left (by omega)
  obtain ⟨plast, hplast, hfl⟩ : ∃ p, sorted[k - 1]? = some p ∧ backedOf cands₁ p.1.candidate = last := by
    rw [hbs, List.getElem?_map] at hlast
    exact Option.map_eq_some_iff.mp hlast
  -- the lifting of the first `k`
  have hsnd : ((sorted.take k).map Prod.snd).Nodup := by
    have h : (sorted.map Prod.snd).Nodup := (hperm.map _).nodup_iff.mpr (List.nodup_zipIdx_map_snd _)
    exact h.sublist ((List.take_sublist k sorted).map _)
  have hps : ∀ p ∈ sorted.take k, ∃ h : p.2 < edges₁.length, edges₁[p.2].candidate = p.1.candidate ∧
      edges₁[p.2].weight = 0 ∧ p.1.candidate < cands₁.length ∧
      other p.1.candidate ≤ u128SaturatingAdd ((v.budget + (bs.take k).sum - last * k) / k) last := by
    intro p hp
    have hps := List.mem_of_mem_take hp
    obtain ⟨h, hp1⟩ := hmem p hps
    refine ⟨hedges₁ ▸ h, ?_, hw₁ _ (List.getElem_mem _), ?_, ?_⟩
    · rw [getElem_of_map_eq hmap₁ (hedges₁ ▸ h) h, hp1]
    · rw [hlen₁, ← hp1]
      exact hv.edge_ptr _ (List.getElem_mem h)
    · rw [← hf p hps, hT]
      have := le_of_mem_take_of_pairwise hpair hplast hp
      rw [hfl] at this
      exact this.trans (Nat.le_add_left _ _)
  obtain ⟨cands₂, edges₂, hspread, hok₂, hmap₂, hel₂, hsum₂⟩ :=
    spreadExcess_spec (sorted.take k) cands₁ edges₁ hok₁ (by rw [hmap₁]; exact hv.nodup) hsnd hps
  -- what the lifting gives adds up to at most the budget
  have hothers : ((sorted.take k).map fun p => other p.1.candidate).sum = (bs.take k).sum := by
    rw [hbs, ← List.map_take]
    congr 1
    exact List.map_congr_left fun p hp => (hf p (List.mem_of_mem_take hp)).symm
  have hw₀ : (edges₁.map Edge.weight).sum = 0 :=
    List.sum_eq_zero fun x hx => by
      obtain ⟨e, he, rfl⟩ := List.mem_map.mp hx
      exact hw₁ e he
  rw [hothers, hw₀, Nat.zero_add, List.length_take, min_eq_left (by rw [hperm.length_eq, List.length_zipIdx]; omega),
    hT] at hsum₂
  have htot₂ := spread_total_le hbound hsum₂
  -- the closing normalization succeeds
  have hmap₂' : edges₂.map Edge.candidate = v.edges.map Edge.candidate := hmap₂.trans hmap₁
  have hel₂' := hel₂.trans hel₁
  have hes : ∀ e ∈ edges₂, e.candidate < cands₂.length ∧ isElected cands₂ e.candidate = true ∧
      other e.candidate + v.budget ≤ u128Max := by
    intro e he
    obtain ⟨e₀, he₀, hc⟩ := exists_of_map_candidate hmap₂' he
    refine ⟨?_, ?_, by have := hother e.candidate; omega⟩
    · rw [length_of_map_elected hel₂', ← hc]
      exact hv.edge_ptr e₀ he₀
    · rw [isElected_of_map_elected hel₂', ← hc]
      exact hv.elected e₀ he₀
  have hlen₂ : edges₂.length < 2 ^ 128 := by
    have h := length_le_of_edge_ptr hv.nodup hv.edge_ptr
    have h' : edges₂.length = v.edges.length := by simpa using congrArg List.length hmap₂'
    omega
  obtain ⟨cands₃, v₃, htry, hb, hv₃, hel₃, hok₃⟩ := tryNormalizeElected_voterOk (v := { v with edges := edges₂ })
    hok₂ (by rw [hmap₂']; exact hv.nodup) hes
    (by show (edges₂.map Edge.weight).sum < 2 ^ 128; unfold u128Max at hO; omega) hlen₂
  refine ⟨cands₃, v₃, ?_, hb, hv₃, hel₃.trans hel₂', hok₃⟩
  have hidx : (if k = bs.length then none else some (k - 1)).getD (v.edges.zipIdx.length - 1) = k - 1 := by
    rw [List.length_zipIdx, ← hbslen]
    split
    · rename_i h
      rw [h, Option.getD_none]
    · rfl
  simp only [waterFill, hrem, ← hsorted, ← hbs, hloop, hidx, hplast, hfl, hadd, Nat.sub_add_cancel hk0, hmul,
    hspread, htry]

/-! ## `balance_voter` -/

theorem exists_bind_of_isSome {o : Option α} {g : α → Option β} {Q : β → Prop} (ho : o.isSome)
    (hg : ∀ a, o = some a → ∃ b, g a = some b ∧ Q b) : ∃ b, o.bind g = some b ∧ Q b := by
  obtain ⟨a, ha⟩ := Option.isSome_iff_exists.mp ho
  obtain ⟨b, hb, hQ⟩ := hg a ha
  exact ⟨b, by rw [ha, Option.bind_some, hb], hQ⟩

theorem balanceDifference_isSome (budget stakeUsed : Nat) {backedStakes : List Nat} (backingBackedStake : List Nat)
    (h : backedStakes ≠ []) : (balanceDifference budget stakeUsed backedStakes backingBackedStake).isSome := by
  unfold balanceDifference
  split
  · rename_i hpos
    cases hm : backingBackedStake.max? with
    | none => exact absurd (List.max?_eq_none_iff.mp hm) (List.ne_nil_of_length_pos hpos)
    | some m =>
      cases hn : backedStakes.min? with
      | none => exact absurd (List.min?_eq_none_iff.mp hn) h
      | some n => rfl
  · rfl

/-- **`balance_voter` keeps the books**: on a voter whose edges are all
elected, with the other voters' backing bounded as in `waterFill_spec`, it never
reaches an `expect`; the voter stays `VoterOk` and the ledger follows. -/
theorem balanceVoter_spec {O : Nat} (tolerance : Nat)
    (hsumO : ∀ cs : List Nat, cs.Nodup → (cs.map other).sum ≤ O) (hO : O + v.budget < u128Max)
    (hcands : cands.length < 2 ^ 64) (hv : VoterOk cands v) (hok : LocalOk other cands v.edges) :
    ∃ r, balanceVoter tolerance cands v = some r ∧ r.2.1.budget = v.budget ∧ VoterOk r.1 r.2.1 ∧
      r.1.map Candidate.elected = cands.map Candidate.elected ∧ LocalOk other r.1 r.2.1.edges := by
  -- every edge of the voter is elected
  have helected : electedEdges cands v.edges = v.edges.zipIdx := List.filter_eq_self.mpr fun p hp => by
    obtain ⟨h, hp1⟩ := List.getElem?_eq_some_iff.mp (List.mem_zipIdx_iff_getElem?.mp hp)
    rw [← hp1]
    exact hv.elected _ (List.getElem_mem h)
  unfold balanceVoter
  rw [helected]
  dsimp only
  split
  · -- "either empty, or a self vote"
    exact ⟨(cands, v, 0), rfl, rfl, hv, rfl, hok⟩
  · rename_i hlen
    have hne : v.edges ≠ [] := by
      intro h
      rw [h] at hlen
      exact hlen (by simp)
    refine exists_bind_of_isSome (balanceDifference_isSome _ _ _ ?_) fun d _ => ?_
    · simpa using hne
    split
    · -- the difference is within the tolerance
      exact ⟨(cands, v, d), rfl, rfl, hv, rfl, hok⟩
    · obtain ⟨cands', v', hwf, hb, hv', hel, hok'⟩ := waterFill_spec hsumO hO hcands hv hok hne
      exact ⟨(cands', v', d), by rw [hwf]; rfl, hb, hv', hel, hok'⟩

/-! ## `balance` -/

theorem sum_backing_others_le {pre post : List (Voter A)}
    (hok : ∀ u ∈ pre ++ post, VoterOk cands u) (cs : List Nat) (hcs : cs.Nodup) :
    (cs.map fun c => backing pre c + backing post c).sum ≤ ((pre ++ post).map Voter.budget).sum := by
  have hle : ∀ vs : List (Voter A), (∀ u ∈ vs, VoterOk cands u) →
      (cs.map (backing vs)).sum ≤ (vs.map Voter.budget).sum := fun vs hvs =>
    (sum_backing_le cs hcs vs).trans (List.sum_le_sum fun u hu => (hvs u hu).sum_le)
  rw [List.sum_map_add, List.map_append, List.sum_append]
  exact Nat.add_le_add (hle pre fun u hu => hok u (List.mem_append_left _ hu))
    (hle post fun u hu => hok u (List.mem_append_right _ hu))

theorem balanceRound_spec (tolerance : Nat) :
    ∀ (vs pre : List (Voter A)) (cands : List (Candidate A)), PhragmenInv cands (pre ++ vs) →
      ∃ r, balanceRound tolerance cands vs = some r ∧ r.2.1.map Voter.budget = vs.map Voter.budget ∧
        r.1.map Candidate.elected = cands.map Candidate.elected ∧ PhragmenInv r.1 (pre ++ r.2.1)
  | [], pre, cands, hinv => ⟨(cands, [], 0), rfl, rfl, rfl, hinv⟩
  | v :: post, pre, cands, hinv => by
    have hv := hinv.voter_ok v (by simp)
    have hothers : ∀ u ∈ pre ++ post, VoterOk cands u := fun u hu =>
      hinv.voter_ok u (by rcases List.mem_append.mp hu with h | h <;> simp [h])
    have hO : ((pre ++ post).map Voter.budget).sum + v.budget < u128Max := by
      have := hinv.total_lt
      simp only [List.map_append, List.map_cons, List.sum_append, List.sum_cons] at this ⊢
      omega
    obtain ⟨r, hr, hb, hv', hel, hok'⟩ := balanceVoter_spec tolerance (sum_backing_others_le hothers) hO
      hinv.cands_lt hv (localOk_of_backing hinv.backed_eq)
    have hlen := length_of_map_elected hel
    -- the voter replaced by what `balance_voter` made of it
    have hinv' : PhragmenInv r.1 ((pre ++ [r.2.1]) ++ post) := by
      refine ⟨hlen ▸ hinv.cands_lt, ?_, fun u hu => ?_, fun c hc => ?_⟩
      · have := hinv.total_lt
        simp only [List.map_append, List.map_cons, List.map_nil, List.sum_append, List.sum_cons, List.sum_nil,
          hb] at this ⊢
        omega
      · rcases List.mem_append.mp hu with hu | hu
        · rcases List.mem_append.mp hu with hu | hu
          · exact (hothers u (List.mem_append_left _ hu)).of_elected hel
          · rw [List.mem_singleton.mp hu]
            exact hv'
        · exact (hothers u (List.mem_append_right _ hu)).of_elected hel
      · rw [List.append_assoc, List.singleton_append]
        exact hok'.backing_eq c hc
    obtain ⟨s, hs, hbud, hel', hinvs⟩ := balanceRound_spec tolerance post (pre ++ [r.2.1]) r.1 hinv'
    refine ⟨(s.1, r.2.1 :: s.2.1, max r.2.2 s.2.2), ?_, ?_, hel'.trans hel, ?_⟩
    · simp only [balanceRound, hr, Option.bind_some, hs, Option.map_some]
    · rw [List.map_cons, List.map_cons, hbud, hb]
    · rwa [List.append_assoc, List.singleton_append] at hinvs

theorem balanceLoop_spec (iterations tolerance : Nat) :
    ∀ (fuel iter : Nat) (cands : List (Candidate A)) (voters : List (Voter A)), PhragmenInv cands voters →
      ∃ r, balanceLoop iterations tolerance fuel iter cands voters = some r ∧ PhragmenInv r.1 r.2.1
  | 0, iter, cands, voters, hinv => ⟨(cands, voters, iter), rfl, hinv⟩
  | fuel + 1, iter, cands, voters, hinv => by
    obtain ⟨r, hr, -, -, hinv'⟩ := balanceRound_spec tolerance voters [] cands (by rwa [List.nil_append])
    rw [List.nil_append] at hinv'
    simp only [balanceLoop, hr, Option.bind_some]
    split
    · exact ⟨_, rfl, hinv'⟩
    · exact balanceLoop_spec iterations tolerance fuel (iter + 1) r.1 r.2.1 hinv'

theorem balance_spec {voters : List (Voter A)} (iterations tolerance : Nat)
    (hinv : PhragmenInv cands voters) :
    ∃ r, balance cands voters iterations tolerance = some r ∧ PhragmenInv r.1 r.2.1 := by
  unfold balance
  split
  · exact ⟨_, rfl, hinv⟩
  · exact balanceLoop_spec iterations tolerance iterations 0 cands voters hinv

/-! ## Elections -/

section Election

variable [DecidableEq A]

/-- The states of an election that `balance` is run on: what
`seq_phragmen_core` makes of the output of `setup_inputs` (stakes are `u64`,
and there are fewer than `2 ^ 64` candidates and voters), and what `balance`
makes of such a state. -/
inductive ElectionReachable : List (Candidate A) → List (Voter A) → Prop
  | core (initialCandidates : List A) (initialVoters : List (A × Nat × List A)) (toElect : Nat)
      {cands : List (Candidate A)} {voters : List (Voter A)} (hcands : initialCandidates.length < 2 ^ 64)
      (hvoters : initialVoters.length < 2 ^ 64) (hstake : ∀ x ∈ initialVoters, x.2.1 < 2 ^ 64)
      (h : seqPhragmenCore toElect (setupInputs initialCandidates initialVoters).1
        (setupInputs initialCandidates initialVoters).2 = some (.ok (cands, voters))) :
      ElectionReachable cands voters
  | balance {cands : List (Candidate A)} {voters : List (Voter A)} (iterations tolerance : Nat)
      {r : List (Candidate A) × List (Voter A) × Nat} (hprev : ElectionReachable cands voters)
      (h : balance cands voters iterations tolerance = some r) : ElectionReachable r.1 r.2.1

theorem ElectionReachable.inv {voters : List (Voter A)}
    (h : ElectionReachable cands voters) : PhragmenInv cands voters := by
  induction h with
  | core _ _ _ hcands hvoters hstake h => exact seqPhragmenCore_inv hcands hvoters hstake h
  | balance iterations tolerance _ h ih =>
    obtain ⟨r', hr', hinv⟩ := balance_spec iterations tolerance ih
    rw [h, Option.some.injEq] at hr'
    rw [hr']
    exact hinv

/-- After `seq_phragmen_core` and after each `balance`: every candidate's
backed stake is the weight of the voters' edges to it, every voter with an
elected edge has its budget in the weights of its elected edges, and a further
`balance` never reaches an `expect`. -/
theorem balance_backing {cands : List (Candidate A)} {voters : List (Voter A)}
    (h : ElectionReachable cands voters) :
    (∀ c (hc : c < cands.length), cands[c].backedStake = backing voters c) ∧
    (∀ v ∈ voters, (∃ e ∈ v.edges, isElected cands e.candidate = true) →
      ((v.edges.filter fun e => isElected cands e.candidate).map Edge.weight).sum = v.budget) ∧
    ∀ iterations tolerance, ∃ r, balance cands voters iterations tolerance = some r := by
  have hinv := h.inv
  refine ⟨fun c hc => ?_, fun v hv ⟨e, he, _⟩ => ?_, fun iterations tolerance => ?_⟩
  · rw [← backedOf_eq_getElem hc]
    exact hinv.backed_eq c hc
  · have hvok := hinv.voter_ok v hv
    rw [List.filter_eq_self.mpr hvok.elected]
    exact hvok.weight_sum (List.ne_nil_of_mem he)
  · obtain ⟨r, hr, -⟩ := balance_spec iterations tolerance hinv
    exact ⟨r, hr⟩

theorem balance_backing_single_vote :
    let cands : List (Candidate Nat) := [⟨1, ⟨2 ^ 128 - 1, 2 ^ 128 - 1⟩, 1, 1, true, 0⟩]
    let voters : List (Voter Nat) := [⟨7, [⟨1, ⟨2 ^ 128 - 1, 2 ^ 128 - 1⟩, 0, 1⟩], 1, ⟨2 ^ 128 - 1, 2 ^ 128 - 1⟩⟩]
    ElectionReachable cands voters ∧
      (∀ c (hc : c < cands.length), cands[c].backedStake = backing voters c) ∧
      (∀ v ∈ voters, (∃ e ∈ v.edges, isElected cands e.candidate = true) →
        ((v.edges.filter fun e => isElected cands e.candidate).map Edge.weight).sum = v.budget) ∧
      ∀ iterations tolerance, ∃ r, balance cands voters iterations tolerance = some r := by
  intro cands voters
  have h : ElectionReachable cands voters := .core [1] [(7, 1, [1])] 1 (by decide) (by decide) (by decide) rfl
  exact ⟨h, balance_backing h⟩

end Election

end NposElections
