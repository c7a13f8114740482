import Mathlib
import CherryNode.NposElections.Phragmen

/-!
# The rounds of `seq_phragmen_core`: loads only grow

A round gives each candidate not elected a fresh score, `1 / approval_stake`
over `DEN` (the maximum without approval), adds in each voter's load in the
share of its budget, and elects the least.  The scores compared are
`Bounded::max_value()` or numerators over `DEN` (`IsScore`), on which
`Rational128::cmp` is the order of `scoreKey`.

The loads only grow, so the fresh scores do (`incrementScores_mono`), the
winners' scores do, and a voter's load never passes the current winner's
score.  `electionRounds_spec` gives what the final loop needs: every edge's
load is at most its voter's, positive for a voter with an elected candidate, so
each elected edge's `multiply_by_rational(budget, edge.load, voter.load)` is
at most the budget.
-/

namespace NposElections

open SpArithmetic Helpers128bit Rational128

/-! ## Scores and their order -/

/-- A score a round gives a candidate not elected: `Bounded::max_value()`, or
a numerator over `DEN`. -/
def IsScore (x : Rational128) : Prop := x = maxValue ∨ (x.d = den ∧ x.n ≤ u128Max)

/-- `Rational128::cmp` on scores, as a number: the maximum above every
numerator over `DEN`. -/
def scoreKey (x : Rational128) : Nat := if x.d = den then x.n else u128Max + 1

theorem den_eq : den = 2 ^ 128 - 1 := rfl

theorem div_den_lt_maxValue {n : Nat} (hn : n ≤ u128Max) :
    (n : ℚ) / (den : Nat) < ((2 ^ 128 - 1 : Nat) : ℚ) / ((1 : Nat) : ℚ) := by
  have hle : (n : ℚ) / (den : Nat) ≤ 1 := by
    rw [div_le_one₀ (by rw [den_eq]; norm_num)]
    exact_mod_cast hn
  calc (n : ℚ) / (den : Nat) ≤ 1 := hle
    _ < ((2 ^ 128 - 1 : Nat) : ℚ) / ((1 : Nat) : ℚ) := by norm_num

theorem cmp_maxValue_eq {y : Rational128} (hd : y.d = den) (hn : y.n ≤ u128Max) :
    maxValue.cmp y = compare (((2 ^ 128 - 1 : Nat) : ℚ) / ((1 : Nat) : ℚ)) ((y.n : ℚ) / (den : Nat)) ∧
      y.cmp maxValue = compare ((y.n : ℚ) / (den : Nat)) (((2 ^ 128 - 1 : Nat) : ℚ) / ((1 : Nat) : ℚ)) := by
  have hy : y.n < 2 ^ 128 := by unfold u128Max at hn; omega
  have hyd : 0 < y.d ∧ y.d < 2 ^ 128 := by rw [hd]; decide
  constructor
  · rw [← hd]
    exact cmp_eq_compare_div (a := maxValue) (by decide) hy (by decide) hyd.1 (by decide) hyd.2
  · rw [← hd]
    exact cmp_eq_compare_div (b := maxValue) hy (by decide) hyd.1 (by decide) hyd.2 (by decide)

theorem cmp_eq_compare_scoreKey {x : Rational128} {y : Rational128} (hx : IsScore x) (hy : IsScore y) :
    x.cmp y = compare (scoreKey x) (scoreKey y) := by
  have hkmax : scoreKey maxValue = u128Max + 1 := rfl
  rcases hx with rfl | ⟨hxd, hxn⟩ <;> rcases hy with rfl | ⟨hyd, hyn⟩
  · rw [hkmax, compare_eq_iff_eq.mpr rfl]
    unfold Rational128.cmp
    simp
  · rw [(cmp_maxValue_eq hyd hyn).1, compare_gt_iff_gt.mpr (div_den_lt_maxValue hyn), hkmax, scoreKey,
      if_pos hyd]
    exact (compare_gt_iff_gt.mpr (by omega)).symm
  · rw [(cmp_maxValue_eq hxd hxn).2, compare_lt_iff_lt.mpr (div_den_lt_maxValue hxn), hkmax, scoreKey,
      if_pos hxd]
    exact (compare_lt_iff_lt.mpr (by omega)).symm
  · unfold Rational128.cmp scoreKey
    rw [if_pos (hxd.trans hyd.symm), if_pos hxd, if_pos hyd]

theorem n_le_of_scoreKey_le {x : Rational128} {y : Rational128} (hx : IsScore x) (hy : IsScore y)
    (h : scoreKey x ≤ scoreKey y) : x.n ≤ y.n := by
  have hmax : (maxValue : Rational128) = ⟨u128Max, 1⟩ := rfl
  have hden : den ≠ 1 := by decide
  rcases hx with rfl | ⟨hxd, hxn⟩ <;> rcases hy with rfl | ⟨hyd, hyn⟩
  · exact Nat.le_refl _
  · unfold scoreKey at h
    rw [if_neg (by rw [hmax]; exact hden.symm), if_pos hyd] at h
    omega
  · rw [hmax]
    exact hxn
  · unfold scoreKey at h
    rwa [if_pos hxd, if_pos hyd] at h

/-! ## Fresh scores -/

variable {A : Type} {x y : Rational128} {v : Voter A} {cs cs' : List (Candidate A)} {e : Edge A}
    {voters : List (Voter A)}

/-- What loops 1 and 2 leave in a candidate not elected: the maximum when
nobody approves it, and otherwise a numerator over `DEN`, at least
`DEN / approval_stake`. -/
def FreshOk (c : Candidate A) : Prop :=
  c.elected = false → (c.approvalStake = 0 ∧ c.score = maxValue) ∨
    (c.approvalStake ≠ 0 ∧ c.score.d = den ∧ den / c.approvalStake ≤ c.score.n ∧ c.score.n ≤ u128Max)

theorem FreshOk.isScore {c : Candidate A} (h : FreshOk c) (he : c.elected = false) : IsScore c.score := by
  rcases h he with ⟨-, hs⟩ | ⟨-, hd, -, hn⟩
  · exact .inl hs
  · exact .inr ⟨hd, hn⟩

theorem FreshOk.score_pos {c : Candidate A} (h : FreshOk c) (he : c.elected = false)
    (happ : c.approvalStake ≤ u128Max) : 0 < c.score.n := by
  rcases h he with ⟨-, hs⟩ | ⟨hne, -, hlo, -⟩
  · rw [hs]
    decide
  · have : 0 < den / c.approvalStake := Nat.div_pos happ (Nat.pos_of_ne_zero hne)
    omega

@[simp] theorem initScore_who (c : Candidate A) : (initScore c).who = c.who := by
  unfold initScore; split <;> rfl

@[simp] theorem initScore_approvalStake (c : Candidate A) : (initScore c).approvalStake = c.approvalStake := by
  unfold initScore; split <;> rfl

@[simp] theorem initScore_backedStake (c : Candidate A) : (initScore c).backedStake = c.backedStake := by
  unfold initScore; split <;> rfl

@[simp] theorem initScore_elected (c : Candidate A) : (initScore c).elected = c.elected := by
  unfold initScore; split <;> rfl

theorem initScore_freshOk (c : Candidate A) : FreshOk (initScore c) := by
  intro he
  rw [initScore_elected] at he
  unfold initScore
  rw [if_pos (by simp [he])]
  by_cases h0 : c.approvalStake = 0
  · exact .inl ⟨h0, by simp [h0]⟩
  · refine .inr ⟨h0, ?_, ?_, ?_⟩
    · simp [h0, Rational128.«from», den_eq]
    · simp [h0, Rational128.«from»]
    · simp only [h0, if_false, Rational128.«from»]
      exact Nat.div_le_self _ _

/-- Two candidates that differ at most in their scores, or the same candidate
before and after its score moves. -/
def Candidate.shape (c : Candidate A) : A × Nat × Nat × Bool := (c.who, c.approvalStake, c.backedStake, c.elected)

/-! ## Loop 2 -/

theorem lazySaturatingAdd_d (x t : Rational128) : (x.lazySaturatingAdd t).d = x.d := by
  unfold lazySaturatingAdd; split <;> rfl

theorem le_lazySaturatingAdd_n {x : Rational128} (hx : x.n ≤ u128Max) (t : Rational128) :
    x.n ≤ (x.lazySaturatingAdd t).n := by
  unfold lazySaturatingAdd u128Max at *
  split
  · exact Nat.le_refl _
  · simp only
    omega

theorem lazySaturatingAdd_n_le {x : Rational128} (hx : x.n ≤ u128Max) (t : Rational128) :
    (x.lazySaturatingAdd t).n ≤ u128Max := by
  unfold lazySaturatingAdd u128Max at *
  split
  · exact hx
  · simp only
    omega

theorem lazySaturatingAdd_n_mono {x₁ x₂ t₁ t₂ : Rational128} (hx : x₁.n ≤ x₂.n) (hx₁ : x₁.n ≤ u128Max)
    (ht : t₁.n ≤ t₂.n) : (x₁.lazySaturatingAdd t₁).n ≤ (x₂.lazySaturatingAdd t₂).n := by
  unfold lazySaturatingAdd isZero u128Max at *
  split <;> split <;> simp_all <;> omega

theorem map_set_of_eq {α β : Type} (f : α → β) {l : List α} {i : Nat} (hi : i < l.length) {a : α}
    (h : f a = f l[i]) : (l.set i a).map f = l.map f := by
  rw [List.map_set, h, ← List.getElem_map f (h := by simpa using hi), List.set_getElem_self]

theorem incrementScore_shape
    (h : incrementScore v cs e = some cs') : cs'.map Candidate.shape = cs.map Candidate.shape := by
  unfold incrementScore at h
  split at h
  · rename_i c hc
    split at h
    · obtain ⟨t, -, rfl⟩ := Option.map_eq_some_iff.mp h
      obtain ⟨hlt, rfl⟩ := List.getElem?_eq_some_iff.mp hc
      exact map_set_of_eq _ hlt rfl
    · cases h
      rfl
  · cases h
    rfl

theorem incrementScore_eq
    (h : incrementScore v cs e = some cs') :
    (∀ (hi : e.candidate < cs.length), cs[e.candidate].elected = false → cs[e.candidate].approvalStake ≠ 0 →
      ∃ t, mulRationalOrMax v.load.n v.budget cs[e.candidate].approvalStake = some t ∧
        cs' = cs.set e.candidate
          { cs[e.candidate] with score := cs[e.candidate].score.lazySaturatingAdd (Rational128.«from» t v.load.d) }) ∧
    ((∀ (hi : e.candidate < cs.length), cs[e.candidate].elected = false → cs[e.candidate].approvalStake = 0) →
      cs' = cs) := by
  unfold incrementScore at h
  split at h
  · rename_i c hc
    obtain ⟨hlt, rfl⟩ := List.getElem?_eq_some_iff.mp hc
    split at h
    · rename_i hcond
      simp only [Bool.and_eq_true, Bool.not_eq_true', bne_iff_ne, ne_eq] at hcond
      obtain ⟨t, ht, rfl⟩ := Option.map_eq_some_iff.mp h
      exact ⟨fun _ _ _ => ⟨t, ht, rfl⟩, fun hskip => absurd (hskip hlt hcond.1) hcond.2⟩
    · rename_i hcond
      simp only [Bool.and_eq_true, Bool.not_eq_true', bne_iff_ne, ne_eq, not_and, Decidable.not_not] at hcond
      exact ⟨fun _ hel hne => absurd (hcond hel) hne, fun _ => (Option.some.inj h).symm⟩
  · rename_i hc
    have hge : cs.length ≤ e.candidate := List.getElem?_eq_none_iff.mp hc
    exact ⟨fun hi => absurd hi (by omega), fun _ => (Option.some.inj h).symm⟩

theorem incrementScore_freshOk
    (h : incrementScore v cs e = some cs') (hfresh : ∀ c ∈ cs, FreshOk c) : ∀ c ∈ cs', FreshOk c := by
  obtain ⟨hupd, hskip⟩ := incrementScore_eq h
  by_cases hd : ∃ (hi : e.candidate < cs.length), cs[e.candidate].elected = false ∧ cs[e.candidate].approvalStake ≠ 0
  · obtain ⟨hi, hel, hne⟩ := hd
    obtain ⟨t, -, rfl⟩ := hupd hi hel hne
    intro c hc
    rcases List.mem_or_eq_of_mem_set hc with hc | rfl
    · exact hfresh c hc
    · -- the score grows over the same denominator
      intro _
      rcases hfresh _ (List.getElem_mem hi) hel with ⟨h0, -⟩ | ⟨-, hd, hlo, hhi⟩
      · exact absurd h0 hne
      · exact .inr ⟨hne, by rw [lazySaturatingAdd_d]; exact hd, le_trans hlo (le_lazySaturatingAdd_n hhi _),
          lazySaturatingAdd_n_le hhi _⟩
  · rw [hskip fun hi hel => by_contra fun hne => hd ⟨hi, hel, hne⟩]
    exact hfresh

/-! ## From round to round, scores only grow -/

/-- Position by position: a candidate not elected in the later list was not
in the earlier one either, with the same approval stake and a score over the
same denominator, no larger. -/
def ScoreLe (c₁ c₂ : Candidate A) : Prop :=
  c₂.elected = false → c₁.elected = false ∧ c₁.approvalStake = c₂.approvalStake ∧
    c₁.score.d = c₂.score.d ∧ c₁.score.n ≤ c₂.score.n ∧ c₁.score.n ≤ u128Max

/-- `ScoreLe` at every position. -/
def CandsLe (cs₁ cs₂ : List (Candidate A)) : Prop :=
  cs₁.length = cs₂.length ∧ ∀ i (h₁ : i < cs₁.length) (h₂ : i < cs₂.length), ScoreLe cs₁[i] cs₂[i]

/-- Of a voter in two rounds: the same budget and edges, a load no smaller. -/
def VoterLe (v₁ v₂ : Voter A) : Prop :=
  v₁.budget = v₂.budget ∧ v₁.edges.map Edge.candidate = v₂.edges.map Edge.candidate ∧ v₁.load.n ≤ v₂.load.n

theorem CandsLe.set {cs₁ cs₂ : List (Candidate A)} (h : CandsLe cs₁ cs₂) {a b : Candidate A} (hab : ScoreLe a b)
    (i : Nat) : CandsLe (cs₁.set i a) (cs₂.set i b) := by
  refine ⟨by simp [h.1], fun j h₁ h₂ => ?_⟩
  rw [List.getElem_set, List.getElem_set]
  split
  · exact hab
  · exact h.2 j (by simpa using h₁) (by simpa using h₂)

theorem incrementScore_congr {e₁ e₂ : Edge A}
    (he : e₁.candidate = e₂.candidate) : incrementScore v cs e₁ = incrementScore v cs e₂ := by
  unfold incrementScore
  rw [he]

theorem incrementScore_mono {v₁ v₂ : Voter A} {cs₁ cs₂ cs₁' cs₂' : List (Candidate A)}
    (hle : CandsLe cs₁ cs₂) (hv : VoterLe v₁ v₂)
    (hload : v₂.load.n < 2 ^ 128) (hbudget : v₂.budget < 2 ^ 128) (happ : ∀ c ∈ cs₂, c.approvalStake < 2 ^ 128)
    (h₁ : incrementScore v₁ cs₁ e = some cs₁') (h₂ : incrementScore v₂ cs₂ e = some cs₂') :
    CandsLe cs₁' cs₂' := by
  obtain ⟨hb, -, hl⟩ := hv
  obtain ⟨hupd₁, hskip₁⟩ := incrementScore_eq h₁
  obtain ⟨hupd₂, hskip₂⟩ := incrementScore_eq h₂
  by_cases hd₂ : ∃ (hi : e.candidate < cs₂.length), cs₂[e.candidate].elected = false ∧
      cs₂[e.candidate].approvalStake ≠ 0
  · -- the later round adds, so the earlier one added too, no more
    obtain ⟨hi₂, hel₂, hne₂⟩ := hd₂
    have hi₁ : e.candidate < cs₁.length := hle.1 ▸ hi₂
    obtain ⟨hel₁, happeq, hd, hn, hn₁⟩ := hle.2 _ hi₁ hi₂ hel₂
    obtain ⟨t₂, ht₂, rfl⟩ := hupd₂ hi₂ hel₂ hne₂
    obtain ⟨t₁, ht₁, rfl⟩ := hupd₁ hi₁ hel₁ (happeq ▸ hne₂)
    obtain ⟨r, r', hr, hr', hrr⟩ := multiplyByRational_unwrapOr_mono (b := v₂.budget)
      (c := cs₂[e.candidate].approvalStake) hload hbudget (happ _ (List.getElem_mem hi₂)) hl
    have ht₁' : t₁ = r.toOption.getD u128Max := by
      rw [mulRationalOrMax, hb, happeq, hr, Option.map_some] at ht₁
      exact (Option.some.inj ht₁).symm
    have ht₂' : t₂ = r'.toOption.getD u128Max := by
      rw [mulRationalOrMax, hr', Option.map_some] at ht₂
      exact (Option.some.inj ht₂).symm
    apply hle.set
    intro _
    refine ⟨hel₁, happeq, ?_, ?_, ?_⟩
    · simp only [lazySaturatingAdd_d]
      exact hd
    · exact lazySaturatingAdd_n_mono hn hn₁ (by simp only [Rational128.«from»]; rw [ht₁', ht₂']; exact hrr)
    · exact lazySaturatingAdd_n_le hn₁ _
  · rw [hskip₂ fun hi hel => by_contra fun hne => hd₂ ⟨hi, hel, hne⟩]
    by_cases hd₁ : ∃ (hi : e.candidate < cs₁.length), cs₁[e.candidate].elected = false ∧
        cs₁[e.candidate].approvalStake ≠ 0
    · -- only the earlier round adds: the candidate is elected in the later one
      obtain ⟨hi₁, hel₁, hne₁⟩ := hd₁
      obtain ⟨t₁, -, rfl⟩ := hupd₁ hi₁ hel₁ hne₁
      have hi₂ : e.candidate < cs₂.length := hle.1 ▸ hi₁
      have hel₂ : cs₂[e.candidate].elected = true := by
        by_contra hel
        rw [Bool.not_eq_true] at hel
        obtain ⟨-, happeq, -⟩ := hle.2 _ hi₁ hi₂ hel
        exact hd₂ ⟨hi₂, hel, happeq ▸ hne₁⟩
      have hset := hle.set (a := { cs₁[e.candidate] with
          score := cs₁[e.candidate].score.lazySaturatingAdd (Rational128.«from» t₁ v₁.load.d) })
        (b := cs₂[e.candidate]) (fun hel => absurd hel (by rw [hel₂]; decide)) e.candidate
      rwa [List.set_getElem_self] at hset
    · rw [hskip₁ fun hi hel => by_contra fun hne => hd₁ ⟨hi, hel, hne⟩]
      exact hle

theorem incrementEdges_shape (v : Voter A) :
    ∀ (es : List (Edge A)) (cs cs' : List (Candidate A)), incrementEdges v cs es = some cs' →
      cs'.map Candidate.shape = cs.map Candidate.shape
  | [], cs, cs', h => by cases h; rfl
  | e :: es, cs, cs', h => by
    obtain ⟨cs₁, h₁, h₂⟩ := Option.bind_eq_some_iff.mp h
    rw [incrementEdges_shape v es cs₁ cs' h₂, incrementScore_shape h₁]

theorem incrementScores_shape :
    ∀ (voters : List (Voter A)) (cs cs' : List (Candidate A)), incrementScores cs voters = some cs' →
      cs'.map Candidate.shape = cs.map Candidate.shape
  | [], cs, cs', h => by cases h; rfl
  | v :: vs, cs, cs', h => by
    obtain ⟨cs₁, h₁, h₂⟩ := Option.bind_eq_some_iff.mp h
    rw [incrementScores_shape vs cs₁ cs' h₂, incrementEdges_shape v v.edges cs cs₁ h₁]

theorem incrementEdges_freshOk (v : Voter A) :
    ∀ (es : List (Edge A)) (cs cs' : List (Candidate A)), incrementEdges v cs es = some cs' →
      (∀ c ∈ cs, FreshOk c) → ∀ c ∈ cs', FreshOk c
  | [], cs, cs', h, hf => by cases h; exact hf
  | e :: es, cs, cs', h, hf => by
    obtain ⟨cs₁, h₁, h₂⟩ := Option.bind_eq_some_iff.mp h
    exact incrementEdges_freshOk v es cs₁ cs' h₂ (incrementScore_freshOk h₁ hf)

theorem incrementScores_freshOk :
    ∀ (voters : List (Voter A)) (cs cs' : List (Candidate A)), incrementScores cs voters = some cs' →
      (∀ c ∈ cs, FreshOk c) → ∀ c ∈ cs', FreshOk c
  | [], cs, cs', h, hf => by cases h; exact hf
  | v :: vs, cs, cs', h, hf => by
    obtain ⟨cs₁, h₁, h₂⟩ := Option.bind_eq_some_iff.mp h
    exact incrementScores_freshOk vs cs₁ cs' h₂ (incrementEdges_freshOk v v.edges cs cs₁ h₁ hf)

theorem approvalStake_of_shape (h : cs'.map Candidate.shape = cs.map Candidate.shape)
    {B : Nat} (hB : ∀ c ∈ cs, c.approvalStake < B) : ∀ c ∈ cs', c.approvalStake < B := by
  intro c hc
  have hmem : c.shape ∈ cs.map Candidate.shape := h ▸ List.mem_map_of_mem hc
  obtain ⟨c', hc', hshape⟩ := List.mem_map.mp hmem
  have happ : c'.approvalStake = c.approvalStake := congrArg (fun s => s.2.1) hshape
  exact happ ▸ hB c' hc'

theorem incrementEdges_mono {v₁ v₂ : Voter A} (hv : VoterLe v₁ v₂) (hload : v₂.load.n < 2 ^ 128)
    (hbudget : v₂.budget < 2 ^ 128) :
    ∀ (es₁ es₂ : List (Edge A)) (cs₁ cs₂ cs₁' cs₂' : List (Candidate A)),
      es₁.map Edge.candidate = es₂.map Edge.candidate → CandsLe cs₁ cs₂ →
      (∀ c ∈ cs₂, c.approvalStake < 2 ^ 128) →
      incrementEdges v₁ cs₁ es₁ = some cs₁' → incrementEdges v₂ cs₂ es₂ = some cs₂' → CandsLe cs₁' cs₂'
  | [], [], _, _, _, _, _, hle, _, h₁, h₂ => by
    cases h₁
    cases h₂
    exact hle
  | e₁ :: es₁, e₂ :: es₂, cs₁, cs₂, cs₁', cs₂', hes, hle, happ, h₁, h₂ => by
    simp only [List.map_cons, List.cons.injEq] at hes
    obtain ⟨c₁, hc₁, h₁⟩ := Option.bind_eq_some_iff.mp h₁
    obtain ⟨c₂, hc₂, h₂⟩ := Option.bind_eq_some_iff.mp h₂
    rw [incrementScore_congr hes.1] at hc₁
    exact incrementEdges_mono hv hload hbudget es₁ es₂ c₁ c₂ cs₁' cs₂' hes.2
      (incrementScore_mono hle hv hload hbudget happ hc₁ hc₂)
      (approvalStake_of_shape (incrementScore_shape hc₂) happ) h₁ h₂
  | [], _ :: _, _, _, _, _, hes, _, _, _, _ => by simp at hes
  | _ :: _, [], _, _, _, _, hes, _, _, _, _ => by simp at hes

/-- **Loop 2 in two rounds**: with every load no smaller in the later round,
every later score is no smaller. -/
theorem incrementScores_mono :
    ∀ (vs₁ vs₂ : List (Voter A)) (cs₁ cs₂ cs₁' cs₂' : List (Candidate A)), List.Forall₂ VoterLe vs₁ vs₂ →
      (∀ v ∈ vs₂, v.load.n < 2 ^ 128 ∧ v.budget < 2 ^ 128) → CandsLe cs₁ cs₂ →
      (∀ c ∈ cs₂, c.approvalStake < 2 ^ 128) →
      incrementScores cs₁ vs₁ = some cs₁' → incrementScores cs₂ vs₂ = some cs₂' → CandsLe cs₁' cs₂'
  | [], [], _, _, _, _, _, _, hle, _, h₁, h₂ => by
    cases h₁
    cases h₂
    exact hle
  | v₁ :: vs₁, v₂ :: vs₂, cs₁, cs₂, cs₁', cs₂', hvs, hb, hle, happ, h₁, h₂ => by
    rw [List.forall₂_cons] at hvs
    obtain ⟨c₁, hc₁, h₁⟩ := Option.bind_eq_some_iff.mp h₁
    obtain ⟨c₂, hc₂, h₂⟩ := Option.bind_eq_some_iff.mp h₂
    obtain ⟨hl, hbu⟩ := hb v₂ List.mem_cons_self
    exact incrementScores_mono vs₁ vs₂ c₁ c₂ cs₁' cs₂' hvs.2 (fun v hv => hb v (List.mem_cons_of_mem _ hv))
      (incrementEdges_mono hvs.1 hl hbu v₁.edges v₂.edges cs₁ cs₂ c₁ c₂ hvs.1.2.1 hle happ hc₁ hc₂)
      (approvalStake_of_shape (incrementEdges_shape v₂ v₂.edges cs₂ c₂ hc₂) happ) h₁ h₂
  | [], _ :: _, _, _, _, _, hvs, _, _, _, _, _ => by simp at hvs
  | _ :: _, [], _, _, _, _, hvs, _, _, _, _, _ => by simp at hvs

/-! ## Loop 3: the least score wins -/

theorem minByScoreStep_isSome (best : Option (Candidate A × Nat)) (p : Candidate A × Nat) :
    (minByScoreStep best p).isSome := by
  cases best with
  | none => rfl
  | some b =>
    simp only [minByScoreStep]
    split <;> rfl

theorem foldl_minByScoreStep_some :
    ∀ (l : List (Candidate A × Nat)) (b : Candidate A × Nat), ∃ m, l.foldl minByScoreStep (some b) = some m
  | [], b => ⟨b, rfl⟩
  | q :: l, b => by
    obtain ⟨b', hb'⟩ := Option.isSome_iff_exists.mp (minByScoreStep_isSome (some b) q)
    rw [List.foldl_cons, hb']
    exact foldl_minByScoreStep_some l b'

theorem foldl_minByScoreStep (l : List (Candidate A × Nat)) (hs : ∀ p ∈ l, IsScore p.1.score) :
    ∀ (best : Option (Candidate A × Nat)) (m : Candidate A × Nat), (∀ b, best = some b → IsScore b.1.score) →
      l.foldl minByScoreStep best = some m →
      (best = some m ∨ m ∈ l) ∧ (∀ b, best = some b → scoreKey m.1.score ≤ scoreKey b.1.score) ∧
        ∀ p ∈ l, scoreKey m.1.score ≤ scoreKey p.1.score := by
  induction l with
  | nil =>
    intro best m _ h
    rw [List.foldl_nil] at h
    refine ⟨.inl h, fun b hb => ?_, fun p hp => by cases hp⟩
    rw [h, Option.some.injEq] at hb
    rw [hb]
  | cons p l ih =>
    intro best m hbest h
    have hp := hs p List.mem_cons_self
    -- the best after `p`: `p` itself, or the earlier best when its key is not larger
    have hstep : (minByScoreStep best p = some p ∨ ∃ b, best = some b ∧ minByScoreStep best p = some b) ∧
        (∀ b, minByScoreStep best p = some b → IsScore b.1.score) ∧
        (∀ b, minByScoreStep best p = some b → scoreKey b.1.score ≤ scoreKey p.1.score ∧
          ∀ b₀, best = some b₀ → scoreKey b.1.score ≤ scoreKey b₀.1.score) := by
      cases best with
      | none => exact ⟨.inl rfl, fun b hb => by cases hb; exact hp,
          fun b hb => by cases hb; exact ⟨Nat.le_refl _, fun b₀ h₀ => by cases h₀⟩⟩
      | some b₀ =>
        have hb₀ := hbest b₀ rfl
        have hcmp := cmp_eq_compare_scoreKey hb₀ hp
        simp only [minByScoreStep]
        by_cases hgt : b₀.1.score.cmp p.1.score = .gt
        · rw [if_pos hgt]
          rw [hcmp, compare_gt_iff_gt] at hgt
          exact ⟨.inl rfl, fun b hb => by cases hb; exact hp, fun b hb => by
            cases hb
            exact ⟨Nat.le_refl _, fun b₁ h₁ => by cases h₁; omega⟩⟩
        · rw [if_neg hgt]
          rw [hcmp] at hgt
          have hle : scoreKey b₀.1.score ≤ scoreKey p.1.score := by
            rcases Nat.lt_or_ge (scoreKey p.1.score) (scoreKey b₀.1.score) with h | h
            · exact absurd (compare_gt_iff_gt.mpr h) hgt
            · exact h
          exact ⟨.inr ⟨b₀, rfl, rfl⟩, fun b hb => by cases hb; exact hb₀, fun b hb => by
            cases hb
            exact ⟨hle, fun b₁ h₁ => by cases h₁; exact Nat.le_refl _⟩⟩
    obtain ⟨hwhich, hscore, hkey⟩ := hstep
    obtain ⟨hmem, hle, hall⟩ := ih (fun q hq => hs q (List.mem_cons_of_mem p hq)) _ m hscore h
    refine ⟨?_, fun b hb => ?_, fun q hq => ?_⟩
    · rcases hmem with hm | hm
      · rcases hwhich with hw | ⟨b, hb, hw⟩
        · rw [hw] at hm
          exact .inr (Option.some.inj hm ▸ List.mem_cons_self)
        · rw [hw] at hm
          exact .inl (hb.trans hm)
      · exact .inr (List.mem_cons_of_mem p hm)
    · obtain ⟨b', hs'⟩ := Option.isSome_iff_exists.mp (minByScoreStep_isSome best p)
      exact le_trans (hle b' hs') ((hkey b' hs').2 b hb)
    · rcases List.mem_cons.mp hq with hqp | hq
      · obtain ⟨b', hs'⟩ := Option.isSome_iff_exists.mp (minByScoreStep_isSome best p)
        rw [hqp]
        exact le_trans (hle b' hs') (hkey b' hs').1
      · exact hall q hq

theorem mem_filter_zipIdx {p : Candidate A × Nat} :
    p ∈ cs.zipIdx.filter (fun p => !p.1.elected) ↔
      ∃ h : p.2 < cs.length, cs[p.2] = p.1 ∧ p.1.elected = false := by
  rw [List.mem_filter, List.mem_zipIdx_iff_getElem?, List.getElem?_eq_some_iff]
  simp

/-- **`min_by_key`**: the winner is a candidate not elected, at its position,
with the least key among them; there is none only when all are elected. -/
theorem minByScore_spec (hs : ∀ c ∈ cs, c.elected = false → IsScore c.score) :
    (minByScore cs = none → ∀ c ∈ cs, c.elected = true) ∧
    ∀ w idx, minByScore cs = some (w, idx) → ∃ h : idx < cs.length, cs[idx] = w ∧ w.elected = false ∧
      ∀ j (hj : j < cs.length), cs[j].elected = false → scoreKey w.score ≤ scoreKey cs[j].score := by
  have hl : ∀ p ∈ cs.zipIdx.filter (fun p => !p.1.elected), IsScore p.1.score := fun p hp => by
    obtain ⟨h, hp, he⟩ := mem_filter_zipIdx.mp hp
    exact hs p.1 (hp ▸ List.getElem_mem h) he
  refine ⟨fun hnone c hc => ?_, fun w idx hmin => ?_⟩
  · -- the fold from `none` is `none` only over no candidate
    by_contra hel
    rw [Bool.not_eq_true] at hel
    obtain ⟨i, hi, rfl⟩ := List.getElem_of_mem hc
    have hmem : (cs[i], i) ∈ cs.zipIdx.filter (fun p => !p.1.elected) :=
      mem_filter_zipIdx.mpr ⟨hi, rfl, hel⟩
    unfold minByScore at hnone
    cases hl' : cs.zipIdx.filter (fun p => !p.1.elected) with
    | nil => rw [hl'] at hmem; cases hmem
    | cons x l =>
      rw [hl', List.foldl_cons] at hnone
      obtain ⟨m, hm⟩ := foldl_minByScoreStep_some l x
      rw [show minByScoreStep none x = some x from rfl, hm] at hnone
      cases hnone
  · obtain ⟨hmem, -, hall⟩ := foldl_minByScoreStep _ hl none (w, idx) (fun b hb => by cases hb) hmin
    rcases hmem with hm | hm
    · cases hm
    obtain ⟨h, hw, he⟩ := mem_filter_zipIdx.mp hm
    refine ⟨h, hw, he, fun j hj hel => ?_⟩
    exact hall (cs[j], j) (mem_filter_zipIdx.mpr ⟨hj, rfl, hel⟩)

theorem initScore_shape (c : Candidate A) : (initScore c).shape = c.shape := by
  simp [Candidate.shape]

theorem candsLe_initScore {cs₁ cs₂ : List (Candidate A)} (hlen : cs₁.length = cs₂.length)
    (h : ∀ i (h₁ : i < cs₁.length) (h₂ : i < cs₂.length), cs₂[i].elected = false →
      cs₁[i].elected = false ∧ cs₁[i].approvalStake = cs₂[i].approvalStake) :
    CandsLe (cs₁.map initScore) (cs₂.map initScore) := by
  refine ⟨by simp [hlen], fun i h₁ h₂ hel => ?_⟩
  have hi₁ : i < cs₁.length := by simpa using h₁
  have hi₂ : i < cs₂.length := by simpa using h₂
  simp only [List.getElem_map, initScore_elected] at hel ⊢
  obtain ⟨hel₁, happ⟩ := h i hi₁ hi₂ hel
  have hfresh := initScore_freshOk cs₁[i] (by rw [initScore_elected]; exact hel₁)
  refine ⟨hel₁, by simp [happ], ?_, ?_, ?_⟩
  · simp [initScore, hel₁, hel, happ]
  · simp [initScore, hel₁, hel, happ]
  · rcases hfresh with ⟨-, hs⟩ | ⟨-, -, -, hn⟩
    · rw [hs]
      exact Nat.le_refl _
    · exact hn

theorem scoreKey_le_of_le (hd : x.d = y.d) (hn : x.n ≤ y.n) : scoreKey x ≤ scoreKey y := by
  unfold scoreKey
  rw [hd]
  split
  · exact hn
  · exact Nat.le_refl _

/-! ## Loop 3: the loads move on -/

section Loads

variable [DecidableEq A]

theorem updateEdgeLoads_frame (w : Candidate A) :
    ∀ (load : Rational128) (es : List (Edge A)),
      (updateEdgeLoads w load es).2.map (fun e => (e.who, e.candidate, e.weight)) =
        es.map fun e => (e.who, e.candidate, e.weight)
  | _, [] => rfl
  | load, e :: es => by
    unfold updateEdgeLoads
    split
    · simp only [List.map_cons, updateEdgeLoads_frame w w.score es]
    · simp only [List.map_cons, updateEdgeLoads_frame w load es]

theorem updateEdgeLoads_fst (w : Candidate A) :
    ∀ (load : Rational128) (es : List (Edge A)),
      (updateEdgeLoads w load es).1 = if ∃ e ∈ es, e.who = w.who then w.score else load
  | load, [] => by simp [updateEdgeLoads]
  | load, e :: es => by
    unfold updateEdgeLoads
    split
    · rename_i he
      rw [updateEdgeLoads_fst w w.score es, ite_self, if_pos ⟨e, List.mem_cons_self, he⟩]
    · rename_i he
      rw [updateEdgeLoads_fst w load es]
      simp only [List.mem_cons, exists_eq_or_imp, he, false_or]

theorem updateEdgeLoads_le (w : Candidate A) :
    ∀ (load : Rational128) (es : List (Edge A)), (∀ e ∈ es, e.load.n ≤ load.n) → load.n ≤ w.score.n →
      ∀ e ∈ (updateEdgeLoads w load es).2, e.load.n ≤ (updateEdgeLoads w load es).1.n
  | _, [], _, _ => fun e he => by cases he
  | load, e :: es, hes, hw => by
    have hfst : load.n ≤ (updateEdgeLoads w load es).1.n ∧ w.score.n ≤ (updateEdgeLoads w w.score es).1.n := by
      rw [updateEdgeLoads_fst, updateEdgeLoads_fst, ite_self]
      constructor
      · split <;> omega
      · exact Nat.le_refl _
    unfold updateEdgeLoads
    split
    · -- the edge to the winner takes the winner's score beyond the voter's load
      intro e' he'
      rcases List.mem_cons.mp he' with rfl | he'
      · have : (w.score.lazySaturatingSub load).n ≤ w.score.n := by
          unfold lazySaturatingSub
          split <;> simp
        exact le_trans this hfst.2
      · exact updateEdgeLoads_le w w.score es (fun e'' h'' => le_trans (hes e'' (List.mem_cons_of_mem e h'')) hw)
          (Nat.le_refl _) e' he'
    · intro e' he'
      rcases List.mem_cons.mp he' with rfl | he'
      · exact le_trans (hes _ List.mem_cons_self) hfst.1
      · exact updateEdgeLoads_le w load es (fun e'' h'' => hes e'' (List.mem_cons_of_mem e h'')) hw e' he'

theorem updateLoads_frame (w : Candidate A) (v : Voter A) :
    (updateLoads w v).budget = v.budget ∧
      (updateLoads w v).edges.map (fun e => (e.who, e.candidate, e.weight)) =
        v.edges.map fun e => (e.who, e.candidate, e.weight) :=
  ⟨rfl, updateEdgeLoads_frame w v.load v.edges⟩

theorem mem_updateLoads_edges {w : Candidate A} (he : e ∈ (updateLoads w v).edges) :
    ∃ e₀ ∈ v.edges, e₀.who = e.who ∧ e₀.candidate = e.candidate := by
  have hmem : (e.who, e.candidate, e.weight) ∈ v.edges.map fun e => (e.who, e.candidate, e.weight) :=
    (updateLoads_frame w v).2 ▸ List.mem_map_of_mem he
  obtain ⟨e₀, he₀, heq⟩ := List.mem_map.mp hmem
  simp only [Prod.mk.injEq] at heq
  exact ⟨e₀, he₀, heq.1, heq.2.1⟩

/-! ## The invariant between rounds -/

/-- What holds between the rounds, `last` the last winner's score: pointers
name candidates of the edge's account, loads are at most `last`, and the next
round scores every open candidate at least `last`. -/
structure RoundInv (cands : List (Candidate A)) (voters : List (Voter A)) (last : Rational128) : Prop where
  last_score : IsScore last
  approval_le : ∀ c ∈ cands, c.approvalStake ≤ u128Max
  budget_lt : ∀ v ∈ voters, v.budget < 2 ^ 128
  edge_ptr : ∀ v ∈ voters, ∀ e ∈ v.edges, ∃ h : e.candidate < cands.length, cands[e.candidate].who = e.who
  load_le_last : ∀ v ∈ voters, v.load.n ≤ last.n
  edge_load_le : ∀ v ∈ voters, ∀ e ∈ v.edges, e.load.n ≤ v.load.n
  elected_load_pos : ∀ v ∈ voters, ∀ e ∈ v.edges, isElected cands e.candidate = true → 0 < v.load.n
  next_scores : ∀ cs', incrementScores (cands.map initScore) voters = some cs' →
    ∀ i (hi : i < cs'.length), cs'[i].elected = false → scoreKey last ≤ scoreKey cs'[i].score

/-- What the final loop needs of the end of the rounds. -/
structure LoadsOk (cands : List (Candidate A)) (voters : List (Voter A)) : Prop where
  budget_lt : ∀ v ∈ voters, v.budget < 2 ^ 128
  edge_ptr : ∀ v ∈ voters, ∀ e ∈ v.edges, e.candidate < cands.length
  load_lt : ∀ v ∈ voters, v.load.n < 2 ^ 128
  edge_load_le : ∀ v ∈ voters, ∀ e ∈ v.edges, e.load.n ≤ v.load.n
  elected_load_pos : ∀ v ∈ voters, ∀ e ∈ v.edges, isElected cands e.candidate = true → 0 < v.load.n

omit [DecidableEq A] in
theorem isElected_of_shape (h : cs'.map Candidate.shape = cs.map Candidate.shape)
    (i : Nat) : isElected cs' i = isElected cs i := by
  have h' := congrArg (fun l => (l[i]?).map fun s => s.2.2.2) h
  simp only [List.getElem?_map, Option.map_map] at h'
  exact congrArg (fun o => Option.getD o false) h'

omit [DecidableEq A] in
theorem length_of_shape (h : cs'.map Candidate.shape = cs.map Candidate.shape) :
    cs'.length = cs.length := by
  simpa using congrArg List.length h

omit [DecidableEq A] in
theorem getElem_shape (h : cs'.map Candidate.shape = cs.map Candidate.shape)
    {i : Nat} (hi : i < cs.length) (hi' : i < cs'.length) : cs'[i].shape = cs[i].shape := by
  have h' := congrArg (fun l => l[i]?) h
  simp only [List.getElem?_map, List.getElem?_eq_getElem hi, List.getElem?_eq_getElem hi', Option.map_some,
    Option.some.injEq] at h'
  exact h'

omit [DecidableEq A] in
theorem isElected_set_of_ne (cs : List (Candidate A)) {idx j : Nat} (hj : j ≠ idx) (c : Candidate A) :
    isElected (cs.set idx c) j = isElected cs j := by
  rw [isElected, isElected, List.getElem?_set_ne (Ne.symm hj)]

omit [DecidableEq A] in
theorem RoundInv.loadsOk {cands : List (Candidate A)} {last : Rational128}
    (hinv : RoundInv cands voters last) : LoadsOk cands voters where
  budget_lt := hinv.budget_lt
  edge_ptr := fun v hv e he => (hinv.edge_ptr v hv e he).1
  load_lt := fun v hv => by
    have := hinv.load_le_last v hv
    rcases hinv.last_score with h | ⟨-, h⟩
    · rw [h] at this
      exact lt_of_le_of_lt this (by decide)
    · unfold u128Max at h
      omega
  edge_load_le := hinv.edge_load_le
  elected_load_pos := hinv.elected_load_pos

omit [DecidableEq A] in
theorem LoadsOk.of_shape {cands cs' : List (Candidate A)} (h : LoadsOk cands voters)
    (hshape : cs'.map Candidate.shape = cands.map Candidate.shape) : LoadsOk cs' voters where
  budget_lt := h.budget_lt
  edge_ptr := fun v hv e he => (length_of_shape hshape) ▸ h.edge_ptr v hv e he
  load_lt := h.load_lt
  edge_load_le := h.edge_load_le
  elected_load_pos := fun v hv e he hel => h.elected_load_pos v hv e he (isElected_of_shape hshape _ ▸ hel)

/-- **One round** keeps the invariant, with the winner's score as the last. -/
theorem RoundInv.step {cands : List (Candidate A)} {last : Rational128}
    (hinv : RoundInv cands voters last) {cs' : List (Candidate A)}
    (hinc : incrementScores (cands.map initScore) voters = some cs') {w : Candidate A} {idx : Nat}
    (hmin : minByScore cs' = some (w, idx)) (round : Nat) :
    RoundInv (cs'.set idx { w with elected := true, round })
      (voters.map (updateLoads { w with elected := true, round })) w.score := by
  -- the scores of the round and its winner
  have hfresh : ∀ c ∈ cs', FreshOk c := incrementScores_freshOk voters _ cs' hinc fun c hc => by
    obtain ⟨c₀, -, rfl⟩ := List.mem_map.mp hc
    exact initScore_freshOk c₀
  have hshape : cs'.map Candidate.shape = cands.map Candidate.shape := by
    rw [incrementScores_shape voters _ cs' hinc, List.map_map]
    exact List.map_congr_left fun c _ => initScore_shape c
  obtain ⟨hidx, hw, hwel, hwmin⟩ := (minByScore_spec fun c hc hel => (hfresh c hc).isScore hel).2 w idx hmin
  have hlen : cs'.length = cands.length := length_of_shape hshape
  have hidx₀ : idx < cands.length := hlen ▸ hidx
  have hwshape : w.shape = cands[idx].shape := hw ▸ getElem_shape hshape hidx₀ hidx
  have hwfresh : FreshOk w := hw ▸ hfresh _ (List.getElem_mem hidx)
  have hwscore : IsScore w.score := hwfresh.isScore hwel
  have hlastn : last.n ≤ w.score.n :=
    n_le_of_scoreKey_le hinv.last_score hwscore (hw ▸ hinv.next_scores cs' hinc idx hidx (hw ▸ hwel))
  have hwapp : w.approvalStake = cands[idx].approvalStake := congrArg (fun s => s.2.1) hwshape
  have hwwho : w.who = cands[idx].who := congrArg (fun s => s.1) hwshape
  have hwpos : 0 < w.score.n :=
    hwfresh.score_pos hwel (hwapp ▸ hinv.approval_le _ (List.getElem_mem hidx₀))
  have hwmax : w.score.n ≤ u128Max := by
    rcases hwscore with h | ⟨-, h⟩
    · rw [h]
      exact Nat.le_refl _
    · exact h
  -- each voter's new load is its old one or the winner's score
  have hload : ∀ v ∈ voters, v.load.n ≤ (updateLoads { w with elected := true, round } v).load.n ∧
      (updateLoads { w with elected := true, round } v).load.n ≤ w.score.n := fun v hv => by
    simp only [updateLoads, updateEdgeLoads_fst]
    have := hinv.load_le_last v hv
    split <;> omega
  -- the candidates after the round: same accounts and approvals, the winner elected
  set cands' := cs'.set idx { w with elected := true, round } with hcands'
  have hlen' : cands'.length = cands.length := by rw [hcands', List.length_set, hlen]
  have hsame : ∀ j (hj : j < cands.length) (hj' : j < cands'.length),
      cands'[j].who = cands[j].who ∧ cands'[j].approvalStake = cands[j].approvalStake ∧
        (cands'[j].elected = false → j ≠ idx ∧ cands[j].elected = false) := fun j hj hj' => by
    have hjs := getElem_shape hshape hj (hlen ▸ hj)
    simp only [hcands', List.getElem_set]
    split
    · rename_i hij
      subst hij
      exact ⟨hwwho, hwapp, fun h => by cases h⟩
    · rename_i hij
      exact ⟨congrArg (fun s => s.1) hjs, congrArg (fun s => s.2.1) hjs,
        fun h => ⟨fun h' => hij h'.symm, (congrArg (fun s => s.2.2.2) hjs).symm.trans h⟩⟩
  refine ⟨hwscore, fun c hc => ?_, fun v hv => ?_, fun v hv e he => ?_, fun v hv => ?_, fun v hv e he => ?_,
    fun v hv e he hel => ?_, fun cs'' hinc'' i hi hiel => ?_⟩
  · obtain ⟨j, hj, rfl⟩ := List.getElem_of_mem hc
    rw [(hsame j (hlen' ▸ hj) hj).2.1]
    exact hinv.approval_le _ (List.getElem_mem _)
  · obtain ⟨v₀, hv₀, rfl⟩ := List.mem_map.mp hv
    exact hinv.budget_lt v₀ hv₀
  · obtain ⟨v₀, hv₀, rfl⟩ := List.mem_map.mp hv
    obtain ⟨e₀, he₀, hwho, hcand⟩ := mem_updateLoads_edges he
    obtain ⟨hlt, hwho₀⟩ := hinv.edge_ptr v₀ hv₀ e₀ he₀
    have hlt' : e.candidate < cands.length := hcand ▸ hlt
    have hwho' : cands[e.candidate].who = e.who := by
      simp only [← hcand]
      rw [hwho₀, hwho]
    exact ⟨hlen' ▸ hlt', by rw [(hsame _ hlt' (hlen' ▸ hlt')).1, hwho']⟩
  · obtain ⟨v₀, hv₀, rfl⟩ := List.mem_map.mp hv
    exact (hload v₀ hv₀).2
  · obtain ⟨v₀, hv₀, rfl⟩ := List.mem_map.mp hv
    exact updateEdgeLoads_le { w with elected := true, round } v₀.load v₀.edges (hinv.edge_load_le v₀ hv₀)
      (le_trans (hinv.load_le_last v₀ hv₀) hlastn) e he
  · -- an elected candidate is the winner, whose voters now carry its score, or was elected before
    obtain ⟨v₀, hv₀, rfl⟩ := List.mem_map.mp hv
    obtain ⟨e₀, he₀, hwho, hcand⟩ := mem_updateLoads_edges he
    obtain ⟨hlt, hwho₀⟩ := hinv.edge_ptr v₀ hv₀ e₀ he₀
    by_cases hwin : e₀.candidate = idx
    · have hmatch : ∃ e ∈ v₀.edges, e.who = ({ w with elected := true, round } : Candidate A).who :=
        ⟨e₀, he₀, by rw [← hwho₀]; simp only [hwin, hwwho]⟩
      simp only [updateLoads, updateEdgeLoads_fst, if_pos hmatch]
      exact hwpos
    · have hold : isElected cands e₀.candidate = true := by
        rwa [← hcand, hcands', isElected_set_of_ne _ hwin, isElected_of_shape hshape] at hel
      exact lt_of_lt_of_le (hinv.elected_load_pos v₀ hv₀ e₀ he₀ hold) (hload v₀ hv₀).1
  · -- the next round scores every open candidate at least as this one did, so at least the winner
    have hvs : List.Forall₂ VoterLe voters (voters.map (updateLoads { w with elected := true, round })) := by
      rw [List.forall₂_map_right_iff, List.forall₂_same]
      intro v hv
      refine ⟨rfl, ?_, (hload v hv).1⟩
      have := congrArg (List.map fun t : A × Nat × Nat => t.2.1) (updateLoads_frame { w with elected := true, round } v).2
      simp only [List.map_map, Function.comp_def] at this
      exact this.symm
    have hle := incrementScores_mono voters _ _ _ cs' cs'' hvs
      (fun v hv => by
        obtain ⟨v₀, hv₀, rfl⟩ := List.mem_map.mp hv
        refine ⟨lt_of_le_of_lt (hload v₀ hv₀).2 (by unfold u128Max at hwmax; omega), hinv.budget_lt v₀ hv₀⟩)
      (candsLe_initScore (by rw [hlen']) fun j hj hj' hel => by
        obtain ⟨-, happ, hel'⟩ := hsame j hj hj'
        exact ⟨(hel' hel).2, happ.symm⟩)
      (fun c hc => by
        obtain ⟨c₀, hc₀, rfl⟩ := List.mem_map.mp hc
        obtain ⟨j, hj, rfl⟩ := List.getElem_of_mem hc₀
        rw [initScore_approvalStake, (hsame j (hlen' ▸ hj) hj).2.1]
        have := hinv.approval_le _ (List.getElem_mem (hlen' ▸ hj))
        unfold u128Max at this
        omega)
      hinc hinc''
    have hi' : i < cs'.length := by rw [hle.1]; exact hi
    obtain ⟨hel', -, hd, hn, -⟩ := hle.2 i hi' hi hiel
    exact le_trans (hwmin i hi' hel') (scoreKey_le_of_le hd hn)

/-- What the rounds never touch in a candidate: its account, approval stake
and backed stake. -/
def Candidate.base (c : Candidate A) : A × Nat × Nat := (c.who, c.approvalStake, c.backedStake)

/-- What the rounds never touch in a voter: its budget, and its edges'
accounts, pointers and weights. -/
def Voter.frame (v : Voter A) : Nat × List (A × Nat × Nat) :=
  (v.budget, v.edges.map fun e => (e.who, e.candidate, e.weight))

omit [DecidableEq A] in
theorem base_of_shape (h : cs'.map Candidate.shape = cs.map Candidate.shape) :
    cs'.map Candidate.base = cs.map Candidate.base := by
  have := congrArg (List.map fun s : A × Nat × Nat × Bool => (s.1, s.2.1, s.2.2.1)) h
  simp only [List.map_map, Function.comp_def, Candidate.shape] at this
  exact this

/-- **The rounds**: from the invariant, whatever round the loop ends at (after
`to_elect` rounds, or when every candidate is elected), the final loop finds
the loads it needs, and the accounts, approval and backed stakes, budgets and
weights as they were. -/
theorem electionRounds_spec :
    ∀ (rounds round : Nat) (cands : List (Candidate A)) (voters : List (Voter A)) (last : Rational128)
      (cands' : List (Candidate A)) (voters' : List (Voter A)),
      RoundInv cands voters last → electionRounds rounds round cands voters = some (cands', voters') →
      LoadsOk cands' voters' ∧ cands'.map Candidate.base = cands.map Candidate.base ∧
        voters'.map Voter.frame = voters.map Voter.frame
  | 0, _, cands, voters, _, cands', voters', hinv, h => by
    cases h
    exact ⟨hinv.loadsOk, rfl, rfl⟩
  | rounds + 1, round, cands, voters, last, cands', voters', hinv, h => by
    obtain ⟨cs, hinc, h⟩ := Option.bind_eq_some_iff.mp h
    have hshape : cs.map Candidate.shape = cands.map Candidate.shape := by
      rw [incrementScores_shape voters _ cs hinc, List.map_map]
      exact List.map_congr_left fun c _ => initScore_shape c
    split at h
    · -- a winner: one more round from the invariant it keeps
      rename_i w idx hmin
      obtain ⟨hloads, hbase, hframe⟩ := electionRounds_spec rounds (round + 1) _ _ w.score cands' voters'
        (hinv.step hinc hmin round) h
      refine ⟨hloads, ?_, ?_⟩
      · obtain ⟨hidx, hw, -⟩ := (minByScore_spec fun c hc hel =>
          (incrementScores_freshOk voters _ cs hinc (fun c hc => by
            obtain ⟨c₀, -, rfl⟩ := List.mem_map.mp hc
            exact initScore_freshOk c₀) c hc).isScore hel).2 w idx hmin
        rw [hbase, map_set_of_eq Candidate.base hidx (by rw [hw]; rfl), base_of_shape hshape]
      · rw [hframe, List.map_map]
        exact List.map_congr_left fun v _ => by
          simp only [Function.comp_apply, Voter.frame, (updateLoads_frame _ v).2]
          rfl
    · -- every candidate is elected: the loop breaks with this round's scores
      cases h
      exact ⟨hinv.loadsOk.of_shape hshape, base_of_shape hshape, rfl⟩

end Loads

end NposElections
