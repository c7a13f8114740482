import Mathlib

/-!
# Runs of a step function

A system given by a total step function `step : σ → α → σ` (every action leads
somewhere, possibly back to the same state) reaches the states obtained by
folding a list of actions over the initial state.  `Reachable.rec_invariant`
is the induction rule every invariant over whole runs is proved with: it holds
initially and one step preserves it.  `foldl_invariant` is the rule for an
invariant a step keeps only under a side condition (`Guarded`: each action
meets it in the state it is taken from).  `foldlM_simulation` relates the runs
of an implementation that may fail to those of a specification.
-/

namespace StepRun

variable {σ α : Type}

/-- The states reachable from `init` by some sequence of actions. -/
inductive Reachable (step : σ → α → σ) (init : σ) : σ → Prop
  | init : Reachable step init init
  | step {s : σ} (a : α) : Reachable step init s → Reachable step init (step s a)

theorem reachable_foldl (step : σ → α → σ) (init : σ) :
    ∀ (l : List α) {s : σ}, Reachable step init s → Reachable step init (l.foldl step s)
  | [], _, h => h
  | a :: l, _, h => reachable_foldl step init l (.step a h)

/-- **Invariant rule.**  What holds initially and is kept by every step holds in
every reachable state. -/
theorem Reachable.rec_invariant {step : σ → α → σ} {init : σ} (P : σ → Prop)
    (h0 : P init) (hstep : ∀ s a, P s → P (step s a)) {s : σ} (h : Reachable step init s) :
    P s := by
  induction h with
  | init => exact h0
  | step a _ ih => exact hstep _ a ih

/-- Every action of a run meets `Q` in the state it is taken from. -/
def Guarded (step : σ → α → σ) (Q : σ → α → Prop) : σ → List α → Prop
  | _, [] => True
  | s, a :: l => Q s a ∧ Guarded step Q (step s a) l

instance instDecidableGuarded {step : σ → α → σ} {Q : σ → α → Prop} [∀ s a, Decidable (Q s a)] :
    ∀ s l, Decidable (Guarded step Q s l)
  | _, [] => inferInstanceAs (Decidable True)
  | s, a :: l =>
    have : Decidable (Guarded step Q (step s a) l) := instDecidableGuarded (step s a) l
    inferInstanceAs (Decidable (_ ∧ _))

/-- **Guarded invariant rule.**  An invariant that every step meeting a side
condition keeps holds at the end of a run all of whose steps meet it. -/
theorem foldl_invariant {step : σ → α → σ} (P : σ → Prop) (Q : σ → α → Prop)
    (hstep : ∀ s a, P s → Q s a → P (step s a)) :
    ∀ (l : List α) (s : σ), P s → Guarded step Q s l → P (l.foldl step s)
  | [], _, h, _ => h
  | a :: l, s, h, ⟨ha, hl⟩ => foldl_invariant P Q hstep l (step s a) (hstep s a h ha) hl

theorem guarded_of_forall {step : σ → α → σ} {Q : α → Prop} :
    ∀ {l : List α} (s : σ), (∀ a ∈ l, Q a) → Guarded step (fun _ a => Q a) s l
  | [], _, _ => trivial
  | a :: _, s, h => ⟨h a List.mem_cons_self, guarded_of_forall (step s a) fun b hb => h b (List.mem_cons_of_mem a hb)⟩

/-- **Simulation rule.**  If from related states every action succeeds in the
implementation (`step`, which may fail: `none`) and leads to states related
again by the specification's step (`spec`), then so does a whole run. -/
theorem foldlM_simulation {τ : Type} {step : σ → α → Option σ} {spec : τ → α → τ} (R : σ → τ → Prop)
    (hstep : ∀ s t a, R s t → ∃ s', step s a = some s' ∧ R s' (spec t a)) :
    ∀ (l : List α) (s : σ) (t : τ), R s t → ∃ s', l.foldlM step s = some s' ∧ R s' (l.foldl spec t)
  | [], s, _, h => ⟨s, rfl, h⟩
  | a :: l, s, t, h => by
    obtain ⟨s₁, hs₁, h₁⟩ := hstep s t a h
    obtain ⟨s', hs', h'⟩ := foldlM_simulation R hstep l s₁ (spec t a) h₁
    refine ⟨s', ?_, h'⟩
    rw [List.foldlM_cons, hs₁]
    exact hs'

/-- **Invariant rule for a step that may fail.**  If from every state meeting
`P` every action succeeds and leads to a state meeting `P`, then so does a
whole run. -/
theorem foldlM_invariant_some {step : σ → α → Option σ} (P : σ → Prop)
    (hstep : ∀ s a, P s → ∃ s', step s a = some s' ∧ P s') (l : List α) (s : σ) (h : P s) :
    ∃ s', l.foldlM step s = some s' ∧ P s' :=
  @foldlM_simulation σ α Unit step (fun _ _ => ()) (fun s _ => P s) (fun s _ a hs => hstep s a hs) l s () h

end StepRun
