import Mathlib

/-!
# What a computation that may fail ends in

`Ends P E r`: the computation `r : Except ε α` succeeds with a value meeting
`P`, or fails with an error meeting `E`.  With `E` false it says that `r`
succeeds (`ends_false_iff`).  The rules below carry it along `bind`
(`Ends.bind`), along a `foldlM` whose invariant may depend on the part of the
list still to be folded (`foldlM_ends`), and along a run of a step function
each of whose actions meets a side condition in the state it is taken from
(`GuardedM`, `run_ends`): the rule every invariant over whole runs of a
failing step is proved with.
-/

namespace Outcome

variable {ε α β σ : Type}

/-- `r` succeeds with a value meeting `P`, or fails with an error meeting `E`. -/
def Ends (P : α → Prop) (E : ε → Prop) : Except ε α → Prop
  | .ok a => P a
  | .error e => E e

section Rules

variable {P Q : α → Prop} {E E' : ε → Prop}

@[simp] theorem ends_ok (a : α) : Ends P E (.ok a) ↔ P a := Iff.rfl

@[simp] theorem ends_error (e : ε) : Ends P E (.error e : Except ε α) ↔ E e := Iff.rfl

theorem ends_pure {a : α} (h : P a) : Ends P E (pure a) := h

/-- With no error allowed, `Ends` says the computation succeeds. -/
theorem ends_false_iff (r : Except ε α) : Ends P (fun _ => False) r ↔ ∃ a, r = .ok a ∧ P a := by
  cases r with
  | error e => simp
  | ok a => simp

theorem Ends.imp {r : Except ε α} (h : Ends P E r) (hP : ∀ a, P a → Q a) (hE : ∀ e, E e → E' e) :
    Ends Q E' r := by
  cases r with
  | error e => exact hE e h
  | ok a => exact hP a h

variable {x : Except ε α}

/-- **Sequencing.**  What the first computation ends in, the second starts from. -/
theorem Ends.bind {R : β → Prop} {f : α → Except ε β} (hx : Ends P E x)
    (hf : ∀ a, P a → Ends R E (f a)) : Ends R E (x >>= f) := by
  cases x with
  | error e => exact hx
  | ok a => exact hf a hx

theorem Ends.map {R : β → Prop} {f : α → β} (hx : Ends P E x) (hf : ∀ a, P a → R (f a)) :
    Ends R E (x.map f) := by
  cases x with
  | error e => exact hx
  | ok a => exact hf a hx

/-- **Loop rule.**  A `foldlM` whose every step keeps an invariant `I rest`,
indexed by the elements still to come, ends in `I []`. -/
theorem foldlM_ends {f : β → α → Except ε β} (I : List α → β → Prop)
    (hstep : ∀ a l b, I (a :: l) b → Ends (I l) E (f b a)) :
    ∀ (l : List α) (b : β), I l b → Ends (I []) E (l.foldlM f b)
  | [], _, h => h
  | a :: l, b, h => by
    rw [List.foldlM_cons]
    exact (hstep a l b h).bind fun b' hb' => foldlM_ends I hstep l b' hb'

/-- **`mapM` rule.**  A `mapM` whose every call ends in `P` or an error
meeting `E` ends in a list of values meeting `P`, or in such an error. -/
theorem mapM_ends {f : α → Except ε β} {R : β → Prop} :
    ∀ (l : List α), (∀ a ∈ l, Ends R E (f a)) → Ends (fun bs => ∀ b ∈ bs, R b) E (l.mapM f)
  | [], _ => fun _ h => by cases h
  | a :: l, h => by
    rw [List.mapM_cons]
    refine (h a List.mem_cons_self).bind fun b hb => ?_
    refine (mapM_ends l fun a' ha' => h a' (List.mem_cons_of_mem a ha')).bind fun bs hbs => ?_
    intro b' hb'
    rcases List.mem_cons.mp hb' with rfl | hb'
    · exact hb
    · exact hbs b' hb'

end Rules

/-- Every action of a run meets `Q` in the state it is taken from, up to the
first failing one. -/
def GuardedM (step : σ → α → Except ε σ) (Q : σ → α → Prop) : σ → List α → Prop
  | _, [] => True
  | s, a :: l => Q s a ∧ match step s a with
    | .ok s' => GuardedM step Q s' l
    | .error _ => True

instance instDecidableGuardedM {step : σ → α → Except ε σ} {Q : σ → α → Prop} [∀ s a, Decidable (Q s a)] :
    ∀ s l, Decidable (GuardedM step Q s l)
  | _, [] => inferInstanceAs (Decidable True)
  | s, a :: l =>
    match h : step s a with
    | .ok s' =>
      have : Decidable (GuardedM step Q s' l) := instDecidableGuardedM s' l
      decidable_of_iff (Q s a ∧ GuardedM step Q s' l) (by simp [GuardedM, h])
    | .error _ => decidable_of_iff (Q s a) (by simp [GuardedM, h])

/-- **Guarded invariant rule for a failing step.**  If every action meeting
`Q` from a state meeting `P` ends in `P` or in an error meeting `E`, then so
does a whole run all of whose actions meet `Q`. -/
theorem run_ends {step : σ → α → Except ε σ} (P : σ → Prop) (Q : σ → α → Prop) (E : ε → Prop)
    (hstep : ∀ s a, P s → Q s a → Ends P E (step s a)) :
    ∀ (l : List α) (s : σ), P s → GuardedM step Q s l → Ends P E (l.foldlM step s)
  | [], _, h, _ => h
  | a :: l, s, h, ⟨ha, hl⟩ => by
    rw [List.foldlM_cons]
    have hs := hstep s a h ha
    cases hr : step s a with
    | error e => rw [hr] at hs; exact hs
    | ok s' =>
      rw [hr] at hs hl
      exact run_ends P Q E hstep l s' hs hl

end Outcome
