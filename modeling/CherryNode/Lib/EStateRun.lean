import Mathlib

/-!
# Running `EStateM` programs

Code that reads and writes storage and may fail, with the writes made before a
failure kept, is an `EStateM ε σ` program: both results carry the state
reached.  These equations evaluate such a program on a given state, so that
`simp` runs it once the facts its branches test are known.  `toResult` is
Rust's `match f() { Ok(r) => .., Err(e) => .. }` on a fallible call: the error
becomes a value and the state reached is kept.
-/

namespace EStateRun

variable {ε σ α β : Type}

/-- The outcome of `x` as a value; the state reached is kept either way. -/
def toResult (x : EStateM ε σ α) : EStateM ε σ (Except ε α) := fun s =>
  match x s with
  | .ok a s' => .ok (.ok a) s'
  | .error e s' => .ok (.error e) s'

@[simp] theorem pure_apply (a : α) (s : σ) : (pure a : EStateM ε σ α) s = .ok a s := rfl

@[simp] theorem throw_apply (e : ε) (s : σ) : (throw e : EStateM ε σ α) s = .error e s := rfl

@[simp] theorem get_apply (s : σ) : (get : EStateM ε σ σ) s = .ok s s := rfl

@[simp] theorem set_apply (s' s : σ) : (set s' : EStateM ε σ PUnit) s = .ok ⟨⟩ s' := rfl

@[simp] theorem modify_apply (f : σ → σ) (s : σ) : (modify f : EStateM ε σ PUnit) s = .ok ⟨⟩ (f s) := rfl

@[simp] theorem bind_apply (x : EStateM ε σ α) (f : α → EStateM ε σ β) (s : σ) :
    (x >>= f) s = match x s with
      | .ok a s' => f a s'
      | .error e s' => .error e s' := by
  show EStateM.bind x f s = _
  unfold EStateM.bind
  cases x s <;> rfl

theorem bind_discard_of_ok {x : EStateM ε σ α} {s s' : σ} {a : α} (h : x s = .ok a s') :
    (x >>= fun _ => pure ()) s = (.ok () s' : EStateM.Result ε σ Unit) := by
  rw [bind_apply, h]
  rfl

@[simp] theorem map_apply (f : α → β) (x : EStateM ε σ α) (s : σ) :
    (f <$> x) s = match x s with
      | .ok a s' => .ok (f a) s'
      | .error e s' => .error e s' := by
  show EStateM.map f x s = _
  unfold EStateM.map
  cases x s <;> rfl

/-- A fallible computation that does not touch the state, run as a program:
its error is raised in the state it started from. -/
def ofExcept (r : Except ε α) : EStateM ε σ α := fun s =>
  match r with
  | .ok a => .ok a s
  | .error e => .error e s

@[simp] theorem ofExcept_ok (a : α) (s : σ) : (ofExcept (.ok a) : EStateM ε σ α) s = .ok a s := rfl

@[simp] theorem ofExcept_error (e : ε) (s : σ) : (ofExcept (.error e) : EStateM ε σ α) s = .error e s := rfl

/-- The state an outcome ends in, a success's or an error's. -/
def stateOf : EStateM.Result ε σ α → σ
  | .ok _ s => s
  | .error _ s => s

@[simp] theorem stateOf_ok (a : α) (s : σ) : stateOf (.ok a s : EStateM.Result ε σ α) = s := rfl

@[simp] theorem stateOf_error (e : ε) (s : σ) : stateOf (.error e s : EStateM.Result ε σ α) = s := rfl

@[simp] theorem toResult_apply (x : EStateM ε σ α) (s : σ) :
    toResult x s = match x s with
      | .ok a s' => .ok (.ok a) s'
      | .error e s' => .ok (.error e) s' := rfl

/-! ## Postconditions

`Sat r F E`: the outcome `r` meets `F` on success and `E` on failure, each
with the state reached.  `sat_bind` is the rule of sequencing: what `x >>= f`
must meet is what `x` must meet, with `f` run on the value in the
postcondition. -/

/-- The outcome meets `F` on success and `E` on failure. -/
def Sat (r : EStateM.Result ε σ α) (F : α → σ → Prop) (E : ε → σ → Prop) : Prop :=
  match r with
  | .ok a s => F a s
  | .error e s => E e s

@[simp] theorem sat_ok (a : α) (s : σ) (F : α → σ → Prop) (E : ε → σ → Prop) :
    Sat (.ok a s) F E ↔ F a s := Iff.rfl

@[simp] theorem sat_error (e : ε) (s : σ) (F : α → σ → Prop) (E : ε → σ → Prop) :
    Sat (.error e s) F E ↔ E e s := Iff.rfl

theorem sat_bind (x : EStateM ε σ α) (f : α → EStateM ε σ β) (s : σ) (F : β → σ → Prop) (E : ε → σ → Prop) :
    Sat ((x >>= f) s) F E ↔ Sat (x s) (fun a s' => Sat (f a s') F E) E := by
  rw [bind_apply]
  cases x s <;> rfl

theorem sat_if (c : Prop) [Decidable c] (r₁ r₂ : EStateM.Result ε σ α) (F : α → σ → Prop) (E : ε → σ → Prop) :
    Sat (if c then r₁ else r₂) F E ↔ (c → Sat r₁ F E) ∧ (¬c → Sat r₂ F E) := by
  by_cases h : c <;> simp [h]

theorem sat_ite (c : Prop) [Decidable c] (x y : EStateM ε σ α) (s : σ) (F : α → σ → Prop) (E : ε → σ → Prop) :
    Sat ((if c then x else y) s) F E ↔ (c → Sat (x s) F E) ∧ (¬c → Sat (y s) F E) := by
  by_cases h : c <;> simp [h]

variable {r : EStateM.Result ε σ α}

theorem Sat.imp {F F' : α → σ → Prop} {E E' : ε → σ → Prop}
    (h : Sat r F E) (hF : ∀ a s, F a s → F' a s) (hE : ∀ e s, E e s → E' e s) : Sat r F' E' := by
  cases r with
  | ok a s => exact hF a s h
  | error e s => exact hE e s h

theorem sat_toResult (x : EStateM ε σ α) (s : σ) (F : Except ε α → σ → Prop) (E : ε → σ → Prop) :
    Sat (toResult x s) F E ↔ Sat (x s) (fun a s' => F (.ok a) s') (fun e s' => F (.error e) s') := by
  rw [toResult_apply]
  cases x s <;> rfl

/-- Two postconditions of one outcome. -/
theorem Sat.and {F₁ F₂ : α → σ → Prop} {E₁ E₂ : ε → σ → Prop}
    (h₁ : Sat r F₁ E₁) (h₂ : Sat r F₂ E₂) :
    Sat r (fun a s => F₁ a s ∧ F₂ a s) (fun e s => E₁ e s ∧ E₂ e s) := by
  cases r with
  | ok a s => exact ⟨h₁, h₂⟩
  | error e s => exact ⟨h₁, h₂⟩

theorem sat_adaptExcept {ε' : Type} (f : ε → ε') (x : EStateM ε σ α) (s : σ) (F : α → σ → Prop)
    (E : ε' → σ → Prop) :
    Sat (x.adaptExcept f s) F E ↔ Sat (x s) F (fun e s' => E (f e) s') := by
  show Sat (match x s with | .error e s => .error (f e) s | .ok a s => .ok a s) F E ↔ _
  cases x s <;> rfl

end EStateRun
