import Mathlib
import CherryNode.Lib.EStateRun

/-!
# FRAME dispatch in this version: origins, errors, no storage transaction

A dispatchable reads and writes storage and returns `DispatchResult`.  In this
FRAME version dispatch is *not* wrapped in a storage transaction: the writes a
call made before it returned `Err` stay.  That is exactly `EStateM`: both of its
results carry the state reached.  A panic (`unwrap` on `None`) is different: it
aborts the whole extrinsic, which is then not part of the block, so nothing of
it stays (`applyCall`).
-/

namespace Frame

/-- `Vec<u8>`. -/
abbrev Bytes := List (Fin 256)

/-- A byte literal's bound is not zero. -/
theorem byte_neZero : NeZero (256 : Nat) := ⟨by decide⟩

/-- The origin of a call (`frame_system::RawOrigin`). -/
inductive Origin (Acc : Type)
  | root
  | signed (who : Acc)
  | none
  deriving DecidableEq, Repr

/-- What a dispatchable can end with besides `Ok`: a bad origin, an error of
its pallet, or a panic. -/
inductive DispatchError (E : Type)
  | badOrigin
  | module (e : E)
  | panic
  deriving DecidableEq, Repr

/-- A dispatchable over storage `σ` with pallet errors `E`. -/
abbrev Call (σ E α : Type) := EStateM (DispatchError E) σ α

variable {σ E α Acc : Type}

/-- `ensure_signed`. -/
def ensureSigned (o : Origin Acc) : Call σ E Acc :=
  match o with
  | .signed who => pure who
  | _ => throw .badOrigin

/-- `ensure_root`. -/
def ensureRoot (o : Origin Acc) : Call σ E Unit :=
  match o with
  | .root => pure ()
  | _ => throw .badOrigin

/-- `ensure!(c, e)`. -/
def ensure (c : Prop) [Decidable c] (e : E) : Call σ E Unit :=
  if c then pure () else throw (.module e)

/-- `o.ok_or(e)?`. -/
def okOr (o : Option α) (e : E) : Call σ E α :=
  match o with
  | some a => pure a
  | none => throw (.module e)

/-- `o.unwrap()`: a panic on `None`. -/
def unwrap (o : Option α) : Call σ E α :=
  match o with
  | some a => pure a
  | none => throw .panic

/-- The storage after an extrinsic: `Ok` and `Err` keep the writes made, a
panic discards the extrinsic. -/
def applyCall (c : Call σ E Unit) (s : σ) : σ :=
  match c s with
  | .ok _ s' => s'
  | .error .panic _ => s
  | .error _ s' => s'

/-- The result a call returns. -/
def callResult (c : Call σ E Unit) (s : σ) : Except (DispatchError E) Unit :=
  match c s with
  | .ok _ _ => .ok ()
  | .error e _ => .error e

/-! ## Running a call step by step

These equations evaluate a call on a given storage; with them `simp` runs a
dispatchable symbolically once the facts its branches test are known. -/

@[simp] theorem pure_apply (a : α) (s : σ) : (pure a : Call σ E α) s = .ok a s := rfl

@[simp] theorem throw_apply (e : DispatchError E) (s : σ) :
    (throw e : Call σ E α) s = .error e s := rfl

@[simp] theorem get_apply (s : σ) : (get : Call σ E σ) s = .ok s s := rfl

@[simp] theorem set_apply (s' s : σ) : (set s' : Call σ E Unit) s = .ok () s' := rfl

@[simp] theorem modify_apply (f : σ → σ) (s : σ) :
    (modify f : Call σ E Unit) s = .ok () (f s) := rfl

@[simp] theorem bind_apply {β : Type} (x : Call σ E α) (f : α → Call σ E β) (s : σ) :
    (x >>= f) s = match x s with
      | .ok a s' => f a s'
      | .error e s' => .error e s' := by
  show EStateM.bind x f s = _
  unfold EStateM.bind
  cases x s <;> rfl

@[simp] theorem ensureSigned_signed (who : Acc) (s : σ) :
    (ensureSigned (.signed who) : Call σ E Acc) s = .ok who s := rfl

@[simp] theorem ensureSigned_root (s : σ) :
    (ensureSigned (.root : Origin Acc) : Call σ E Acc) s = .error .badOrigin s := rfl

@[simp] theorem ensureSigned_none (s : σ) :
    (ensureSigned (.none : Origin Acc) : Call σ E Acc) s = .error .badOrigin s := rfl

@[simp] theorem ensureRoot_root (s : σ) : (ensureRoot (.root : Origin Acc) : Call σ E Unit) s = .ok () s := rfl

@[simp] theorem ensure_apply (c : Prop) [Decidable c] (e : E) (s : σ) :
    (ensure c e : Call σ E Unit) s = if c then .ok () s else .error (.module e) s := by
  by_cases h : c <;> simp [ensure, h]

@[simp] theorem okOr_some (a : α) (e : E) (s : σ) :
    (okOr (some a) e : Call σ E α) s = .ok a s := rfl

@[simp] theorem okOr_none (e : E) (s : σ) :
    (okOr (none : Option α) e : Call σ E α) s = .error (.module e) s := rfl

@[simp] theorem unwrap_some (a : α) (s : σ) : (unwrap (some a) : Call σ E α) s = .ok a s := rfl

@[simp] theorem unwrap_none (s : σ) : (unwrap (none : Option α) : Call σ E α) s = .error .panic s :=
  rfl

theorem applyCall_of_sat {P : σ → Prop} {c : Call σ E Unit} {s : σ} (hs : P s)
    (h : EStateRun.Sat (c s) (fun _ s' => P s') (fun _ s' => s' = s)) : P (applyCall c s) := by
  unfold applyCall
  cases hc : c s with
  | ok _ s' =>
    rw [hc] at h
    exact h
  | error e s' =>
    rw [hc, EStateRun.sat_error] at h
    subst h
    cases e <;> exact hs

end Frame
