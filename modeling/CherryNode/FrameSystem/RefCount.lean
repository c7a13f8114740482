import Mathlib
import CherryNode.FrameSystem.Account
import CherryNode.Lib.Run

/-!
# frame-system: the counters count the references held

A run is a list of calls of the reference-counting interface (`Op`), each
applied whether it returns `Ok` or `Err`.  A proof-only ghost (`Ghost`)
records per account the successful increments of each kind not yet matched,
the providers `try_mutate_exists` holds for the data, and the `NewAccount` and
`KilledAccount` events due when `providers + sufficients` leaves or returns to
zero (`lifecycle`).

Under the interface's contract (`Op.Allowed`) the storage agrees with the ghost
after every call (`Inv`, `refCounts_run`).  Without its last condition, that a
closure of `try_mutate_exists` does not leave `Some` of the default data, the
counters leak: the provider taken for `Some(default)` is never released, since
default data reads as not providing (`tryMutateExists_default_leaks_provider`).
-/

namespace FrameSystem

open EStateRun

variable {A D : Type} [LinearOrder A] [Inhabited D] [DecidableEq D]
variable {R : Type} {s' : St A D} {e : DispatchError}

/-- A call of the reference-counting interface; the closure of
`try_mutate_exists` returns nothing else. -/
inductive Op (A D : Type)
  | incProviders (who : A)
  | decProviders (who : A)
  | incSufficients (who : A)
  | decSufficients (who : A)
  | incConsumers (who : A)
  | decConsumers (who : A)
  | tryMutateExists (who : A) (f : Option D → Except DispatchError (Unit × Option D))

/-- The account a call is about. -/
def Op.who : Op A D → A
  | .incProviders who | .decProviders who | .incSufficients who | .decSufficients who
  | .incConsumers who | .decConsumers who | .tryMutateExists who _ => who

/-- The call, its result dropped.  (Inside `Op` the constructors shadow the
functions, hence the full names.) -/
def Op.exec : Op A D → M A D Unit
  | .incProviders who => do let _ ← FrameSystem.incProviders who; pure ()
  | .decProviders who => do let _ ← FrameSystem.decProviders who; pure ()
  | .incSufficients who => do let _ ← FrameSystem.incSufficients who; pure ()
  | .decSufficients who => do let _ ← FrameSystem.decSufficients who; pure ()
  | .incConsumers who => FrameSystem.incConsumers who
  | .decConsumers who => FrameSystem.decConsumers who
  | .tryMutateExists who f => FrameSystem.tryMutateExists who f

/-- `providers + sufficients`: the references that keep an account alive. -/
def St.total (s : St A D) (who : A) : Nat := (s.get who).providers + (s.get who).sufficients

/-- What `try_mutate_exists` hands its closure. -/
def St.storedData (s : St A D) (who : A) : Option D :=
  if isProviding (s.get who).data then some (s.get who).data else none

/-! ## The ghost -/

/-- The references held on one account: unmatched successful increments of
each kind, and those `try_mutate_exists` holds. -/
structure Refs where
  providers : Nat
  sufficients : Nat
  consumers : Nat
  stored : Nat
  deriving DecidableEq, Repr

instance : Inhabited Refs := ⟨⟨0, 0, 0, 0⟩⟩

/-- The references held on every account, and the events expected so far. -/
structure Ghost (A : Type) where
  refs : A → Refs
  events : List (Event A)

/-- The hooks that run when the alive references of `who` go from `before` to
`after`. -/
def lifecycle (who : A) (before after : Nat) : List (Event A) :=
  (if before = 0 ∧ 0 < after then [.newAccount who] else []) ++
    (if 0 < before ∧ after = 0 then [.killedAccount who] else [])

/-- The references a call takes and releases when it returns `Ok` from `s`. -/
def Op.count (s : St A D) : Op A D → Refs → Refs
  | .incProviders _, r => { r with providers := r.providers + 1 }
  | .decProviders _, r => { r with providers := r.providers - 1 }
  | .incSufficients _, r => { r with sufficients := r.sufficients + 1 }
  | .decSufficients _, r => { r with sufficients := r.sufficients - 1 }
  | .incConsumers _, r => { r with consumers := r.consumers + 1 }
  | .decConsumers _, r => { r with consumers := r.consumers - 1 }
  | .tryMutateExists who f, r =>
    -- `inc_providers` when the closure makes `Some` of `None`, `dec_providers` for the converse
    match f (s.storedData who) with
    | .ok (_, some _) => if isProviding (s.get who).data then r else { r with stored := r.stored + 1 }
    | .ok (_, none) => if isProviding (s.get who).data then { r with stored := r.stored - 1 } else r
    | .error _ => r

/-- The ghost after a call that returned `Ok`, from `s` to `s'`. -/
def Ghost.record (g : Ghost A) (op : Op A D) (s s' : St A D) : Ghost A :=
  ⟨Function.update g.refs op.who (op.count s (g.refs op.who)),
    g.events ++ lifecycle op.who (s.total op.who) (s'.total op.who)⟩

/-- One call of a run, with the ghost. -/
def sysStep (sg : St A D × Ghost A) (op : Op A D) : St A D × Ghost A :=
  match op.exec sg.1 with
  | .ok _ s' => (s', sg.2.record op sg.1 s')
  | .error _ s' => (s', sg.2)

/-- The empty storage, with no references held. -/
def emptySys : St A D × Ghost A := (⟨OrdMap.empty, []⟩, ⟨fun _ => default, []⟩)

/-! ## The contract -/

/-- The closure does not leave `Some` of the default data. -/
def leavesProvidingData (f : Option D → Except DispatchError (Unit × Option D)) (x : Option D) : Bool :=
  match f x with
  | .ok (_, some d) => isProviding d
  | _ => true

/-- What a call may assume: a decrement matches an unmatched increment of its
kind; an increment finds its counter below `u32::MAX` (with `providers +
sufficients`, which `inc_sufficients` adds on `u32`); and a closure of
`try_mutate_exists` does not leave `Some(default)`. -/
def Op.Allowed (sg : St A D × Ghost A) : Op A D → Prop
  | .incProviders who => sg.1.total who < refCountMax
  | .decProviders who => 0 < (sg.2.refs who).providers
  | .incSufficients who => sg.1.total who < refCountMax
  | .decSufficients who => 0 < (sg.2.refs who).sufficients
  | .incConsumers who => (sg.1.get who).consumers < refCountMax
  | .decConsumers who => 0 < (sg.2.refs who).consumers
  | .tryMutateExists who f => sg.1.total who < refCountMax ∧ leavesProvidingData f (sg.1.storedData who) = true

instance (sg : St A D × Ghost A) (op : Op A D) : Decidable (op.Allowed sg) :=
  match op with
  | .incProviders _ | .incSufficients _ | .incConsumers _ => inferInstanceAs (Decidable (_ < _))
  | .decProviders _ | .decSufficients _ | .decConsumers _ => inferInstanceAs (Decidable (_ < _))
  | .tryMutateExists _ _ => inferInstanceAs (Decidable (_ ∧ _))

/-! ## The invariant -/

/-- One account against the references held on it: whether its entry is
stored, and what `Account::get` reads. -/
structure AccountInv (present : Bool) (a : AccountInfo D) (r : Refs) : Prop where
  exists_iff : present = true ↔ 0 < a.providers + a.sufficients
  providers : a.providers = r.providers + r.stored
  sufficients : a.sufficients = r.sufficients
  consumers : a.consumers = r.consumers
  consumers_pos : 0 < a.consumers → 0 < a.providers
  stored : r.stored = if isProviding a.data then 1 else 0
  bounded : a.providers + a.sufficients ≤ refCountMax ∧ a.consumers ≤ refCountMax

/-- The storage agrees with the ghost. -/
structure Inv (sg : St A D × Ghost A) : Prop where
  account : ∀ who, AccountInv (sg.1.entry who).isSome (sg.1.get who) (sg.2.refs who)
  events : sg.1.events = sg.2.events

/-! ## The calls under the contract

Below the bound and on an account that holds what a decrement releases, each
counter call moves its counter by one, and the events it deposits are the
`lifecycle` ones. -/

section Calls

variable {s : St A D} {who : A}

omit [DecidableEq D] in
theorem entry_eq_some_get (he : (s.entry who).isSome) : s.entry who = some (s.get who) := by
  unfold St.get
  cases h : s.entry who with
  | none => rw [h] at he; cases he
  | some a => rfl

omit [LinearOrder A] in
theorem lifecycle_self (who : A) (n : Nat) : lifecycle who n n = [] := by
  unfold lifecycle
  split_ifs <;> first | rfl | omega

omit [LinearOrder A] in
theorem lifecycle_of_pos (who : A) {before after : Nat} (hb : 0 < before) (ha : 0 < after) :
    lifecycle who before after = [] := by
  unfold lifecycle
  rw [if_neg (by omega), if_neg (by omega)]
  rfl

omit [DecidableEq D] in
theorem incProviders_of_lt (hb : s.total who < refCountMax) :
    ∃ st, incProviders who s = .ok st (s.write who (some { s.get who with providers := (s.get who).providers + 1 })
      (lifecycle who (s.total who) ((s.get who).providers + 1 + (s.get who).sufficients))) := by
  unfold St.total at *
  rw [incProviders_apply]
  by_cases hnew : (s.get who).providers = 0 ∧ (s.get who).sufficients = 0
  · refine ⟨.created, ?_⟩
    simp only [lifecycle, hnew]
    rfl
  · refine ⟨.existed, ?_⟩
    rw [if_neg hnew, saturatingInc_of_lt (by omega), lifecycle_of_pos who (by omega) (by omega)]

omit [DecidableEq D] in
theorem incSufficients_of_lt (hb : s.total who < refCountMax) :
    ∃ st, incSufficients who s = .ok st (s.write who
      (some { s.get who with sufficients := (s.get who).sufficients + 1 })
      (lifecycle who (s.total who) ((s.get who).providers + ((s.get who).sufficients + 1)))) := by
  unfold St.total at *
  have hmod : ((s.get who).providers + (s.get who).sufficients) % 2 ^ 32 =
      (s.get who).providers + (s.get who).sufficients := by
    unfold refCountMax at hb
    exact Nat.mod_eq_of_lt (by omega)
  rw [incSufficients_apply, hmod]
  by_cases hnew : (s.get who).providers + (s.get who).sufficients = 0
  · refine ⟨.created, ?_⟩
    have hp0 : (s.get who).providers = 0 := by omega
    have hsf : (s.get who).sufficients = 0 := by omega
    rw [if_pos hnew]
    simp [lifecycle, hp0, hsf]
  · refine ⟨.existed, ?_⟩
    rw [if_neg hnew, saturatingInc_of_lt (by omega), lifecycle_of_pos who (by omega) (by omega)]

omit [LinearOrder A] [Inhabited D] [DecidableEq D] in
theorem lifecycle_reap {before : Nat} (hb : 0 < before) : lifecycle who before 0 = [.killedAccount who] := by
  unfold lifecycle
  rw [if_neg (by omega), if_pos ⟨hb, rfl⟩]
  rfl

omit [DecidableEq D] in
theorem decProviders_of_pos (hp : 0 < (s.get who).providers) (he : (s.entry who).isSome) :
    decProviders who s =
      if (s.get who).providers = 1 ∧ (s.get who).consumers = 0 ∧ (s.get who).sufficients = 0 then
        .ok .reaped (s.write who none (lifecycle who (s.total who) 0))
      else if (s.get who).providers = 1 ∧ 0 < (s.get who).consumers then .error .consumerRemaining s
      else .ok .stillExists (s.write who (some { s.get who with providers := (s.get who).providers - 1 })
        (lifecycle who (s.total who) ((s.get who).providers - 1 + (s.get who).sufficients))) := by
  rw [decProviders_apply, entry_eq_some_get he]
  dsimp only
  rw [if_neg (Nat.pos_iff_ne_zero.mp hp)]
  unfold St.total
  split_ifs with hreap hrefuse
  · rw [lifecycle_reap (by omega)]
  · rfl
  · rw [lifecycle_of_pos who (by omega) (by omega)]

omit [DecidableEq D] in
theorem decSufficients_of_pos (hsf : 0 < (s.get who).sufficients) (hb : (s.get who).sufficients ≤ refCountMax)
    (he : (s.entry who).isSome) :
    ∃ st, decSufficients who s = .ok st
      (if (s.get who).sufficients = 1 ∧ (s.get who).providers = 0 then
        s.write who none (lifecycle who (s.total who) 0)
      else s.write who (some { s.get who with sufficients := (s.get who).sufficients - 1 })
        (lifecycle who (s.total who) ((s.get who).providers + ((s.get who).sufficients - 1)))) := by
  rw [decSufficients_apply, entry_eq_some_get he]
  dsimp only
  unfold St.total
  by_cases hreap : (s.get who).sufficients = 1 ∧ (s.get who).providers = 0
  · refine ⟨.reaped, ?_⟩
    rw [if_pos (⟨.inr hreap.1, hreap.2⟩ : (_ ∨ _) ∧ _), if_pos hreap, lifecycle_reap (by omega)]
  · refine ⟨.stillExists, ?_⟩
    rw [if_neg (by omega), if_neg hreap, wrappingDec_of_pos hsf hb, lifecycle_of_pos who (by omega) (by omega)]

omit [Inhabited D] [DecidableEq D] in
theorem decProviders_error (h : decProviders who s = .error e s') :
    e = .consumerRemaining ∧ s' = s := by
  rw [decProviders_apply] at h
  split at h
  · revert h
    dsimp only
    split_ifs <;> intro h <;> cases h <;> exact ⟨rfl, rfl⟩
  · cases h

theorem tryMutateExists_of_error {f : Option D → Except DispatchError (R × Option D)}
    (hf : f (s.storedData who) = .error e) : FrameSystem.tryMutateExists who f s = .error e s := by
  unfold FrameSystem.tryMutateExists
  simp only [bind_apply, get_apply]
  rw [show (if isProviding (s.get who).data then some (s.get who).data else none) = s.storedData who from rfl, hf]
  rfl

/-! The four branches of `try_mutate_exists`, by whether the data was providing
and whether the closure leaves `Some`. -/

omit [DecidableEq D] in
theorem get_write_self (s : St A D) (who : A) (a : AccountInfo D) (evs : List (Event A)) :
    (s.write who (some a) evs).get who = a := by
  rw [get_write, if_pos rfl, Option.getD_some]

variable {result : R}

theorem tryMutateExists_new {f : Option D → Except DispatchError (R × Option D)} {d : D}
    (hb : s.total who < refCountMax) (hprov : isProviding (s.get who).data = false)
    (hf : f (s.storedData who) = .ok (result, some d)) :
    FrameSystem.tryMutateExists who f s = .ok result
      (s.write who (some { s.get who with providers := (s.get who).providers + 1, data := d })
        (lifecycle who (s.total who) ((s.get who).providers + 1 + (s.get who).sufficients))) := by
  obtain ⟨st, hinc⟩ := incProviders_of_lt hb
  unfold FrameSystem.tryMutateExists St.storedData at *
  simp only [bind_apply, get_apply, hprov, Bool.false_eq_true, ↓reduceIte] at hf ⊢
  rw [hf]
  simp only [bind_apply, pure_apply, Bool.not_false, Option.isSome_some, Bool.and_self, ↓reduceIte, hinc,
    writeData_apply, get_write_self, write_write, List.append_nil, Option.getD_some]

theorem tryMutateExists_release {f : Option D → Except DispatchError (R × Option D)}
    (hp : 0 < (s.get who).providers) (he : (s.entry who).isSome)
    (hprov : isProviding (s.get who).data = true) (hf : f (s.storedData who) = .ok (result, none)) :
    FrameSystem.tryMutateExists who f s =
      if (s.get who).providers = 1 ∧ (s.get who).consumers = 0 ∧ (s.get who).sufficients = 0 then
        .ok result (s.write who none (lifecycle who (s.total who) 0))
      else if (s.get who).providers = 1 ∧ 0 < (s.get who).consumers then .error .consumerRemaining s
      else .ok result
        (s.write who (some { s.get who with providers := (s.get who).providers - 1, data := default })
          (lifecycle who (s.total who) ((s.get who).providers - 1 + (s.get who).sufficients))) := by
  have hdec := decProviders_of_pos hp he
  unfold FrameSystem.tryMutateExists St.storedData at *
  simp only [bind_apply, get_apply, hprov, ↓reduceIte] at hf ⊢
  rw [hf]
  simp only [bind_apply, pure_apply, Bool.not_true, Option.isSome_none, Bool.false_eq_true, Bool.not_false,
    Bool.and_self, ↓reduceIte, hdec]
  split_ifs
  · rfl
  · rfl
  · simp only [bind_apply, pure_apply, writeData_apply, get_write_self, write_write, List.append_nil,
      Option.getD_none]

theorem tryMutateExists_untouched {f : Option D → Except DispatchError (R × Option D)}
    (hprov : isProviding (s.get who).data = false) (hf : f (s.storedData who) = .ok (result, none)) :
    FrameSystem.tryMutateExists who f s = .ok result s := by
  unfold FrameSystem.tryMutateExists St.storedData at *
  simp only [bind_apply, get_apply, hprov, Bool.false_eq_true, ↓reduceIte] at hf ⊢
  rw [hf]
  rfl

theorem tryMutateExists_update {f : Option D → Except DispatchError (R × Option D)} {d : D}
    (hprov : isProviding (s.get who).data = true) (hf : f (s.storedData who) = .ok (result, some d)) :
    FrameSystem.tryMutateExists who f s = .ok result (s.write who (some { s.get who with data := d }) []) := by
  unfold FrameSystem.tryMutateExists St.storedData at *
  simp only [bind_apply, get_apply, hprov, ↓reduceIte] at hf ⊢
  rw [hf]
  simp only [bind_apply, pure_apply, Bool.not_true, Option.isSome_some, Bool.and_true, Bool.false_eq_true,
    Bool.and_false, ↓reduceIte, writeData_apply, Option.getD_some]

end Calls

/-! ## One call -/

section Steps

variable {s : St A D} {g : Ghost A}

variable {op : Op A D} {r : Refs}

theorem sysStep_ok (h : op.exec s = .ok () s') :
    sysStep (s, g) op = (s', g.record op s s') := by
  simp only [sysStep, h]

theorem sysStep_error (h : op.exec s = .error e s') :
    sysStep (s, g) op = (s', g) := by
  simp only [sysStep, h]

omit [DecidableEq D] in
theorem total_write (s : St A D) (who : A) (e : Option (AccountInfo D)) (evs : List (Event A)) :
    (s.write who e evs).total who = (e.getD default).providers + (e.getD default).sufficients := by
  simp only [St.total, get_write, ↓reduceIte]

theorem isProviding_default : isProviding (default : D) = false := by
  simp [isProviding]

theorem accountInv_none : AccountInv false (default : AccountInfo D) default :=
  ⟨by simp [default], rfl, rfl, rfl, fun h => absurd h (Nat.lt_irrefl 0),
    by rw [show (default : AccountInfo D).data = default from rfl, isProviding_default]; rfl,
    ⟨Nat.zero_le _, Nat.zero_le _⟩⟩

theorem accountInv_some {a : AccountInfo D} (hpos : 0 < a.providers + a.sufficients)
    (hp : a.providers = r.providers + r.stored) (hs : a.sufficients = r.sufficients)
    (hc : a.consumers = r.consumers) (hcp : 0 < a.consumers → 0 < a.providers)
    (hst : r.stored = if isProviding a.data then 1 else 0)
    (hb : a.providers + a.sufficients ≤ refCountMax) (hbc : a.consumers ≤ refCountMax) :
    AccountInv true a r :=
  ⟨⟨fun _ => hpos, fun _ => rfl⟩, hp, hs, hc, hcp, hst, ⟨hb, hbc⟩⟩

theorem Inv.get (h : Inv (s, g)) (who : A) : AccountInv (s.entry who).isSome (s.get who) (g.refs who) :=
  h.account who

/-- **Rule for a call that writes one entry**: the new entry against the
references the call counts, and the events it deposits against `lifecycle`. -/
theorem Inv.write (h : Inv (s, g)) (e : Option (AccountInfo D)) (evs : List (Event A))
    (hexec : op.exec s = .ok () (s.write op.who e evs))
    (ha : AccountInv e.isSome (e.getD default) (op.count s (g.refs op.who)))
    (hevs : lifecycle op.who (s.total op.who) ((e.getD default).providers + (e.getD default).sufficients) = evs) :
    Inv (sysStep (s, g) op) := by
  rw [sysStep_ok hexec]
  constructor
  · intro k
    show AccountInv ((s.write op.who e evs).entry k).isSome ((s.write op.who e evs).get k)
      (Function.update g.refs op.who (op.count s (g.refs op.who)) k)
    by_cases hk : op.who = k
    · subst hk
      rw [entry_write, get_write, if_pos rfl, if_pos rfl, Function.update_self]
      exact ha
    · rw [entry_write, get_write, if_neg hk, if_neg hk, Function.update_of_ne (Ne.symm hk)]
      exact h.account k
  · show s.events ++ evs = g.events ++ lifecycle op.who (s.total op.who) ((s.write op.who e evs).total op.who)
    rw [h.events, total_write, hevs]

theorem Inv.write_some (h : Inv (s, g)) (a : AccountInfo D) (evs : List (Event A))
    (hexec : op.exec s = .ok () (s.write op.who (some a) evs))
    (ha : AccountInv true a (op.count s (g.refs op.who)))
    (hevs : lifecycle op.who (s.total op.who) (a.providers + a.sufficients) = evs) :
    Inv (sysStep (s, g) op) :=
  h.write (some a) evs hexec ha hevs

theorem Inv.write_none (h : Inv (s, g)) (evs : List (Event A))
    (hexec : op.exec s = .ok () (s.write op.who none evs))
    (hr : op.count s (g.refs op.who) = default)
    (hevs : lifecycle op.who (s.total op.who) 0 = evs) :
    Inv (sysStep (s, g) op) :=
  h.write none evs hexec (hr ▸ accountInv_none) hevs

/-- **Rule for a call that fails**: it wrote nothing. -/
theorem Inv.error (h : Inv (s, g)) (hexec : op.exec s = .error e s) :
    Inv (sysStep (s, g) op) := by
  rw [sysStep_error hexec]
  exact h

/-- **Rule for a call that succeeds without a write.** -/
theorem Inv.same (h : Inv (s, g)) (hexec : op.exec s = .ok () s)
    (hcount : op.count s (g.refs op.who) = g.refs op.who) : Inv (sysStep (s, g) op) := by
  rw [sysStep_ok hexec]
  constructor
  · intro k
    show AccountInv (s.entry k).isSome (s.get k) (Function.update g.refs op.who (op.count s (g.refs op.who)) k)
    rw [hcount, Function.update_eq_self]
    exact h.account k
  · show s.events = g.events ++ lifecycle op.who (s.total op.who) (s.total op.who)
    rw [lifecycle_self, List.append_nil, h.events]

theorem Refs.eq_default (hp : r.providers = 0) (hs : r.sufficients = 0) (hc : r.consumers = 0)
    (hst : r.stored = 0) : r = default := by
  cases r
  simp only at hp hs hc hst
  subst hp hs hc hst
  rfl

/-! ### The counters -/

theorem Inv.incProviders (h : Inv (s, g)) (who : A) (hbound : s.total who < refCountMax) :
    Inv (sysStep (s, g) (.incProviders who)) := by
  obtain ⟨-, hp, hs, hc, hcp, hst, hb, hbc⟩ := h.get who
  obtain ⟨st, hexec⟩ := incProviders_of_lt hbound
  unfold St.total at hbound
  refine h.write_some _ _ (bind_discard_of_ok hexec) ?_ rfl
  refine accountInv_some ?_ ?_ hs hc ?_ hst ?_ hbc <;> dsimp only [Op.count, Op.who] <;> omega

theorem Inv.incSufficients (h : Inv (s, g)) (who : A) (hbound : s.total who < refCountMax) :
    Inv (sysStep (s, g) (.incSufficients who)) := by
  obtain ⟨-, hp, hs, hc, hcp, hst, hb, hbc⟩ := h.get who
  obtain ⟨st, hexec⟩ := incSufficients_of_lt hbound
  unfold St.total at hbound
  refine h.write_some _ _ (bind_discard_of_ok hexec) ?_ rfl
  refine accountInv_some ?_ hp ?_ hc hcp hst ?_ hbc <;> dsimp only [Op.count, Op.who] <;> omega

theorem Inv.decProviders (h : Inv (s, g)) (who : A) (hpos : 0 < (g.refs who).providers) :
    Inv (sysStep (s, g) (.decProviders who)) := by
  obtain ⟨hex, hp, hs, hc, hcp, hst, hb, hbc⟩ := h.get who
  have he : (s.entry who).isSome := hex.mpr (by omega)
  have hexec := decProviders_of_pos (by omega) he
  split_ifs at hexec with hreap hrefuse
  · -- the last reference goes, and the entry with it
    refine h.write_none _ (bind_discard_of_ok hexec) ?_ rfl
    apply Refs.eq_default <;> dsimp only [Op.count, Op.who] <;> omega
  · exact h.error (e := .consumerRemaining) (by simp only [Op.exec, bind_apply, hexec])
  · refine h.write_some _ _ (bind_discard_of_ok hexec) ?_ rfl
    refine accountInv_some ?_ ?_ hs hc ?_ hst ?_ hbc <;> dsimp only [Op.count, Op.who] <;> omega

theorem Inv.decSufficients (h : Inv (s, g)) (who : A) (hpos : 0 < (g.refs who).sufficients) :
    Inv (sysStep (s, g) (.decSufficients who)) := by
  obtain ⟨hex, hp, hs, hc, hcp, hst, hb, hbc⟩ := h.get who
  have he : (s.entry who).isSome := hex.mpr (by omega)
  obtain ⟨st, hexec⟩ := decSufficients_of_pos (by omega) (by omega) he
  by_cases hreap : (s.get who).sufficients = 1 ∧ (s.get who).providers = 0
  · rw [if_pos hreap] at hexec
    refine h.write_none _ (bind_discard_of_ok hexec) ?_ rfl
    apply Refs.eq_default <;> dsimp only [Op.count, Op.who] <;> omega
  · rw [if_neg hreap] at hexec
    refine h.write_some _ _ (bind_discard_of_ok hexec) ?_ rfl
    refine accountInv_some ?_ hp ?_ hc hcp hst ?_ hbc <;> dsimp only [Op.count, Op.who] <;> omega

theorem Inv.incConsumers (h : Inv (s, g)) (who : A) (hbound : (s.get who).consumers < refCountMax) :
    Inv (sysStep (s, g) (.incConsumers who)) := by
  obtain ⟨-, hp, hs, hc, hcp, hst, hb, hbc⟩ := h.get who
  by_cases hprov : 0 < (s.get who).providers
  · have hexec := incConsumers_apply who s
    rw [if_pos hprov, saturatingInc_of_lt hbound] at hexec
    refine h.write_some _ _ hexec ?_ (lifecycle_self who _)
    refine accountInv_some ?_ hp hs ?_ ?_ hst hb ?_ <;> dsimp only [Op.count, Op.who] <;> omega
  · exact h.error (by rw [Op.exec, incConsumers_apply, if_neg hprov])

theorem Inv.decConsumers (h : Inv (s, g)) (who : A) (hpos : 0 < (g.refs who).consumers) :
    Inv (sysStep (s, g) (.decConsumers who)) := by
  obtain ⟨-, hp, hs, hc, hcp, hst, hb, hbc⟩ := h.get who
  have hc0 : 0 < (s.get who).consumers := by omega
  have hexec := decConsumers_apply who s
  rw [if_pos hc0] at hexec
  refine h.write_some _ _ hexec ?_ (lifecycle_self who _)
  refine accountInv_some ?_ hp hs ?_ ?_ hst hb ?_ <;> dsimp only [Op.count, Op.who] <;> omega

/-! ### `try_mutate_exists` -/

theorem Inv.tryMutateExists (h : Inv (s, g)) (who : A) (f : Option D → Except DispatchError (Unit × Option D))
    (hbound : s.total who < refCountMax) (hleave : leavesProvidingData f (s.storedData who) = true) :
    Inv (sysStep (s, g) (.tryMutateExists who f)) := by
  obtain ⟨hex, hp, hs, hc, hcp, hst, hb, hbc⟩ := h.get who
  rcases hf : f (s.storedData who) with e | ⟨⟨⟩, _ | d⟩
  · -- the closure fails, and nothing is written
    exact h.error (tryMutateExists_of_error hf)
  · cases hprov : isProviding (s.get who).data
    · exact h.same (tryMutateExists_untouched hprov hf)
        (by simp only [Op.count, Op.who, hf, hprov, Bool.false_eq_true, ↓reduceIte])
    · -- the data is cleared: `dec_providers` releases its reference
      rw [hprov, if_pos rfl] at hst
      have he : (s.entry who).isSome := hex.mpr (by omega)
      have hexec := tryMutateExists_release (by omega) he hprov hf
      have hcount : Op.count s (.tryMutateExists who f) (g.refs who) =
          { g.refs who with stored := 0 } := by
        simp only [Op.count, hf, hprov, ↓reduceIte, hst]
      split_ifs at hexec with hreap hrefuse
      · refine h.write_none _ hexec ?_ rfl
        rw [Op.who, hcount]
        apply Refs.eq_default <;> dsimp only <;> omega
      · exact h.error hexec
      · refine h.write_some _ _ hexec ?_ rfl
        rw [Op.who, hcount]
        refine accountInv_some ?_ ?_ hs hc ?_ ?_ ?_ hbc <;> dsimp only
        all_goals first | omega | simp [isProviding_default]
  · -- the closure leaves providing data
    have hd : isProviding d = true := by simpa [leavesProvidingData, hf] using hleave
    cases hprov : isProviding (s.get who).data
    · -- `inc_providers` takes a reference for it
      simp only [hprov, Bool.false_eq_true, ↓reduceIte] at hst
      refine h.write_some _ _ (tryMutateExists_new hbound hprov hf) ?_ rfl
      have hcount : Op.count s (.tryMutateExists who f) (g.refs who) = { g.refs who with stored := 1 } := by
        simp only [Op.count, hf, hprov, hst, Bool.false_eq_true, ↓reduceIte]
      unfold St.total at hbound
      rw [Op.who, hcount]
      refine accountInv_some ?_ ?_ hs hc ?_ ?_ ?_ hbc <;> dsimp only
      all_goals first | omega | simp [hd]
    · -- written in place, under the reference it already holds
      refine h.write_some _ _ (tryMutateExists_update hprov hf) ?_ (lifecycle_self who _)
      have hcount : Op.count s (.tryMutateExists who f) (g.refs who) = g.refs who := by
        simp only [Op.count, hf, hprov, ↓reduceIte]
      rw [Op.who, hcount]
      rw [hprov, if_pos rfl] at hst
      refine accountInv_some ?_ hp hs hc hcp ?_ hb hbc <;> dsimp only
      all_goals first | omega | simp [hd, hst]

/-- **Step lemma.** -/
theorem Inv.step {sg : St A D × Ghost A} (h : Inv sg) (hallowed : op.Allowed sg) :
    Inv (sysStep sg op) := by
  obtain ⟨s, g⟩ := sg
  cases op with
  | incProviders who => exact h.incProviders who hallowed
  | decProviders who => exact h.decProviders who hallowed
  | incSufficients who => exact h.incSufficients who hallowed
  | decSufficients who => exact h.decSufficients who hallowed
  | incConsumers who => exact h.incConsumers who hallowed
  | decConsumers who => exact h.decConsumers who hallowed
  | tryMutateExists who f => exact h.tryMutateExists who f hallowed.1 hallowed.2

end Steps

/-- The empty storage holds no references. -/
theorem Inv.empty : Inv (emptySys : St A D × Ghost A) :=
  ⟨fun _ => accountInv_none, rfl⟩

/-- **Run theorem.**  Along every run that keeps the contract, from a state
whose counters count the references held, the storage keeps agreeing with the
references and the events; a refused `dec_providers` writes nothing. -/
theorem refCounts_run (ops : List (Op A D)) (sg : St A D × Ghost A) (h : Inv sg)
    (hallowed : StepRun.Guarded sysStep (fun sg op => op.Allowed sg) sg ops) :
    Inv (ops.foldl sysStep sg) ∧
      ∀ (who : A) (e : DispatchError) (s' : St A D), decProviders who (ops.foldl sysStep sg).1 = .error e s' →
        e = .consumerRemaining ∧ s' = (ops.foldl sysStep sg).1 :=
  ⟨StepRun.foldl_invariant Inv _ (fun _ _ hi ha => hi.step ha) ops sg h hallowed,
    fun _ _ _ hdec => decProviders_error hdec⟩

/-- Account `1` takes a provider, stores data through `try_mutate_exists`,
takes a consumer, and releases them all again; account `2` lives on a
sufficient reference alone. -/
def sampleRun : List (Op Nat Nat) :=
  [.incProviders 1, .tryMutateExists 1 (fun _ => .ok ((), some 5)), .incConsumers 1, .incSufficients 2,
    .decProviders 1, .decConsumers 1, .tryMutateExists 1 (fun _ => .ok ((), none)), .decSufficients 2]

theorem refCounts_run_sample :
    StepRun.Guarded sysStep (fun sg op => op.Allowed sg) emptySys sampleRun ∧
      Inv (sampleRun.foldl sysStep emptySys) ∧
      ∀ (who : Nat) (e : DispatchError) (s' : St Nat Nat),
        decProviders who (sampleRun.foldl sysStep emptySys).1 = .error e s' →
          e = .consumerRemaining ∧ s' = (sampleRun.foldl sysStep emptySys).1 :=
  have hallowed : StepRun.Guarded sysStep (fun sg op => op.Allowed sg) emptySys sampleRun := by decide
  ⟨hallowed, refCounts_run sampleRun emptySys Inv.empty hallowed⟩

/-- `try_mutate_exists` stores the default data, then clears it. -/
def defaultDataRun : List (Op Nat Nat) :=
  [.tryMutateExists 1 (fun _ => .ok ((), some 0)), .tryMutateExists 1 (fun _ => .ok ((), none))]

/-- The provider leaks: storing `Some(default)` takes a provider reference,
but default data reads as not providing, so clearing it never releases the
reference, and the account lives on with default data and one provider that no
call holds. -/
theorem tryMutateExists_default_leaks_provider :
    ((defaultDataRun.foldl sysStep emptySys).1.entry 1).isSome = true ∧
      ((defaultDataRun.foldl sysStep emptySys).1.get 1).providers = 1 ∧
      ((defaultDataRun.foldl sysStep emptySys).1.get 1).data = default ∧
      ¬ Inv (defaultDataRun.foldl sysStep emptySys) := by
  refine ⟨by decide, by decide, by decide, fun hi => ?_⟩
  have hst := (hi.account 1).stored
  revert hst
  decide

end FrameSystem
