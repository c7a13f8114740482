import CherryNode.FrameSystem.Account
import CherryNode.Lib.Run

/-!
# pallet-session: the keys of the validators

`NextKeys` maps a validator to its session keys, and `KeyOwner` maps each raw
key, under its key type, back to the validator.  `do_set_keys` checks that no
new key belongs to another validator, then per key type takes back the old key
and gives out the new one, skipping unchanged types; `do_purge_keys` takes the
keys and frees every raw key.  Over `T::Keys::key_ids()` the two maps stay
inverse (`KeysInv.owner`).

A validator that gets keys for the first time takes a consumer reference on the
calling account, and `do_purge_keys` gives one back; `consumerRefs` records
those not yet given back.  They sit on the accounts of the validators with
keys, one each (`KeysInv.refs`), when `T::ValidatorIdOf` is injective;
otherwise a purge through a second account gives back the first one's
(`purge_through_other_account`).
-/

namespace Session

open EStateRun

/-- What the calls read of `T`: `ValidatorIdOf::convert`, `Keys::key_ids()`
and `OpaqueKeys::get_raw`. -/
structure Config (A W K R Keys : Type) where
  validatorIdOf : A → Option W
  keyIds : List K
  getRaw : Keys → K → R

/-- The errors of `do_set_keys` and `do_purge_keys`. -/
inductive Error
  | noAssociatedValidatorId
  | noAccount
  | duplicatedKey
  | noKeys
  deriving DecidableEq, Repr

/-- `NextKeys`, `KeyOwner`, the accounts of frame-system, and the consumer
references the pallet holds on them. -/
structure St (A W K R Keys D : Type) [LinearOrder A] [LinearOrder W] where
  nextKeys : OrdMap W Keys
  keyOwner : K × R → Option W
  system : FrameSystem.St A D
  consumerRefs : List A

abbrev M (A W K R Keys D : Type) [LinearOrder A] [LinearOrder W] := EStateM Error (St A W K R Keys D)

variable {A W K R Keys D : Type} [LinearOrder A] [LinearOrder W] [DecidableEq K] [DecidableEq R]
variable {account : A}
  [Inhabited D]

/-! ## Storage -/

/-- `load_keys`. -/
def loadKeys (v : W) : M A W K R Keys D (Option Keys) := do
  return (← get).nextKeys.get? v

/-- `take_keys`: the keys, and the entry removed. -/
def takeKeys (v : W) : M A W K R Keys D (Option Keys) := do
  let keys := (← get).nextKeys.get? v
  modify fun s => { s with nextKeys := s.nextKeys.erase v }
  return keys

/-- `put_keys`. -/
def putKeys (v : W) (keys : Keys) : M A W K R Keys D Unit :=
  modify fun s => { s with nextKeys := s.nextKeys.insert v keys }

/-- `key_owner`. -/
def keyOwner (id : K) (keyData : R) : M A W K R Keys D (Option W) := do
  return (← get).keyOwner (id, keyData)

/-- `put_key_owner`. -/
def putKeyOwner (id : K) (keyData : R) (v : W) : M A W K R Keys D Unit :=
  modify fun s => { s with keyOwner := Function.update s.keyOwner (id, keyData) (some v) }

/-- `clear_key_owner`. -/
def clearKeyOwner (id : K) (keyData : R) : M A W K R Keys D Unit :=
  modify fun s => { s with keyOwner := Function.update s.keyOwner (id, keyData) none }

/-- `frame_system::Pallet::<T>::inc_consumers(&account)`, whose result
`do_set_keys` only debug-asserts; the reference taken is recorded. -/
def incConsumers (account : A) : M A W K R Keys D Unit := fun s =>
  match FrameSystem.incConsumers account s.system with
  | .ok () system => .ok () { s with system := system, consumerRefs := s.consumerRefs ++ [account] }
  | .error _ system => .ok () { s with system := system }

/-- `frame_system::Pallet::<T>::dec_consumers(&account)`; the reference given
back is struck from the record. -/
def decConsumers (account : A) : M A W K R Keys D Unit := fun s =>
  match FrameSystem.decConsumers account s.system with
  | .ok () system => .ok () { s with system := system, consumerRefs := s.consumerRefs.erase account }
  | .error _ system => .ok () { s with system := system }

/-! ## The calls -/

variable (cfg : Config A W K R Keys)

/-- The first loop of `inner_set_keys`: no key of `keys` may belong to another
validator. -/
def checkKeys (who : W) (keys : Keys) : List K → M A W K R Keys D Unit
  | [] => pure ()
  | id :: ids => do
    let key := cfg.getRaw keys id
    unless (← keyOwner id key).all (· = who) do throw .duplicatedKey
    checkKeys who keys ids

/-- The second loop of `inner_set_keys`: the new key of each type is given to
`who`, and the old one, when it differs, taken back; an unchanged key is
skipped (`continue`). -/
def setKeyOwners (who : W) (keys : Keys) (oldKeys : Option Keys) : List K → M A W K R Keys D Unit
  | [] => pure ()
  | id :: ids => do
    let key := cfg.getRaw keys id
    match oldKeys.map (cfg.getRaw · id) with
    | some old =>
      if key = old then pure ()
      else
        clearKeyOwner id old
        putKeyOwner id key who
    | none => putKeyOwner id key who
    setKeyOwners who keys oldKeys ids

/-- `inner_set_keys`: the old keys of `who`. -/
def innerSetKeys (who : W) (keys : Keys) : M A W K R Keys D (Option Keys) := do
  let oldKeys ← loadKeys who
  checkKeys cfg who keys cfg.keyIds
  setKeyOwners cfg who keys oldKeys cfg.keyIds
  putKeys who keys
  return oldKeys

/-- `do_set_keys`. -/
def doSetKeys (account : A) (keys : Keys) : M A W K R Keys D Unit := do
  let some who := cfg.validatorIdOf account | throw .noAssociatedValidatorId
  unless FrameSystem.canIncConsumer account (← get).system do throw .noAccount
  let oldKeys ← innerSetKeys cfg who keys
  if oldKeys.isNone then incConsumers account

/-- The loop of `do_purge_keys` over the key types. -/
def clearKeyOwners (oldKeys : Keys) : List K → M A W K R Keys D Unit
  | [] => pure ()
  | id :: ids => do
    clearKeyOwner id (cfg.getRaw oldKeys id)
    clearKeyOwners oldKeys ids

/-- `do_purge_keys`. -/
def doPurgeKeys (account : A) : M A W K R Keys D Unit := do
  let some who := cfg.validatorIdOf account | throw .noAssociatedValidatorId
  let some oldKeys ← takeKeys who | throw .noKeys
  clearKeyOwners cfg oldKeys cfg.keyIds
  decConsumers account

/-- One round of the second loop of `inner_set_keys` on `KeyOwner`. -/
def setOwner (who : W) (keys : Keys) (oldKeys : Option Keys) (owner : K × R → Option W) (id : K) :
    K × R → Option W :=
  match oldKeys.map (cfg.getRaw · id) with
  | some old =>
    if cfg.getRaw keys id = old then owner
    else Function.update (Function.update owner (id, old) none) (id, cfg.getRaw keys id) (some who)
  | none => Function.update owner (id, cfg.getRaw keys id) (some who)

/-- `KeyOwner` once the loop of `do_purge_keys` has freed the keys `oldKeys`. -/
def clearedOwners (oldKeys : Keys) (ids : List K) (owner : K × R → Option W) : K × R → Option W :=
  fun p => if p.1 ∈ ids ∧ p.2 = cfg.getRaw oldKeys p.1 then none else owner p

/-! ## One equation per function -/

section Apply

variable {cfg} (s : St A W K R Keys D)

omit [DecidableEq K] [DecidableEq R] [Inhabited D] in
@[simp] theorem loadKeys_apply (v : W) : (loadKeys v : M A W K R Keys D _) s = .ok (s.nextKeys.get? v) s := rfl

omit [DecidableEq K] [DecidableEq R] [Inhabited D] in
@[simp] theorem takeKeys_apply (v : W) :
    (takeKeys v : M A W K R Keys D _) s = .ok (s.nextKeys.get? v) { s with nextKeys := s.nextKeys.erase v } := rfl

omit [DecidableEq K] [DecidableEq R] [Inhabited D] in
@[simp] theorem putKeys_apply (v : W) (keys : Keys) :
    (putKeys v keys : M A W K R Keys D _) s = .ok () { s with nextKeys := s.nextKeys.insert v keys } := rfl

omit [DecidableEq K] [DecidableEq R] [Inhabited D] in
@[simp] theorem keyOwner_apply (id : K) (keyData : R) :
    (keyOwner id keyData : M A W K R Keys D _) s = .ok (s.keyOwner (id, keyData)) s := rfl

omit [Inhabited D] in
@[simp] theorem putKeyOwner_apply (id : K) (keyData : R) (v : W) :
    (putKeyOwner id keyData v : M A W K R Keys D _) s =
      .ok () { s with keyOwner := Function.update s.keyOwner (id, keyData) (some v) } := rfl

omit [Inhabited D] in
@[simp] theorem clearKeyOwner_apply (id : K) (keyData : R) :
    (clearKeyOwner id keyData : M A W K R Keys D _) s =
      .ok () { s with keyOwner := Function.update s.keyOwner (id, keyData) none } := rfl

omit [DecidableEq K] [DecidableEq R] in
theorem incConsumers_of_canIncConsumer (h : FrameSystem.canIncConsumer account s.system = true) :
    (incConsumers account : M A W K R Keys D _) s =
      .ok () { s with
        system := stateOf (FrameSystem.incConsumers account s.system)
        consumerRefs := s.consumerRefs ++ [account] } := by
  have hprov : 0 < (s.system.get account).providers := by simpa [FrameSystem.canIncConsumer] using h
  unfold incConsumers
  rw [FrameSystem.incConsumers_apply, if_pos hprov]
  rfl

omit [DecidableEq K] [DecidableEq R] in
theorem decConsumers_apply (account : A) :
    (decConsumers account : M A W K R Keys D _) s =
      .ok () { s with
        system := stateOf (FrameSystem.decConsumers account s.system)
        consumerRefs := s.consumerRefs.erase account } := by
  unfold decConsumers
  rw [FrameSystem.decConsumers_apply]
  rfl

omit [DecidableEq K] [DecidableEq R] [Inhabited D] in
theorem checkKeys_apply (who : W) (keys : Keys) :
    ∀ (ids : List K) (s : St A W K R Keys D), checkKeys cfg who keys ids s =
      if ∀ id ∈ ids, (s.keyOwner (id, cfg.getRaw keys id)).all (· = who) = true then .ok () s
      else .error .duplicatedKey s
  | [], s => by simp [checkKeys]
  | id :: ids, s => by
    rw [checkKeys]
    by_cases hid : (s.keyOwner (id, cfg.getRaw keys id)).all (· = who) = true
    · simp only [bind_apply, keyOwner_apply, hid, List.forall_mem_cons, true_and]
      exact checkKeys_apply who keys ids s
    · simp [hid]

omit [Inhabited D] in
theorem setKeyOwners_apply (who : W) (keys : Keys) (oldKeys : Option Keys) :
    ∀ (ids : List K) (s : St A W K R Keys D), setKeyOwners cfg who keys oldKeys ids s =
      .ok () { s with keyOwner := ids.foldl (setOwner cfg who keys oldKeys) s.keyOwner }
  | [], s => rfl
  | id :: ids, s => by
    rw [setKeyOwners, List.foldl_cons]
    cases hold : oldKeys.map (cfg.getRaw · id) with
    | none =>
      simp only [bind_apply, putKeyOwner_apply]
      rw [setKeyOwners_apply who keys oldKeys ids]
      simp [setOwner, hold]
    | some old =>
      by_cases hsame : cfg.getRaw keys id = old
      · simp only [hsame, if_true]
        rw [setKeyOwners_apply who keys oldKeys ids]
        simp [setOwner, hold, hsame]
      · simp only [hsame, if_false, bind_apply, clearKeyOwner_apply, putKeyOwner_apply]
        rw [setKeyOwners_apply who keys oldKeys ids]
        simp [setOwner, hold, hsame]

omit [Inhabited D] in
theorem innerSetKeys_apply (who : W) (keys : Keys) :
    innerSetKeys cfg who keys s =
      if ∀ id ∈ cfg.keyIds, (s.keyOwner (id, cfg.getRaw keys id)).all (· = who) = true then
        .ok (s.nextKeys.get? who) { s with
          nextKeys := s.nextKeys.insert who keys
          keyOwner := cfg.keyIds.foldl (setOwner cfg who keys (s.nextKeys.get? who)) s.keyOwner }
      else .error .duplicatedKey s := by
  simp only [innerSetKeys, bind_apply, loadKeys_apply, checkKeys_apply]
  split_ifs
  · simp [setKeyOwners_apply]
  · rfl

omit [Inhabited D] in
theorem clearKeyOwners_apply (oldKeys : Keys) :
    ∀ (ids : List K) (s : St A W K R Keys D), clearKeyOwners cfg oldKeys ids s =
      .ok () { s with keyOwner := clearedOwners cfg oldKeys ids s.keyOwner }
  | [], s => rfl
  | id :: ids, s => by
    simp only [clearKeyOwners, bind_apply, clearKeyOwner_apply]
    rw [clearKeyOwners_apply oldKeys ids]
    congr 2
    funext p
    obtain ⟨id', k⟩ := p
    by_cases hid : id' = id
    · subst hid
      by_cases hk : k = cfg.getRaw oldKeys id' <;> simp [clearedOwners, hk]
    · simp [clearedOwners, hid]

theorem doSetKeys_apply (account : A) (keys : Keys) :
    doSetKeys cfg account keys s =
      match cfg.validatorIdOf account with
      | none => .error .noAssociatedValidatorId s
      | some who =>
        if FrameSystem.canIncConsumer account s.system = true then
          if ∀ id ∈ cfg.keyIds, (s.keyOwner (id, cfg.getRaw keys id)).all (· = who) = true then
            let s₁ : St A W K R Keys D := { s with
              nextKeys := s.nextKeys.insert who keys
              keyOwner := cfg.keyIds.foldl (setOwner cfg who keys (s.nextKeys.get? who)) s.keyOwner }
            if (s.nextKeys.get? who).isNone then incConsumers account s₁ else .ok () s₁
          else .error .duplicatedKey s
        else .error .noAccount s := by
  unfold doSetKeys
  cases cfg.validatorIdOf account with
  | none => rfl
  | some who =>
    simp only [bind_apply, get_apply]
    by_cases hcan : FrameSystem.canIncConsumer account s.system = true
    · simp only [hcan, if_true, bind_apply, innerSetKeys_apply]
      split_ifs with hcheck hnone
      · simp only [hnone, if_true]
      · simp only [hnone, Bool.false_eq_true, if_false, pure_apply]
      · rfl
    · simp [hcan]

theorem doPurgeKeys_apply (account : A) :
    doPurgeKeys cfg account s =
      match cfg.validatorIdOf account with
      | none => .error .noAssociatedValidatorId s
      | some who =>
        match s.nextKeys.get? who with
        | none => .error .noKeys s
        | some oldKeys => .ok () { s with
            nextKeys := s.nextKeys.erase who
            keyOwner := clearedOwners cfg oldKeys cfg.keyIds s.keyOwner
            system := stateOf (FrameSystem.decConsumers account s.system)
            consumerRefs := s.consumerRefs.erase account } := by
  unfold doPurgeKeys
  cases cfg.validatorIdOf account with
  | none => rfl
  | some who =>
    simp only [bind_apply, takeKeys_apply]
    cases hkeys : s.nextKeys.get? who with
    | none =>
      -- `take` of an absent entry writes nothing
      simp [OrdMap.erase_of_get?_none hkeys]
    | some oldKeys =>
      simp only [clearKeyOwners_apply, bind_apply, decConsumers_apply]

variable {s}

variable {e : Error} {s' : St A W K R Keys D}

/-- A refused `do_set_keys` writes nothing. -/
theorem doSetKeys_error {keys : Keys}
    (h : doSetKeys cfg account keys s = .error e s') : s' = s := by
  rw [doSetKeys_apply] at h
  cases hwho : cfg.validatorIdOf account with
  | none =>
    rw [hwho] at h
    cases h
    rfl
  | some who =>
    rw [hwho] at h
    dsimp only at h
    split_ifs at h with hcan hcheck hnone
    · rw [incConsumers_of_canIncConsumer (s := { s with nextKeys := s.nextKeys.insert who keys, keyOwner := _ })
        hcan] at h
      cases h
    · cases h
      rfl
    · cases h
      rfl

/-- A refused `do_purge_keys` writes nothing. -/
theorem doPurgeKeys_error
    (h : doPurgeKeys cfg account s = .error e s') : s' = s := by
  rw [doPurgeKeys_apply] at h
  cases hwho : cfg.validatorIdOf account with
  | none =>
    rw [hwho] at h
    cases h
    rfl
  | some who =>
    rw [hwho] at h
    dsimp only at h
    cases hkeys : s.nextKeys.get? who with
    | none =>
      rw [hkeys] at h
      cases h
      rfl
    | some oldKeys =>
      rw [hkeys] at h
      cases h

/-- **A refused call writes nothing**: whatever the storage, `do_set_keys` and
`do_purge_keys` succeed or fail with the storage they were given. -/
theorem keys_calls_fail_cleanly (keys : Keys) :
    Sat (doSetKeys cfg account keys s) (fun _ _ => True) (fun _ s' => s' = s) ∧
      Sat (doPurgeKeys cfg account s) (fun _ _ => True) (fun _ s' => s' = s) := by
  constructor
  · cases h : doSetKeys cfg account keys s with
    | ok _ _ => trivial
    | error _ _ => exact doSetKeys_error h
  · cases h : doPurgeKeys cfg account s with
    | ok _ _ => trivial
    | error _ _ => exact doPurgeKeys_error h

end Apply

/-- A call of a run on the keys. -/
inductive Call (A Keys : Type)
  | setKeys (account : A) (keys : Keys)
  | purgeKeys (account : A)

/-- The storage after one call, whether it returned `Ok` or `Err`. -/
def Call.apply (s : St A W K R Keys D) : Call A Keys → St A W K R Keys D
  | .setKeys account keys => stateOf (doSetKeys cfg account keys s)
  | .purgeKeys account => stateOf (doPurgeKeys cfg account s)

end Session
