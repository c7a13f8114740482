import Mathlib
import CherryNode.Session.Keys

/-!
# pallet-session: `KeyOwner` inverts `NextKeys` over every run

`KeysInv` is what `do_set_keys` and `do_purge_keys` keep: over the key types,
`KeyOwner[(id, k)] = v` exactly when `v`'s raw key of type `id` is `k`
(`owner`), so no two validators share a raw key of a type
(`KeysInv.unique_raw`); and the pallet's consumer references, read through
`ValidatorIdOf`, are the validators with keys, each once (`refs`).

The owner part rests on `inner_set_keys`: its first loop made sure no new key
is another's, and a key its second loop skips as unchanged is already the
validator's (`foldl_setOwner_apply`).  The reference part needs `ValidatorIdOf`
injective: a purge gives the reference back on the calling account.
-/

namespace Session

open EStateRun

variable {A W K R Keys D : Type} [LinearOrder A] [LinearOrder W] [DecidableEq K] [DecidableEq R]
variable {owner : K × R → Option W} {old : Keys}
  [Inhabited D] {cfg : Config A W K R Keys}

/-- What the calls keep: `KeyOwner` is the inverse of `NextKeys` over the key
types, and the consumer references the pallet holds are on accounts of the
validators with keys, one per validator. -/
structure KeysInv (cfg : Config A W K R Keys) (s : St A W K R Keys D) : Prop where
  owner : ∀ id ∈ cfg.keyIds, ∀ k v,
    s.keyOwner (id, k) = some v ↔ ∃ keys, s.nextKeys.get? v = some keys ∧ cfg.getRaw keys id = k
  refs : (s.consumerRefs.map cfg.validatorIdOf).Perm (s.nextKeys.keys.map some)

/-! ## `KeyOwner` after `inner_set_keys` and `do_purge_keys` -/

section Owners

variable {who : W} {keys : Keys} {oldKeys : Option Keys}

omit [LinearOrder A] [LinearOrder W] in
theorem setOwner_apply {id₀ : K}
    (hcont : ∀ old, oldKeys = some old → cfg.getRaw keys id₀ = cfg.getRaw old id₀ →
      owner (id₀, cfg.getRaw keys id₀) = some who) (id : K) (k : R) :
    setOwner cfg who keys oldKeys owner id₀ (id, k) =
      if id = id₀ then
        if k = cfg.getRaw keys id₀ then some who
        else if oldKeys.map (cfg.getRaw · id₀) = some k then none
        else owner (id, k)
      else owner (id, k) := by
  unfold setOwner
  cases oldKeys with
  | none =>
    by_cases hid : id = id₀
    · subst hid
      by_cases hk : k = cfg.getRaw keys id <;> simp [hk]
    · simp [hid]
  | some old =>
    by_cases hsame : cfg.getRaw keys id₀ = cfg.getRaw old id₀
    · -- skipped: the key is unchanged, and already `who`'s
      simp only [Option.map_some, if_pos hsame]
      by_cases hid : id = id₀
      · subst hid
        by_cases hk : k = cfg.getRaw keys id
        · rw [if_pos rfl, if_pos hk, hk]
          exact hcont old rfl hsame
        · have hk' : ¬ cfg.getRaw old id = k := fun h => hk (h.symm.trans hsame.symm)
          simp [hk, hk']
      · simp [hid]
    · simp only [Option.map_some, if_neg hsame]
      by_cases hid : id = id₀
      · subst hid
        by_cases hk : k = cfg.getRaw keys id
        · simp [hk]
        · by_cases hk' : k = cfg.getRaw old id
          · simp [Function.update_apply, hk']
          · simp [hk, hk', Ne.symm hk']
      · simp [hid]

omit [LinearOrder A] [LinearOrder W] in
/-- The whole second loop, by induction on the key types: each type in the
list has its new key given to `who` and its old one freed, and the other
entries are left alone. -/
theorem foldl_setOwner_apply :
    ∀ (ids : List K) (owner : K × R → Option W),
      (∀ id ∈ ids, ∀ old, oldKeys = some old → cfg.getRaw keys id = cfg.getRaw old id →
        owner (id, cfg.getRaw keys id) = some who) →
      ∀ id k, ids.foldl (setOwner cfg who keys oldKeys) owner (id, k) =
        if id ∈ ids then
          if k = cfg.getRaw keys id then some who
          else if oldKeys.map (cfg.getRaw · id) = some k then none
          else owner (id, k)
        else owner (id, k)
  | [], _, _, id, k => by simp
  | id₀ :: ids, owner, hcont, id, k => by
    have hstep := setOwner_apply (hcont id₀ List.mem_cons_self)
    -- the skipped keys are still `who`'s after this round
    have hcont' : ∀ id ∈ ids, ∀ old, oldKeys = some old → cfg.getRaw keys id = cfg.getRaw old id →
        setOwner cfg who keys oldKeys owner id₀ (id, cfg.getRaw keys id) = some who := by
      intro id hid old hold hsame
      rw [hstep]
      by_cases hid₀ : id = id₀
      · subst hid₀
        simp
      · rw [if_neg hid₀]
        exact hcont id (List.mem_cons_of_mem _ hid) old hold hsame
    rw [List.foldl_cons, foldl_setOwner_apply ids _ hcont' id k, hstep]
    by_cases hid : id = id₀
    · -- this round and the later ones agree on the type's entries
      subst hid
      by_cases hin : id ∈ ids
      · simp only [hin, if_true, List.mem_cons_self]
        split_ifs <;> rfl
      · simp [hin]
    · by_cases hin : id ∈ ids <;> simp [hin, hid]

variable {nextKeys : OrdMap W Keys}

omit [LinearOrder A] in
/-- `KeyOwner` after `inner_set_keys` inverts `NextKeys` with the new keys: the
check ruled out a key of another validator, and the old keys were `who`'s. -/
theorem owner_setKeys
    (hown : ∀ id ∈ cfg.keyIds, ∀ k v,
      owner (id, k) = some v ↔ ∃ ks, nextKeys.get? v = some ks ∧ cfg.getRaw ks id = k)
    (hcheck : ∀ id ∈ cfg.keyIds, (owner (id, cfg.getRaw keys id)).all (· = who) = true) :
    ∀ id ∈ cfg.keyIds, ∀ k v,
      cfg.keyIds.foldl (setOwner cfg who keys (nextKeys.get? who)) owner (id, k) = some v ↔
        ∃ ks, (nextKeys.insert who keys).get? v = some ks ∧ cfg.getRaw ks id = k := by
  have hcont : ∀ id ∈ cfg.keyIds, ∀ old, nextKeys.get? who = some old →
      cfg.getRaw keys id = cfg.getRaw old id → owner (id, cfg.getRaw keys id) = some who :=
    fun id hid old hold hsame => (hown id hid _ who).mpr ⟨old, hold, hsame.symm⟩
  intro id hid k v
  rw [foldl_setOwner_apply cfg.keyIds owner hcont id k, if_pos hid]
  by_cases hv : v = who
  · -- `who`'s entry: its new keys
    subst hv
    rw [OrdMap.get?_insert_self]
    by_cases hk : k = cfg.getRaw keys id
    · simp [hk]
    · have hne : ¬ cfg.getRaw keys id = k := fun h => hk h.symm
      split_ifs with hold
      · simp [hne]
      · -- `k` was not `v`'s old key of this type
        refine ⟨fun h => ?_, fun ⟨ks, hks, hk'⟩ => ?_⟩
        · obtain ⟨ks, hks, hk'⟩ := (hown id hid k v).mp h
          exact absurd (by rw [hks, Option.map_some, hk']) hold
        · cases hks
          exact absurd hk' hne
  · -- another validator's entry: unchanged, and it never held the new key
    rw [OrdMap.get?_insert_of_ne _ _ (Ne.symm hv)]
    by_cases hk : k = cfg.getRaw keys id
    · subst hk
      rw [if_pos rfl]
      refine ⟨fun h => absurd (Option.some.inj h).symm hv, fun hks => ?_⟩
      have howner := (hown id hid _ v).mpr hks
      have := hcheck id hid
      rw [howner] at this
      exact absurd (by simpa using this) hv
    · split_ifs with hold
      · -- `k` was `who`'s old key, so no one else's
        refine ⟨fun h => (by cases h), fun hks => ?_⟩
        obtain ⟨old, hold', hk'⟩ := Option.map_eq_some_iff.mp hold
        have h₁ := (hown id hid k v).mpr hks
        have h₂ := (hown id hid k who).mpr ⟨old, hold', hk'⟩
        exact absurd (Option.some.inj (h₁.symm.trans h₂)) hv
      · exact hown id hid k v

omit [LinearOrder A] [Inhabited D] in
/-- `KeyOwner` after the loop of `do_purge_keys` inverts `NextKeys` without
`who`: the raw keys it frees were `who`'s and no one else's. -/
theorem owner_purgeKeys
    (hown : ∀ id ∈ cfg.keyIds, ∀ k v,
      owner (id, k) = some v ↔ ∃ ks, nextKeys.get? v = some ks ∧ cfg.getRaw ks id = k)
    (hold : nextKeys.get? who = some old) :
    ∀ id ∈ cfg.keyIds, ∀ k v,
      clearedOwners cfg old cfg.keyIds owner (id, k) = some v ↔
        ∃ ks, (nextKeys.erase who).get? v = some ks ∧ cfg.getRaw ks id = k := by
  intro id hid k v
  unfold clearedOwners
  by_cases hv : v = who
  · subst hv
    rw [OrdMap.get?_erase]
    by_cases hk : k = cfg.getRaw old id
    · simp [hid, hk]
    · -- `v`'s only key of this type was freed
      simp only [hid, hk, and_false, if_false, if_true, reduceCtorEq, false_and, exists_false, iff_false]
      intro h
      obtain ⟨ks, hks, hk'⟩ := (hown id hid k v).mp h
      rw [hold] at hks
      cases hks
      exact hk hk'.symm
  · rw [OrdMap.get?_erase, if_neg (Ne.symm hv)]
    by_cases hk : k = cfg.getRaw old id
    · simp only [hid, hk, and_self, if_true, reduceCtorEq, false_iff, not_exists, not_and]
      intro ks hks hk'
      have h₁ := (hown id hid _ v).mpr ⟨ks, hks, hk'⟩
      have h₂ := (hown id hid _ who).mpr ⟨old, hold, rfl⟩
      exact hv (Option.some.inj (h₁.symm.trans h₂))
    · simp only [hid, hk, and_false, if_false]
      exact hown id hid k v

end Owners

/-! ## The consumer references -/

section Refs

variable {refs : List A} {nextKeys : OrdMap W Keys} {who : W} {account : A}

omit [LinearOrder A] [DecidableEq K] [DecidableEq R] [Inhabited D] in
theorem refs_setKeys_new (hrefs : (refs.map cfg.validatorIdOf).Perm (nextKeys.keys.map some))
    (hnone : nextKeys.get? who = none) (hacc : cfg.validatorIdOf account = some who) (keys : Keys) :
    ((refs ++ [account]).map cfg.validatorIdOf).Perm ((nextKeys.insert who keys).keys.map some) := by
  have hkeys : (nextKeys.insert who keys).keys.Perm (who :: nextKeys.keys) := by
    have := OrdMap.keys_insert_perm nextKeys who keys
    rwa [OrdMap.erase_of_get?_none hnone] at this
  have happend : ((refs ++ [account]).map cfg.validatorIdOf).Perm (some who :: refs.map cfg.validatorIdOf) := by
    rw [List.map_append, List.map_singleton, hacc]
    exact List.perm_append_singleton _ _
  exact happend.trans ((hrefs.cons _).trans (hkeys.map some).symm)

omit [LinearOrder A] [DecidableEq K] [DecidableEq R] [Inhabited D] in
theorem refs_setKeys_old (hrefs : (refs.map cfg.validatorIdOf).Perm (nextKeys.keys.map some))
    (hold : nextKeys.get? who = some old) (keys : Keys) :
    (refs.map cfg.validatorIdOf).Perm ((nextKeys.insert who keys).keys.map some) := by
  have hkeys : (nextKeys.insert who keys).keys.Perm nextKeys.keys :=
    (OrdMap.keys_insert_perm nextKeys who keys).trans (OrdMap.keys_perm_of_get? hold).symm
  exact hrefs.trans (hkeys.map some).symm

omit [DecidableEq K] [DecidableEq R] [Inhabited D] in
/-- A purge through `account` gives back the reference of `who`: with an
injective `ValidatorIdOf` it is the one `account` holds. -/
theorem refs_purgeKeys (hinj : ∀ a b v, cfg.validatorIdOf a = some v → cfg.validatorIdOf b = some v → a = b)
    (hrefs : (refs.map cfg.validatorIdOf).Perm (nextKeys.keys.map some))
    (hold : nextKeys.get? who = some old) (hacc : cfg.validatorIdOf account = some who) :
    ((refs.erase account).map cfg.validatorIdOf).Perm ((nextKeys.erase who).keys.map some) := by
  have hmem : account ∈ refs := by
    have hwho : some who ∈ refs.map cfg.validatorIdOf := by
      refine hrefs.symm.subset (List.mem_map.mpr ⟨who, ?_, rfl⟩)
      simp [OrdMap.mem_keys, OrdMap.contains, hold]
    obtain ⟨b, hb, hfb⟩ := List.mem_map.mp hwho
    rwa [hinj b account who hfb hacc] at hb
  have hrefs' : (refs.map cfg.validatorIdOf).Perm (some who :: (refs.erase account).map cfg.validatorIdOf) := by
    have := (List.perm_cons_erase hmem).map cfg.validatorIdOf
    rwa [List.map_cons, hacc] at this
  have hkeys : (nextKeys.keys.map some).Perm (some who :: (nextKeys.erase who).keys.map some) := by
    simpa using (OrdMap.keys_perm_of_get? hold).map some
  exact (hrefs'.symm.trans (hrefs.trans hkeys)).cons_inv

end Refs

/-! ## Each call keeps the invariant -/

section Calls

variable {s : St A W K R Keys D}

theorem KeysInv.setKeys (hinv : KeysInv cfg s) (account : A) (keys : Keys) :
    KeysInv cfg (Call.apply cfg s (.setKeys account keys)) := by
  simp only [Call.apply]
  rw [doSetKeys_apply]
  cases hwho : cfg.validatorIdOf account with
  | none => exact hinv
  | some who =>
    by_cases hcan : FrameSystem.canIncConsumer account s.system = true
    · by_cases hcheck : ∀ id ∈ cfg.keyIds, (s.keyOwner (id, cfg.getRaw keys id)).all (· = who) = true
      · have howner := owner_setKeys hinv.owner hcheck
        simp only [hcan, if_true]
        rw [if_pos hcheck]
        cases hold : s.nextKeys.get? who with
        | none =>
          -- a first set of keys takes a reference on `account`
          simp only [Option.isNone_none, if_true]
          rw [incConsumers_of_canIncConsumer (s := { s with nextKeys := s.nextKeys.insert who keys, keyOwner := _ })
            hcan]
          exact ⟨by simpa [hold] using howner, refs_setKeys_new hinv.refs hold hwho keys⟩
        | some old =>
          simp only [Option.isNone_some, Bool.false_eq_true, if_false]
          exact ⟨by simpa [hold] using howner, refs_setKeys_old hinv.refs hold keys⟩
      · simpa [hcan, hcheck] using hinv
    · simpa [hcan] using hinv

theorem KeysInv.purgeKeys (hinj : ∀ a b v, cfg.validatorIdOf a = some v → cfg.validatorIdOf b = some v → a = b)
    (hinv : KeysInv cfg s) (account : A) : KeysInv cfg (Call.apply cfg s (.purgeKeys account)) := by
  simp only [Call.apply]
  rw [doPurgeKeys_apply]
  cases hwho : cfg.validatorIdOf account with
  | none => exact hinv
  | some who =>
    dsimp only
    cases hold : s.nextKeys.get? who with
    | none => exact hinv
    | some old => exact ⟨owner_purgeKeys hinv.owner hold, refs_purgeKeys hinj hinv.refs hold hwho⟩

theorem KeysInv.apply (hinj : ∀ a b v, cfg.validatorIdOf a = some v → cfg.validatorIdOf b = some v → a = b)
    (hinv : KeysInv cfg s) : ∀ c : Call A Keys, KeysInv cfg (Call.apply cfg s c)
  | .setKeys account keys => hinv.setKeys account keys
  | .purgeKeys account => hinv.purgeKeys hinj account

omit [DecidableEq K] [DecidableEq R] [Inhabited D] in
/-- Two validators never share a raw key of one type. -/
theorem KeysInv.unique_raw (hinv : KeysInv cfg s) {id : K} (hid : id ∈ cfg.keyIds) {v w : W} {kv kw : Keys}
    (hv : s.nextKeys.get? v = some kv) (hw : s.nextKeys.get? w = some kw)
    (heq : cfg.getRaw kv id = cfg.getRaw kw id) : v = w := by
  have h₁ := (hinv.owner id hid _ v).mpr ⟨kv, hv, rfl⟩
  have h₂ := (hinv.owner id hid _ w).mpr ⟨kw, hw, heq.symm⟩
  exact Option.some.inj (h₁.symm.trans h₂)

omit [DecidableEq K] [DecidableEq R] [Inhabited D] in
theorem KeysInv.length_refs (hinv : KeysInv cfg s) : s.consumerRefs.length = s.nextKeys.size := by
  have := hinv.refs.length_eq
  rwa [List.length_map, List.length_map, ← OrdMap.size_eq_length_keys] at this

omit [DecidableEq K] [DecidableEq R] [Inhabited D] in
theorem KeysInv.refs_of_mem (hinv : KeysInv cfg s) {v : W} (hv : s.nextKeys.contains v = true) :
    (s.consumerRefs.filter fun a => cfg.validatorIdOf a = some v).length = 1 := by
  have hcount : (s.consumerRefs.map cfg.validatorIdOf).count (some v) = (s.nextKeys.keys.map some).count (some v) :=
    hinv.refs.count_eq _
  rw [List.count_map_of_injective _ _ (fun _ _ h => Option.some.inj h) v,
    List.count_eq_one_of_mem (OrdMap.keys_nodup _) ((OrdMap.mem_keys _ _).mpr hv)] at hcount
  rw [← hcount, List.count, List.countP_map, List.countP_eq_length_filter]
  congr 1
  refine List.filter_congr fun a _ => ?_
  rw [Bool.eq_iff_iff, decide_eq_true_iff, Function.comp_apply, beq_iff_eq]

end Calls

/-! ## Whole runs -/

/-- With an injective `ValidatorIdOf`, every run of `do_set_keys` and
`do_purge_keys` keeps the invariant. -/
theorem KeysInv.run (hinj : ∀ a b v, cfg.validatorIdOf a = some v → cfg.validatorIdOf b = some v → a = b)
    {s : St A W K R Keys D} (hinv : KeysInv cfg s) (calls : List (Call A Keys)) :
    KeysInv cfg (calls.foldl (Call.apply cfg) s) :=
  (StepRun.reachable_foldl (Call.apply cfg) s calls .init).rec_invariant (KeysInv cfg) hinv
    fun _ c h => h.apply hinj c

/-- Over any run of `do_set_keys` and `do_purge_keys`, with `ValidatorIdOf`
injective, `KeyOwner` stays the inverse of `NextKeys`, no key has two owners,
and the pallet holds one consumer reference per validator with keys. -/
theorem set_and_purge_keep_keys_inverse (cfg : Config A W K R Keys)
    (hinj : ∀ a b v, cfg.validatorIdOf a = some v → cfg.validatorIdOf b = some v → a = b)
    (calls : List (Call A Keys)) (s : St A W K R Keys D) (hinv : KeysInv cfg s) :
    KeysInv cfg (calls.foldl (Call.apply cfg) s) ∧
    (∀ id ∈ cfg.keyIds, ∀ v w kv kw, (calls.foldl (Call.apply cfg) s).nextKeys.get? v = some kv →
      (calls.foldl (Call.apply cfg) s).nextKeys.get? w = some kw → cfg.getRaw kv id = cfg.getRaw kw id → v = w) ∧
    (calls.foldl (Call.apply cfg) s).consumerRefs.length = (calls.foldl (Call.apply cfg) s).nextKeys.size ∧
    ∀ v, (calls.foldl (Call.apply cfg) s).nextKeys.contains v = true →
      ((calls.foldl (Call.apply cfg) s).consumerRefs.filter fun a => cfg.validatorIdOf a = some v).length = 1 := by
  have hrun := KeysInv.run hinj hinv calls
  exact ⟨hrun, fun id hid v w kv kw hv hw heq => hrun.unique_raw hid hv hw heq, hrun.length_refs,
    fun v hv => hrun.refs_of_mem hv⟩

/-- One key type, whose raw key is the keys themselves. -/
def oneKeyConfig (validatorIdOf : Nat → Option Nat) : Config Nat Nat Nat Nat Nat :=
  ⟨validatorIdOf, [0], fun keys _ => keys⟩

/-- Accounts `1` and `2` with a provider each; no keys and no references. -/
def fundedSt : St Nat Nat Nat Nat Nat Unit where
  nextKeys := OrdMap.empty
  keyOwner := fun _ => none
  system := ⟨(OrdMap.empty.insert 1 ⟨0, 0, 1, 0, ()⟩).insert 2 ⟨0, 0, 1, 0, ()⟩, []⟩
  consumerRefs := []

theorem keysInv_fundedSt (validatorIdOf : Nat → Option Nat) : KeysInv (oneKeyConfig validatorIdOf) fundedSt :=
  ⟨by simp [fundedSt], by simp [fundedSt, OrdMap.keys, OrdMap.empty]⟩

theorem set_and_purge_keep_keys_inverse_identity :
    (∀ a b v, (oneKeyConfig some).validatorIdOf a = some v → (oneKeyConfig some).validatorIdOf b = some v → a = b) ∧
    KeysInv (oneKeyConfig some) fundedSt ∧
    KeysInv (oneKeyConfig some) ([Call.setKeys 1 7, Call.setKeys 2 8, Call.purgeKeys 1].foldl
      (Call.apply (oneKeyConfig some)) fundedSt) ∧
    (∀ id ∈ (oneKeyConfig some).keyIds, ∀ v w kv kw,
      ([Call.setKeys 1 7, Call.setKeys 2 8, Call.purgeKeys 1].foldl
        (Call.apply (oneKeyConfig some)) fundedSt).nextKeys.get? v = some kv →
      ([Call.setKeys 1 7, Call.setKeys 2 8, Call.purgeKeys 1].foldl
        (Call.apply (oneKeyConfig some)) fundedSt).nextKeys.get? w = some kw →
      (oneKeyConfig some).getRaw kv id = (oneKeyConfig some).getRaw kw id → v = w) ∧
    ([Call.setKeys 1 7, Call.setKeys 2 8, Call.purgeKeys 1].foldl
        (Call.apply (oneKeyConfig some)) fundedSt).consumerRefs.length =
      ([Call.setKeys 1 7, Call.setKeys 2 8, Call.purgeKeys 1].foldl
        (Call.apply (oneKeyConfig some)) fundedSt).nextKeys.size ∧
    ∀ v, ([Call.setKeys 1 7, Call.setKeys 2 8, Call.purgeKeys 1].foldl
        (Call.apply (oneKeyConfig some)) fundedSt).nextKeys.contains v = true →
      (([Call.setKeys 1 7, Call.setKeys 2 8, Call.purgeKeys 1].foldl
        (Call.apply (oneKeyConfig some)) fundedSt).consumerRefs.filter
          fun a => (oneKeyConfig some).validatorIdOf a = some v).length = 1 :=
  ⟨fun _ _ _ ha hb => Option.some.inj (ha.trans hb.symm), keysInv_fundedSt some,
    set_and_purge_keep_keys_inverse (oneKeyConfig some) (fun _ _ _ ha hb => Option.some.inj (ha.trans hb.symm))
      [Call.setKeys 1 7, Call.setKeys 2 8, Call.purgeKeys 1] fundedSt (keysInv_fundedSt some)⟩

/-- Accounts `1` and `2` both map to validator `0`: keys set through `1` and
purged through `2` leave no validator with keys, while the reference taken on
`1` is never given back. -/
theorem purge_through_other_account :
    KeysInv (oneKeyConfig fun _ => some 0) fundedSt ∧
      ([Call.setKeys 1 7, Call.purgeKeys 2].foldl (Call.apply (oneKeyConfig fun _ => some 0))
        fundedSt).consumerRefs = [1] ∧
      ([Call.setKeys 1 7, Call.purgeKeys 2].foldl (Call.apply (oneKeyConfig fun _ => some 0))
        fundedSt).nextKeys.size = 0 :=
  ⟨keysInv_fundedSt _, by decide, by decide⟩

end Session
