import Mathlib
import CherryNode.Lib.Run
import CherryNode.Lib.PointwiseFold
import CherryNode.TxPool.Ready

/-!
# The tag map of the ready queue

`provided_tags` inverts the `provides` lists of the ready transactions:

    provided_tags[t] = h  ↔  h is ready and provides t          (TagsOk)

While `replace_previous` removes what a new transaction replaces, its tags may
still name a removed one: `TagsOkBut F` is the invariant up to the tags of `F`,
and `TagsOk` is `TagsOkBut []`.  `remove_subtree_with_tag_filter` keeps
`TagsOkBut` of its filter (`removeSubtreeLoop_ok`), `import` restores `TagsOk`
(`import_ok`), and `prune_tags` keeps it (`pruneTagsLoop_ok`).  On queues
reached by admissible operations no operation panics: the `expect(HASH_READY)`
of `import` and the `assert_eq!` of `prune_tags` never fire, and every loop
ends within its fuel (`ReadyReachable.step_isSome`).
-/

namespace TxPool

variable {Hash Tag : Type} [LinearOrder Hash]
variable {F : List Tag} {hash h : Hash} {ready : OrdMap Hash (ReadyTx Hash Tag)} {U : Nat}

/-! ## Maps that keep their transactions -/

/-- `ready'` holds some of the transactions of `ready`, under the same hashes. -/
def SubTxs (ready ready' : OrdMap Hash (ReadyTx Hash Tag)) : Prop :=
  ∀ h r', ready'.get? h = some r' → ∃ r, ready.get? h = some r ∧ r'.transaction = r.transaction

/-- `ready'` holds the transactions of `ready` and no other; only their
`unlocks` and offsets may differ. -/
def SameTxs (ready ready' : OrdMap Hash (ReadyTx Hash Tag)) : Prop :=
  ∀ h, (ready'.get? h).map ReadyTx.transaction = (ready.get? h).map ReadyTx.transaction

namespace SameTxs

variable {a b c : OrdMap Hash (ReadyTx Hash Tag)}

theorem refl (a : OrdMap Hash (ReadyTx Hash Tag)) : SameTxs a a := fun _ => rfl

theorem trans (h₁ : SameTxs a b) (h₂ : SameTxs b c) : SameTxs a c := fun h => (h₂ h).trans (h₁ h)

theorem subTxs (hs : SameTxs a b) : SubTxs a b := fun h r' hr' => by
  have hmap := hs h
  rw [hr', Option.map_some] at hmap
  obtain ⟨r, hr, ht⟩ := Option.map_eq_some_iff.mp hmap.symm
  exact ⟨r, hr, ht.symm⟩

theorem get?_of_get? (hs : SameTxs a b) {r : ReadyTx Hash Tag} (hr : a.get? h = some r) :
    ∃ r', b.get? h = some r' ∧ r'.transaction = r.transaction := by
  have hmap := hs h
  rw [hr, Option.map_some] at hmap
  exact Option.map_eq_some_iff.mp hmap

theorem get?_eq_none (hs : SameTxs a b) (hn : a.get? h = none) : b.get? h = none := by
  have hmap := hs h
  rw [hn, Option.map_none] at hmap
  exact Option.map_eq_none_iff.mp hmap

theorem size_eq (hs : SameTxs a b) : b.size = a.size := by
  refine OrdMap.size_eq_of_contains fun h => ?_
  have hmap := congrArg Option.isSome (hs h)
  simpa [OrdMap.contains] using hmap

/-- Rewriting one entry without touching its transaction. -/
theorem insert {r r' : ReadyTx Hash Tag} (hr : a.get? h = some r)
    (ht : r'.transaction = r.transaction) : SameTxs a (a.insert h r') := fun k => by
  rw [OrdMap.get?_insert]
  split
  · rename_i hk
    subst hk
    rw [hr, Option.map_some, Option.map_some, ht]
  · rfl

theorem foldl_get {α β : Type} (get : β → OrdMap Hash (ReadyTx Hash Tag)) {step : β → α → β}
    (hstep : ∀ b x, SameTxs (get b) (get (step b x))) :
    ∀ (l : List α) (b : β), SameTxs (get b) (get (l.foldl step b))
  | [], b => refl (get b)
  | x :: l, b => (hstep b x).trans (foldl_get get hstep l (step b x))

theorem foldl {α : Type} {step : OrdMap Hash (ReadyTx Hash Tag) → α → OrdMap Hash (ReadyTx Hash Tag)}
    (hstep : ∀ m x, SameTxs m (step m x)) (l : List α) (m : OrdMap Hash (ReadyTx Hash Tag)) :
    SameTxs m (l.foldl step m) :=
  foldl_get id hstep l m

end SameTxs

theorem SubTxs.refl (a : OrdMap Hash (ReadyTx Hash Tag)) : SubTxs a a := fun _ r' hr' => ⟨r', hr', rfl⟩

theorem SubTxs.trans {a b c : OrdMap Hash (ReadyTx Hash Tag)} (h₁ : SubTxs a b) (h₂ : SubTxs b c) :
    SubTxs a c := fun h r'' hr'' => by
  obtain ⟨r', hr', ht'⟩ := h₂ h r'' hr''
  obtain ⟨r, hr, ht⟩ := h₁ h r' hr'
  exact ⟨r, hr, ht'.trans ht⟩

theorem SubTxs.erase (a : OrdMap Hash (ReadyTx Hash Tag)) (hash : Hash) : SubTxs a (a.erase hash) :=
  fun h r' hr' => by
    rw [OrdMap.get?_erase] at hr'
    split at hr'
    · cases hr'
    · exact ⟨r', hr', rfl⟩

theorem SubTxs.get?_eq_none {a b : OrdMap Hash (ReadyTx Hash Tag)} (hs : SubTxs a b)
    (hn : a.get? h = none) : b.get? h = none := by
  cases hb : b.get? h with
  | none => rfl
  | some r' =>
    obtain ⟨r, hr, -⟩ := hs h r' hb
    rw [hn] at hr
    cases hr

/-- Every `unlocks` list of the map has at most `U` entries. -/
def UnlocksLe (U : Nat) (ready : OrdMap Hash (ReadyTx Hash Tag)) : Prop :=
  ∀ h r, ready.get? h = some r → r.unlocks.length ≤ U

theorem UnlocksLe.erase (hU : UnlocksLe U ready)
    (hash : Hash) : UnlocksLe U (ready.erase hash) := fun h r hr => by
  obtain ⟨r₀, hr₀, -⟩ := SubTxs.erase ready hash h r hr
  rw [OrdMap.get?_erase] at hr
  split at hr
  · cases hr
  · exact hU h r hr

variable [LinearOrder Tag]

namespace ReadyTransactions

/-! ## The helpers of the loops keep the transactions -/

theorem removeFromUnlocks_sameTxs (providedTags : OrdMap Tag Hash) (ready : OrdMap Hash (ReadyTx Hash Tag))
    (tag : Tag) : SameTxs ready (removeFromUnlocks providedTags ready tag) := by
  unfold removeFromUnlocks
  split
  · exact SameTxs.refl ready
  · split
    · exact SameTxs.refl ready
    · rename_i hr
      exact SameTxs.insert hr rfl

theorem findPrevious_sameTxs (hash : Hash) (providedTags : OrdMap Tag Hash)
    (ready : OrdMap Hash (ReadyTx Hash Tag)) (tag : Tag) :
    SameTxs ready (findPrevious hash providedTags ready tag).1 := by
  unfold findPrevious
  split
  · exact SameTxs.refl ready
  · split
    · exact SameTxs.refl ready
    · rename_i hr
      exact SameTxs.insert hr rfl

theorem prunePrevious_sameTxs (hash : Hash) (providedTags : OrdMap Tag Hash)
    (acc : OrdMap Hash (ReadyTx Hash Tag) × List Tag) (tag : Tag) :
    SameTxs acc.1 (prunePrevious hash providedTags acc tag).1 := by
  unfold prunePrevious
  have h := findPrevious_sameTxs hash providedTags acc.1 tag
  split <;> rename_i heq <;> rw [heq] at h <;> exact h

omit [LinearOrder Tag] in
theorem promoteUnlocked_sameTxs (acc : OrdMap Hash (ReadyTx Hash Tag) × List (TransactionRef Hash Tag))
    (hash : Hash) : SameTxs acc.1 (promoteUnlocked acc hash).1 := by
  unfold promoteUnlocked
  split
  · exact SameTxs.refl acc.1
  · rename_i hr
    exact SameTxs.insert hr rfl

variable {q q' : ReadyTransactions Hash Tag} {providedTags : OrdMap Tag Hash} {acc acc' : OrdMap Hash (ReadyTx Hash Tag) × Bool × Nat} {tx : WaitingTransaction Hash Tag} {ready ready' : OrdMap Hash (ReadyTx Hash Tag)}

theorem linkRequired_sameTxs
    {tag : Tag}
    (h : linkRequired hash providedTags acc tag = some acc') : SameTxs acc.1 acc'.1 := by
  unfold linkRequired at h
  split at h
  · split at h
    · cases h
    · rename_i hr
      cases h
      exact SameTxs.insert hr rfl
  · cases h
    exact SameTxs.refl acc.1

/-! ## The tags invariant -/

/-- `provided_tags` is the inverse of the ready transactions' `provides`,
except that a tag of `F` may still name a transaction that left the queue. -/
structure TagsOkBut (F : List Tag) (q : ReadyTransactions Hash Tag) : Prop where
  hash_eq : ∀ h r, q.ready.get? h = some r → r.transaction.transaction.hash = h
  mapped : ∀ t h, q.providedTags.get? t = some h →
    (∃ r, q.ready.get? h = some r ∧ t ∈ r.transaction.transaction.provides) ∨ t ∈ F
  complete : ∀ h r t, q.ready.get? h = some r → t ∈ r.transaction.transaction.provides →
    q.providedTags.get? t = some h

/-- The tags invariant. -/
abbrev TagsOk (q : ReadyTransactions Hash Tag) : Prop := TagsOkBut [] q

theorem TagsOk.provided_iff (hq : TagsOk q) (t : Tag) (h : Hash) :
    q.providedTags.get? t = some h ↔ ∃ r, q.ready.get? h = some r ∧ t ∈ r.transaction.transaction.provides :=
  ⟨fun ht => (hq.mapped t h ht).resolve_right List.not_mem_nil, fun ⟨r, hr, ht⟩ => hq.complete h r t hr ht⟩

theorem tagsOk_default : TagsOk (default : ReadyTransactions Hash Tag) where
  hash_eq := by simp [default]
  mapped := by simp [default]
  complete := by simp [default]

theorem TagsOkBut.mono {F G : List Tag} (hq : TagsOkBut F q)
    (hFG : ∀ t ∈ F, t ∈ G) : TagsOkBut G q :=
  ⟨hq.hash_eq, fun t h ht => (hq.mapped t h ht).imp_right (hFG t), hq.complete⟩

theorem TagsOkBut.of_sameTxs (hq : TagsOkBut F q)
    (hP : q'.providedTags = q.providedTags) (hs : SameTxs q.ready q'.ready) : TagsOkBut F q' where
  hash_eq h r' hr' := by
    obtain ⟨r, hr, ht⟩ := hs.subTxs h r' hr'
    rw [ht]
    exact hq.hash_eq h r hr
  mapped t h ht := by
    rw [hP] at ht
    refine (hq.mapped t h ht).imp_left fun ⟨r, hr, hmem⟩ => ?_
    obtain ⟨r', hr', ht'⟩ := hs.get?_of_get? hr
    exact ⟨r', hr', ht' ▸ hmem⟩
  complete h r' t hr' hmem := by
    obtain ⟨r, hr, ht⟩ := hs.subTxs h r' hr'
    rw [hP]
    exact hq.complete h r t hr (ht ▸ hmem)

theorem mem_invalidated (filter : Option (List Tag)) (provides : List Tag) (t : Tag) :
    t ∈ ReadyTransactions.invalidated filter provides ↔ t ∈ provides ∧ t ∉ filter.getD [] := by
  cases filter <;> simp [ReadyTransactions.invalidated]

theorem TagsOkBut.removeOne (hq : TagsOkBut F q)
    {tx : ReadyTx Hash Tag} (htx : q.ready.get? hash = some tx) {removedTags : List Tag}
    (hrem : ∀ t, t ∈ removedTags ↔ t ∈ tx.transaction.transaction.provides ∧ t ∉ F)
    (hP : q'.providedTags = removedTags.foldl OrdMap.erase q.providedTags)
    (hs : SameTxs (q.ready.erase hash) q'.ready) : TagsOkBut F q' where
  hash_eq h r' hr' := by
    obtain ⟨r, hr, ht⟩ := ((SubTxs.erase q.ready hash).trans hs.subTxs) h r' hr'
    rw [ht]
    exact hq.hash_eq h r hr
  mapped t h ht := by
    rw [hP, OrdMap.get?_foldl_erase_keys] at ht
    split at ht
    · cases ht
    rename_i hnot
    rcases hq.mapped t h ht with ⟨r, hr, hmem⟩ | hF
    · by_cases hh : hash = h
      · -- the removed transaction keeps only its tags of `F`
        subst hh
        rw [htx] at hr
        cases hr
        exact .inr (Decidable.byContradiction fun hF => hnot ((hrem t).mpr ⟨hmem, hF⟩))
      · obtain ⟨r', hr', ht'⟩ := hs.get?_of_get? (show (q.ready.erase hash).get? h = some r by
          rw [OrdMap.get?_erase, if_neg hh]; exact hr)
        exact .inl ⟨r', hr', ht' ▸ hmem⟩
    · exact .inr hF
  complete h r' t hr' hmem := by
    obtain ⟨r, hr, ht⟩ := hs.subTxs h r' hr'
    rw [OrdMap.get?_erase] at hr
    split at hr
    · cases hr
    rename_i hh
    have hmem' : t ∈ r.transaction.transaction.provides := ht ▸ hmem
    have hold := hq.complete h r t hr hmem'
    rw [hP, OrdMap.get?_foldl_erase_keys, if_neg]
    · exact hold
    · -- a removed tag was the removed transaction's, so it cannot name `h`
      intro hin
      have hself := hq.complete hash tx t htx ((hrem t).mp hin).1
      rw [hold] at hself
      exact hh (Option.some.inj hself).symm

/-! ## `remove_subtree` -/

/-- **The removal loop.**  Every run of `remove_subtree_with_tag_filter` that
returns keeps the invariant up to the filter, keeps only transactions that were
there, and removes every hash it was given. -/
theorem removeSubtreeLoop_ok (filter : Option (List Tag)) (fuel : Nat) :
    ∀ (toRemove : List Hash) (q : ReadyTransactions Hash Tag) (removed : List (Transaction Hash Tag))
      {result : List (Transaction Hash Tag)} {q' : ReadyTransactions Hash Tag},
      TagsOkBut (filter.getD []) q → removeSubtreeLoop filter fuel toRemove q removed = some (result, q') →
      TagsOkBut (filter.getD []) q' ∧ SubTxs q.ready q'.ready ∧ ∀ h ∈ toRemove, q'.ready.get? h = none := by
  induction fuel with
  | zero => intro toRemove q removed result q' _ h; cases h
  | succ fuel ih =>
    intro toRemove q removed result q' hq h
    rcases toRemove.eq_nil_or_concat_pop? with rfl | ⟨rest, hash, rfl, hpop⟩
    · simp only [removeSubtreeLoop, List.pop?_nil, Option.some.injEq, Prod.mk.injEq] at h
      obtain ⟨-, rfl⟩ := h
      exact ⟨hq, SubTxs.refl _, by simp⟩
    · rw [removeSubtreeLoop, hpop] at h
      cases htx : q.ready.get? hash with
      | none =>
        simp only [htx] at h
        obtain ⟨hq', hsub, hroots⟩ := ih rest q removed hq h
        refine ⟨hq', hsub, fun h' hh' => ?_⟩
        rcases List.mem_append.mp hh' with hh' | hh'
        · exact hroots h' hh'
        · rw [List.mem_singleton.mp hh']
          exact hsub.get?_eq_none htx
      | some tx =>
        simp only [htx] at h
        have hs := SameTxs.foldl (removeFromUnlocks_sameTxs
          ((invalidated filter tx.transaction.transaction.provides).foldl OrdMap.erase q.providedTags))
          tx.transaction.transaction.requires (q.ready.erase hash)
        obtain ⟨hq', hsub, hroots⟩ := ih _ _ _ (hq.removeOne htx (mem_invalidated filter _) rfl hs) h
        refine ⟨hq', ((SubTxs.erase q.ready hash).trans hs.subTxs).trans hsub, fun h' hh' => ?_⟩
        rcases List.mem_append.mp hh' with hh' | hh'
        · apply hroots h'
          split <;> simp [hh']
        · rw [List.mem_singleton.mp hh']
          exact hsub.get?_eq_none (hs.get?_eq_none (by simp))

/-! ## The removal loop ends within its fuel -/

theorem UnlocksLe.removeFromUnlocks (hU : UnlocksLe U ready)
    (providedTags : OrdMap Tag Hash) (tag : Tag) : UnlocksLe U (removeFromUnlocks providedTags ready tag) := by
  intro h r hr
  unfold ReadyTransactions.removeFromUnlocks at hr
  cases hp : providedTags.get? tag with
  | none =>
    simp only [hp] at hr
    exact hU h r hr
  | some hash =>
    cases htx : ready.get? hash with
    | none =>
      simp only [hp, htx] at hr
      exact hU h r hr
    | some tx =>
      simp only [hp, htx, OrdMap.get?_insert] at hr
      split at hr
      · rename_i hh
        cases hr
        subst hh
        exact Nat.le_trans (List.length_swapRemoveFirst_le _ _) (hU hash tx htx)
      · exact hU h r hr

theorem UnlocksLe.foldl_removeFromUnlocks (providedTags : OrdMap Tag Hash) :
    ∀ (tags : List Tag) {ready : OrdMap Hash (ReadyTx Hash Tag)}, UnlocksLe U ready →
      UnlocksLe U (tags.foldl (ReadyTransactions.removeFromUnlocks providedTags) ready)
  | [], _, hU => hU
  | tag :: tags, _, hU =>
    UnlocksLe.foldl_removeFromUnlocks providedTags tags (UnlocksLe.removeFromUnlocks hU providedTags tag)

theorem unlocksLe_maxUnlocks (q : ReadyTransactions Hash Tag) : UnlocksLe q.maxUnlocks q.ready :=
  fun _ _ hr =>
    List.le_max_of_le' 0 (List.mem_map_of_mem (f := fun e => e.2.unlocks.length) (OrdMap.mem_toList_of_get? hr)) le_rfl

theorem removeSubtreeLoop_isSome (filter : Option (List Tag)) (U fuel : Nat) :
    ∀ (toRemove : List Hash) (q : ReadyTransactions Hash Tag) (removed : List (Transaction Hash Tag)),
      UnlocksLe U q.ready → toRemove.length + q.ready.size * (U + 1) < fuel →
      (removeSubtreeLoop filter fuel toRemove q removed).isSome := by
  induction fuel with
  | zero => intro toRemove q removed _ h; omega
  | succ fuel ih =>
    intro toRemove q removed hU hfuel
    rcases toRemove.eq_nil_or_concat_pop? with rfl | ⟨rest, hash, rfl, hpop⟩
    · simp [removeSubtreeLoop]
    · rw [List.length_append, List.length_singleton] at hfuel
      rw [removeSubtreeLoop, hpop]
      cases htx : q.ready.get? hash with
      | none =>
        simp only [htx]
        exact ih rest q removed hU (by omega)
      | some tx =>
        simp only [htx]
        have hs := SameTxs.foldl (removeFromUnlocks_sameTxs
          ((invalidated filter tx.transaction.transaction.provides).foldl OrdMap.erase q.providedTags))
          tx.transaction.transaction.requires (q.ready.erase hash)
        have hU' := UnlocksLe.foldl_removeFromUnlocks
          ((invalidated filter tx.transaction.transaction.provides).foldl OrdMap.erase q.providedTags)
          tx.transaction.transaction.requires (hU.erase hash)
        -- one entry fewer, and at most `U` hashes pushed
        obtain ⟨size', hsize⟩ : ∃ size', q.ready.size = size' + 1 :=
          ⟨(q.ready.erase hash).size, (OrdMap.size_erase_of_contains (by simp [OrdMap.contains, htx])).symm⟩
        have hsize' : (q.ready.erase hash).size = size' := by
          have := OrdMap.size_erase_of_contains (m := q.ready) (k := hash) (by simp [OrdMap.contains, htx])
          omega
        have hpush : (if (invalidated filter tx.transaction.transaction.provides).isEmpty then rest
            else rest ++ tx.unlocks).length ≤ rest.length + U := by
          have := hU hash tx htx
          split
          · simp
          · simp only [List.length_append]
            omega
        refine ih _ _ _ hU' ?_
        rw [hs.size_eq, hsize']
        rw [hsize, Nat.succ_mul] at hfuel
        omega

theorem removeSubtreeWithTagFilter_isSome (q : ReadyTransactions Hash Tag) (toRemove : List Hash)
    (filter : Option (List Tag)) : (q.removeSubtreeWithTagFilter toRemove filter).isSome :=
  removeSubtreeLoop_isSome filter q.maxUnlocks _ toRemove q [] (unlocksLe_maxUnlocks q)
    (by unfold removeFuel; omega)

/-! ## `import` -/

/-- **`replace_previous`.**  On a consistent queue it ends; an error leaves the
queue as it was; otherwise the queue is consistent up to the new
transaction's tags, holds only transactions it held, and none of them provides
one of the new transaction's tags. -/
theorem replacePrevious_ok (hq : TagsOk q) (tx : Transaction Hash Tag) :
    ∃ res q', q.replacePrevious tx = some (res, q') ∧ (∀ e, res = .error e → q' = q) ∧
      ∀ v, res = .ok v → TagsOkBut tx.provides q' ∧ SubTxs q.ready q'.ready ∧
        ∀ h r, q'.ready.get? h = some r → ∀ t ∈ tx.provides, t ∉ r.transaction.transaction.provides := by
  -- every holder of one of the new tags is among the hashes to replace
  have hrep : ∀ h r, q.ready.get? h = some r → ∀ t ∈ tx.provides, t ∈ r.transaction.transaction.provides →
      h ∈ (tx.provides.filterMap q.providedTags.get?).dedup := fun h r hr t ht hmem =>
    List.mem_dedup.mpr (List.mem_filterMap.mpr ⟨t, ht, hq.complete h r t hr hmem⟩)
  unfold replacePrevious
  dsimp only
  split
  · rename_i hempty
    refine ⟨_, _, rfl, by simp, fun v _ => ⟨hq.mono (by simp), SubTxs.refl _, fun h r hr t ht hmem => ?_⟩⟩
    rw [List.isEmpty_iff.mp hempty] at hrep
    exact List.not_mem_nil (hrep h r hr t ht hmem)
  · split
    · exact ⟨_, _, rfl, fun _ _ => rfl, by simp⟩
    · obtain ⟨⟨removed, q'⟩, hrun⟩ := Option.isSome_iff_exists.mp
        (removeSubtreeWithTagFilter_isSome q (tx.provides.filterMap q.providedTags.get?).dedup (some tx.provides))
      obtain ⟨hq', hsub, hroots⟩ := removeSubtreeLoop_ok _ _ _ q [] (hq.mono (by simp)) hrun
      refine ⟨_, q', by rw [hrun], by simp, fun v _ => ⟨hq', hsub, fun h r hr t ht hmem => ?_⟩⟩
      obtain ⟨r₀, hr₀, htx⟩ := hsub h r hr
      rw [hroots h (hrep h r₀ hr₀ t ht (htx ▸ hmem))] at hr
      cases hr

theorem linkRequired_foldlM_sameTxs (tags : List Tag)
    (h : tags.foldlM (linkRequired hash providedTags) acc = some acc') : SameTxs acc.1 acc'.1 :=
  PointwiseFold.foldlM_invariant (fun acc' => SameTxs acc.1 acc'.1)
    (fun _ _ _ hs hstep => hs.trans (linkRequired_sameTxs hstep)) tags acc acc' (SameTxs.refl _) h

theorem linkRequired_foldlM_isSome (hq : TagsOkBut F q)
    (hash : Hash) : ∀ (tags : List Tag) (acc : OrdMap Hash (ReadyTx Hash Tag) × Bool × Nat),
      SameTxs q.ready acc.1 → (∀ t ∈ tags, t ∉ F) →
      (tags.foldlM (linkRequired hash q.providedTags) acc).isSome
  | [], _, _, _ => rfl
  | tag :: tags, acc, hs, htags => by
    have hstep : ∃ acc', linkRequired hash q.providedTags acc tag = some acc' := by
      unfold linkRequired
      cases hp : q.providedTags.get? tag with
      | none => exact ⟨_, rfl⟩
      | some other =>
        rcases hq.mapped tag other hp with ⟨r, hr, -⟩ | hF
        · obtain ⟨r', hr', -⟩ := hs.get?_of_get? hr
          simp [hr']
        · exact absurd hF (htags tag List.mem_cons_self)
    obtain ⟨acc', hacc'⟩ := hstep
    rw [List.foldlM_cons, hacc']
    exact linkRequired_foldlM_isSome hq hash tags acc' (hs.trans (linkRequired_sameTxs hacc'))
      fun t ht => htags t (List.mem_cons_of_mem _ ht)

theorem TagsOkBut.writeNew {N : Transaction Hash Tag} {q₁ : ReadyTransactions Hash Tag}
    (hq : TagsOkBut N.provides q₁)
    (hnone : ∀ h r, q₁.ready.get? h = some r → ∀ t ∈ N.provides, t ∉ r.transaction.transaction.provides)
    (hfresh : q₁.ready.get? N.hash = none) (hs : SameTxs q₁.ready ready)
    {r : ReadyTx Hash Tag} (hr : r.transaction.transaction = N)
    (hP : q'.providedTags = N.provides.foldl (fun p tag => p.insert tag N.hash) q₁.providedTags)
    (hR : q'.ready = ready.insert N.hash r) : TagsOk q' where
  hash_eq h r' hr' := by
    rw [hR, OrdMap.get?_insert] at hr'
    split at hr'
    · rename_i hh
      cases hr'
      rw [hr, hh]
    · obtain ⟨r₀, hr₀, ht⟩ := hs.subTxs h r' hr'
      rw [ht]
      exact hq.hash_eq h r₀ hr₀
  mapped t h ht := by
    rw [hP, OrdMap.get?_foldl_insert_const] at ht
    split at ht
    · rename_i hmem
      cases ht
      exact .inl ⟨r, by rw [hR, OrdMap.get?_insert_self], hr ▸ hmem⟩
    · rename_i hmem
      rcases hq.mapped t h ht with ⟨r₀, hr₀, hprov⟩ | hF
      · have hh : N.hash ≠ h := fun hh => by rw [← hh, hfresh] at hr₀; cases hr₀
        obtain ⟨r', hr', ht'⟩ := hs.get?_of_get? hr₀
        exact .inl ⟨r', by rw [hR, OrdMap.get?_insert, if_neg hh]; exact hr', ht' ▸ hprov⟩
      · exact absurd hF hmem
  complete h r' t hr' hmem := by
    rw [hP, OrdMap.get?_foldl_insert_const]
    rw [hR, OrdMap.get?_insert] at hr'
    split at hr'
    · rename_i hh
      cases hr'
      rw [if_pos (hr ▸ hmem), hh]
    · obtain ⟨r₀, hr₀, ht⟩ := hs.subTxs h r' hr'
      have hmem₀ : t ∈ r₀.transaction.transaction.provides := ht ▸ hmem
      rw [if_neg fun hN => hnone h r₀ hr₀ t hN hmem₀]
      exact hq.complete h r₀ t hr₀ hmem₀

/-- **`import` keeps the invariant** whenever it returns, and the queue then
holds transactions it held and the imported one. -/
theorem import_ok (hq : TagsOk q)
    {res : Except (Error Hash) (List (Transaction Hash Tag))} (h : q.import tx = some (res, q')) :
    TagsOk q' ∧ ∀ k r', q'.ready.get? k = some r' →
      (∃ r, q.ready.get? k = some r ∧ r'.transaction = r.transaction) ∨ r'.transaction.transaction = tx.transaction := by
  unfold ReadyTransactions.import at h
  split at h
  · cases h
  split at h
  · cases h
  rename_i hnew
  have hq₀ : TagsOk { q with insertionId := q.insertionId + 1 } := hq.of_sameTxs rfl (SameTxs.refl _)
  obtain ⟨res₁, q₁, hrp, herr, hok⟩ := replacePrevious_ok hq₀ tx.transaction
  dsimp only at h
  rw [hrp] at h
  cases res₁ with
  | error e =>
    cases h
    rw [herr e rfl]
    exact ⟨hq₀, fun k r' hr' => .inl ⟨r', hr', rfl⟩⟩
  | ok v =>
    obtain ⟨hq₁, hsub, hnone⟩ := hok v rfl
    simp only at h
    split at h
    · cases h
    · rename_i acc hacc
      cases h
      have hfresh : q₁.ready.get? tx.transaction.hash = none :=
        hsub.get?_eq_none (by simpa [OrdMap.contains] using hnew)
      have hs := linkRequired_foldlM_sameTxs _ hacc
      refine ⟨hq₁.writeNew hnone hfresh hs rfl rfl rfl, fun k r' hr' => ?_⟩
      rw [OrdMap.get?_insert] at hr'
      split at hr'
      · cases hr'
        exact .inr rfl
      · exact .inl ((hsub.trans hs.subTxs) k r' hr')

/-- **`import` does not panic** on a consistent queue, for a ready transaction
with a fresh hash that requires none of the tags it provides. -/
theorem import_isSome (hq : TagsOk q)
    (hready : tx.isReady = true) (hfresh : q.ready.contains tx.transaction.hash = false)
    (hdisj : ∀ t ∈ tx.transaction.requires, t ∉ tx.transaction.provides) : (q.import tx).isSome := by
  have hq₀ : TagsOk { q with insertionId := q.insertionId + 1 } := hq.of_sameTxs rfl (SameTxs.refl _)
  obtain ⟨res₁, q₁, hrp, -, hok⟩ := replacePrevious_ok hq₀ tx.transaction
  unfold «import»
  simp only [hready, hfresh, Bool.not_true, Bool.false_eq_true, if_false]
  rw [hrp]
  cases res₁ with
  | error e => rfl
  | ok v =>
    obtain ⟨hq₁, -, -⟩ := hok v rfl
    obtain ⟨acc, hacc⟩ := Option.isSome_iff_exists.mp
      (linkRequired_foldlM_isSome hq₁ tx.transaction.hash tx.transaction.requires (q₁.ready, true, 0)
        (SameTxs.refl _) hdisj)
    simp only [hacc]
    rfl

/-! ## `prune_tags` -/

/-- Every ready transaction provides each of its tags once. -/
def ProvidesNodup (ready : OrdMap Hash (ReadyTx Hash Tag)) : Prop :=
  ∀ h r, ready.get? h = some r → r.transaction.transaction.provides.Nodup

/-- Every ready transaction requires at most `A` tags and provides at most `B`. -/
def EntriesLe (A B : Nat) (ready : OrdMap Hash (ReadyTx Hash Tag)) : Prop :=
  ∀ h r, ready.get? h = some r →
    r.transaction.transaction.requires.length ≤ A ∧ r.transaction.transaction.provides.length ≤ B

omit [LinearOrder Tag] in
theorem ProvidesNodup.of_subTxs (hn : ProvidesNodup ready)
    (hs : SubTxs ready ready') : ProvidesNodup ready' := fun h r' hr' => by
  obtain ⟨r, hr, ht⟩ := hs h r' hr'
  rw [ht]
  exact hn h r hr

omit [LinearOrder Tag] in
theorem EntriesLe.of_subTxs {A B : Nat} (he : EntriesLe A B ready)
    (hs : SubTxs ready ready') : EntriesLe A B ready' := fun h r' hr' => by
  obtain ⟨r, hr, ht⟩ := hs h r' hr'
  rw [ht]
  exact he h r hr

theorem clearProvided_foldlM (currentTag : Tag) (hash : Hash) :
    ∀ (tags : List Tag) (providedTags : OrdMap Tag Hash), tags.Nodup →
      (∀ t ∈ tags, providedTags.get? t = if currentTag = t then none else some hash) →
      tags.foldlM (clearProvided currentTag hash) providedTags = some (tags.foldl OrdMap.erase providedTags)
  | [], _, _, _ => rfl
  | t :: tags, providedTags, hnd, hget => by
    rw [List.nodup_cons] at hnd
    rw [List.foldlM_cons, List.foldl_cons, clearProvided, if_pos (hget t List.mem_cons_self)]
    refine clearProvided_foldlM currentTag hash tags _ hnd.2 fun t' ht' => ?_
    have hne : t ≠ t' := fun heq => hnd.1 (heq ▸ ht')
    rw [OrdMap.get?_erase, if_neg hne]
    exact hget t' (List.mem_cons_of_mem _ ht')

theorem prunePrevious_foldl_length {B : Nat} (hash : Hash) (providedTags : OrdMap Tag Hash) :
    ∀ (tags : List Tag) (acc : OrdMap Hash (ReadyTx Hash Tag) × List Tag),
      (∀ h r, acc.1.get? h = some r → r.transaction.transaction.provides.length ≤ B) →
      (tags.foldl (prunePrevious hash providedTags) acc).2.length ≤ acc.2.length + tags.length * B
  | [], _, _ => by simp
  | tag :: tags, acc, hB => by
    have hs := prunePrevious_sameTxs hash providedTags acc tag
    have hB' : ∀ h r, (prunePrevious hash providedTags acc tag).1.get? h = some r →
        r.transaction.transaction.provides.length ≤ B := fun h r hr => by
      obtain ⟨r₀, hr₀, ht⟩ := hs.subTxs h r hr
      rw [ht]
      exact hB h r₀ hr₀
    have hstep : (prunePrevious hash providedTags acc tag).2.length ≤ acc.2.length + B := by
      unfold prunePrevious findPrevious
      cases hp : providedTags.get? tag with
      | none => simp
      | some prev =>
        cases hr : acc.1.get? prev with
        | none => simp [hr]
        | some tx2 =>
          have := hB prev tx2 hr
          by_cases hempty : removeItem tx2.unlocks hash = []
          · simp [hr, hempty]
            omega
          · simp [hr, hempty]
    have := prunePrevious_foldl_length hash providedTags tags _ hB'
    rw [List.foldl_cons, List.length_cons, Nat.succ_mul]
    omega

/-- **The pruning loop.**  On a consistent queue whose transactions provide
each tag once, every turn passes the `assert_eq!`, the invariant holds after
it, and the loop ends within its fuel: each turn pops a tag, and a
transaction leaving the queue pushes at most `A * B` tags. -/
theorem pruneTagsLoop_ok (A B fuel : Nat) :
    ∀ (toRemove : List Tag) (q : ReadyTransactions Hash Tag) (removed : List (Transaction Hash Tag)),
      TagsOk q → ProvidesNodup q.ready → EntriesLe A B q.ready →
      toRemove.length + q.ready.size * (A * B + 1) < fuel →
      ∃ pruned q', pruneTagsLoop fuel toRemove q removed = some (pruned, q') ∧ TagsOk q' ∧
        SubTxs q.ready q'.ready := by
  induction fuel with
  | zero => intro toRemove q removed _ _ _ h; omega
  | succ fuel ih =>
    intro toRemove q removed hq hnd hle hfuel
    rcases toRemove.eq_nil_or_concat_pop? with rfl | ⟨rest, tag, rfl, hpop⟩
    · exact ⟨removed, q, by simp [pruneTagsLoop], hq, SubTxs.refl _⟩
    rw [List.length_append, List.length_singleton] at hfuel
    rw [pruneTagsLoop, hpop]
    cases hp : q.providedTags.get? tag with
    | none =>
      simp only [hp]
      exact ih rest q removed hq hnd hle (by omega)
    | some hash =>
      obtain ⟨X, hX, htagX⟩ := (hq.provided_iff tag hash).mp hp
      have hXhash := hq.hash_eq hash X hX
      have hclear := clearProvided_foldlM tag X.transaction.transaction.hash X.transaction.transaction.provides
        (q.providedTags.erase tag) (hnd hash X hX) fun t ht => by
          rw [OrdMap.get?_erase, hXhash]
          split
          · rfl
          · exact hq.complete hash X t hX ht
      simp only [hp, hX, hclear]
      set previous := X.transaction.transaction.requires.foldl
        (prunePrevious X.transaction.transaction.hash (q.providedTags.erase tag)) (q.ready.erase hash, rest)
      set unlocked := X.unlocks.foldl promoteUnlocked (previous.1, RefSet.remove q.best X.transaction)
      -- the turn keeps every transaction but the pruned one
      have hs : SameTxs (q.ready.erase hash) unlocked.1 :=
        (SameTxs.foldl_get Prod.fst (prunePrevious_sameTxs X.transaction.transaction.hash (q.providedTags.erase tag))
          X.transaction.transaction.requires (q.ready.erase hash, rest)).trans
          (SameTxs.foldl_get Prod.fst promoteUnlocked_sameTxs X.unlocks
            (previous.1, RefSet.remove q.best X.transaction))
      have hsub : SubTxs q.ready unlocked.1 := (SubTxs.erase q.ready hash).trans hs.subTxs
      have hq' : TagsOk (⟨q.insertionId, X.transaction.transaction.provides.foldl OrdMap.erase
          (q.providedTags.erase tag), unlocked.1, unlocked.2⟩ : ReadyTransactions Hash Tag) := by
        have hrem : ∀ t, t ∈ tag :: X.transaction.transaction.provides ↔
            t ∈ X.transaction.transaction.provides ∧ t ∉ ([] : List Tag) := by
          intro t
          simp only [List.mem_cons, List.not_mem_nil, not_false_eq_true, and_true]
          exact ⟨fun ht => ht.elim (· ▸ htagX) id, Or.inr⟩
        exact hq.removeOne hX hrem rfl hs
      -- at most `A * B` tags pushed, and one entry fewer
      have hpush : previous.2.length ≤ rest.length + A * B := by
        have hlen := prunePrevious_foldl_length (B := B) X.transaction.transaction.hash (q.providedTags.erase tag)
          X.transaction.transaction.requires (q.ready.erase hash, rest)
          fun h r hr => (hle.of_subTxs (SubTxs.erase q.ready hash) h r hr).2
        have hA := Nat.mul_le_mul_right B (hle hash X hX).1
        exact Nat.le_trans hlen (Nat.add_le_add_left hA _)
      have hsize : unlocked.1.size + 1 = q.ready.size := by
        rw [hs.size_eq]
        exact OrdMap.size_erase_of_contains (by simp [OrdMap.contains, hX])
      obtain ⟨pruned, q', hrun, hq'', hsub'⟩ := ih previous.2 _ (removed ++ [X.transaction.transaction]) hq'
        (hnd.of_subTxs hsub) (hle.of_subTxs hsub) (by
          simp only
          rw [← hsize, Nat.succ_mul] at hfuel
          omega)
      exact ⟨pruned, q', hrun, hq'', hsub.trans hsub'⟩

theorem entriesLe_max (q : ReadyTransactions Hash Tag) : EntriesLe q.maxRequires q.maxProvides q.ready :=
  fun _ _ hr => ⟨List.le_max_of_le' 0 (List.mem_map_of_mem (f := fun e => e.2.transaction.transaction.requires.length)
      (OrdMap.mem_toList_of_get? hr)) le_rfl,
    List.le_max_of_le' 0 (List.mem_map_of_mem (f := fun e => e.2.transaction.transaction.provides.length)
      (OrdMap.mem_toList_of_get? hr)) le_rfl⟩

/-- **`prune_tags`** ends without a panic on a consistent queue whose
transactions provide each tag once, and keeps it consistent. -/
theorem pruneTags_ok (hq : TagsOk q) (hnd : ProvidesNodup q.ready) (tag : Tag) :
    ∃ pruned q', q.pruneTags tag = some (pruned, q') ∧ TagsOk q' ∧ SubTxs q.ready q'.ready :=
  pruneTagsLoop_ok q.maxRequires q.maxProvides _ [tag] q [] hq hnd (entriesLe_max q) (by unfold pruneFuel; omega)

/-- **`remove_subtree`** ends on any queue, and keeps a consistent one consistent. -/
theorem removeSubtree_ok (hq : TagsOk q) (hashes : List Hash) :
    ∃ removed q', q.removeSubtree hashes = some (removed, q') ∧ TagsOk q' ∧ SubTxs q.ready q'.ready := by
  obtain ⟨⟨removed, q'⟩, hrun⟩ := Option.isSome_iff_exists.mp (removeSubtreeWithTagFilter_isSome q hashes none)
  obtain ⟨hq', hsub, -⟩ := removeSubtreeLoop_ok none _ hashes q [] hq hrun
  exact ⟨removed, q', hrun, hq', hsub⟩

end ReadyTransactions

open ReadyTransactions

variable {q : ReadyTransactions Hash Tag}

/-- **The tags invariant on every run.**  Every queue reachable by admissible
operations is consistent, and its transactions provide each tag once. -/
theorem ReadyReachable.tagsOk (hq : ReadyReachable q) :
    TagsOk q ∧ ProvidesNodup q.ready := by
  induction hq with
  | default => exact ⟨tagsOk_default, fun h r hr => by simp [ReadyTransactions.default] at hr⟩
  | step _ hop h ih =>
    obtain ⟨hq, hnd⟩ := ih
    rename_i q q' op _
    cases op with
    | «import» tx =>
      obtain ⟨⟨res, q''⟩, himp, rfl⟩ := Option.map_eq_some_iff.mp h
      obtain ⟨hq', hentries⟩ := import_ok hq himp
      refine ⟨hq', fun k r' hr' => ?_⟩
      rcases hentries k r' hr' with ⟨r, hr, ht⟩ | ht
      · rw [ht]
        exact hnd k r hr
      · rw [ht]
        exact hop.2.1
    | removeSubtree hashes =>
      obtain ⟨removed, q'', hrun, hq', hsub⟩ := removeSubtree_ok hq hashes
      simp only [ReadyTransactions.step, hrun, Option.map_some, Option.some.injEq] at h
      subst h
      exact ⟨hq', hnd.of_subTxs hsub⟩
    | pruneTags tag =>
      obtain ⟨pruned, q'', hrun, hq', hsub⟩ := pruneTags_ok hq hnd tag
      simp only [ReadyTransactions.step, hrun, Option.map_some, Option.some.injEq] at h
      subst h
      exact ⟨hq', hnd.of_subTxs hsub⟩

/-- **No panic on a reachable queue**: an admissible operation returns,
provided an import brings a new hash. -/
theorem ReadyReachable.step_isSome (hq : ReadyReachable q)
    {op : ReadyOp Hash Tag} (hop : op.Admissible)
    (hfresh : ∀ tx, op = .import tx → q.contains tx.hash = false) : (q.step op).isSome := by
  obtain ⟨htags, hnd⟩ := hq.tagsOk
  cases op with
  | «import» tx =>
    simp only [ReadyTransactions.step, Option.isSome_map]
    exact import_isSome htags rfl (hfresh tx rfl) hop.2.2
  | removeSubtree hashes =>
    obtain ⟨removed, q', hrun, -⟩ := removeSubtree_ok htags hashes
    simp [ReadyTransactions.step, hrun]
  | pruneTags tag =>
    obtain ⟨pruned, q', hrun, -⟩ := pruneTags_ok htags hnd tag
    simp [ReadyTransactions.step, hrun]

/-- **The ready queue on every run**: a queue reached by admissible operations
maps each tag to the one ready transaction providing it, and every admissible
operation on it returns, an import bringing a new hash. -/
theorem readyQueue_runs_safe (hq : ReadyReachable q) :
    TagsOk q ∧ ProvidesNodup q.ready ∧
      ∀ op : ReadyOp Hash Tag, op.Admissible → (∀ tx, op = .import tx → q.contains tx.hash = false) →
        (q.step op).isSome :=
  ⟨hq.tagsOk.1, hq.tagsOk.2, fun _ hop hfresh => hq.step_isSome hop hfresh⟩

/-- Transaction `1` provides tag `10`, and `2` requires it. -/
def chainRun : List (ReadyOp Nat Nat) := [.import ⟨1, 1, 1, 64, [], [10]⟩, .import ⟨1, 2, 1, 64, [10], []⟩]

/-- The queue `chainRun` ends in. -/
def chainQueue : ReadyTransactions Nat Nat := (chainRun.foldlM ReadyTransactions.step .default).getD .default

theorem readyQueue_runs_safe_chain :
    ReadyReachable chainQueue ∧ chainQueue.contains 1 = true ∧ chainQueue.contains 2 = true ∧
      TagsOk chainQueue ∧ (chainQueue.step (.removeSubtree [1])).isSome := by
  have hrun : chainRun.foldlM ReadyTransactions.step .default = some chainQueue := rfl
  have hr : ReadyReachable chainQueue := ReadyReachable.foldlM (by decide) .default hrun
  obtain ⟨htags, -, hsafe⟩ := readyQueue_runs_safe hr
  exact ⟨hr, by decide, by decide, htags, hsafe _ trivial fun _ h => by cases h⟩

end TxPool
