import Mathlib
import CherryNode.Lib.OrdMap

/-!
# The future queue of the transaction pool

`FutureTransactions` (`graph/future.rs`) holds the transactions still missing
required tags, by hash in `waiting`, indexed by missing tag in `wanted_tags`.
A `HashSet` is a list without repetitions (`WaitingTransaction.nodup` for
`missing_tags`), a `HashMap` an `OrdMap` in key order, and a failed assertion
or `expect` is `none`.  `FutureOk` says the index is exact,

    h ∈ wanted_tags[t]  ↔  t is a missing tag of the waiting transaction h,

and every waiting transaction misses some tag.  Each operation keeps it
(`import_ok`, `satisfyTags_ok`, `remove_ok`, `clear`), and under it
`satisfy_tags` never reaches its `expect(WAITING_PROOF)` and returns exactly
the transactions that leave `waiting` (`satisfyTags_ok`).
-/

namespace TxPool

/-- `Transaction` of `base_pool.rs`, with the fields the queues read (the
extrinsic, `propagate` and `source` are never looked at by them). -/
structure Transaction (Hash Tag : Type) where
  bytes : Nat
  hash : Hash
  priority : Nat
  validTill : Nat
  requires : List Tag
  provides : List Tag
  deriving DecidableEq, Repr

/-- `WaitingTransaction`: a transaction, the set of the tags it still misses,
and the instant of its import. -/
structure WaitingTransaction (Hash Tag : Type) where
  transaction : Transaction Hash Tag
  missingTags : List Tag
  nodup : missingTags.Nodup
  importedAt : Nat

variable {Hash Tag : Type} [LinearOrder Tag]
variable {tag : Tag}

namespace WaitingTransaction

/-- `WaitingTransaction::new`: the required tags that the ready queue does not
provide and that were not pruned recently. -/
def new (transaction : Transaction Hash Tag) (provided : OrdMap Tag Hash)
    (recentlyPruned : List (List Tag)) (importedAt : Nat) : WaitingTransaction Hash Tag where
  transaction := transaction
  missingTags := (transaction.requires.filter fun tag =>
    !(provided.contains tag || recentlyPruned.any fun x => x.contains tag)).dedup
  nodup := List.nodup_dedup _
  importedAt := importedAt

/-- `satisfy_tag`. -/
def satisfyTag (w : WaitingTransaction Hash Tag) (tag : Tag) : WaitingTransaction Hash Tag :=
  { w with missingTags := w.missingTags.erase tag, nodup := w.nodup.erase tag }

/-- `is_ready`. -/
def isReady (w : WaitingTransaction Hash Tag) : Bool := w.missingTags.isEmpty

@[simp] theorem satisfyTag_transaction (w : WaitingTransaction Hash Tag) (tag : Tag) :
    (w.satisfyTag tag).transaction = w.transaction := rfl

omit [LinearOrder Tag] in
theorem isReady_iff (w : WaitingTransaction Hash Tag) : w.isReady = true ↔ w.missingTags = [] := by
  simp [isReady]

/-- What `satisfy_tags` leaves in `waiting` of a transaction that waited for
`tag`: nothing once it is ready. -/
def stillWaiting (tag : Tag) (o : Option (WaitingTransaction Hash Tag)) :
    Option (WaitingTransaction Hash Tag) :=
  (o.map (·.satisfyTag tag)).filter fun w => !w.isReady

/-- What `satisfy_tags` hands over to `became_ready` of it. -/
def becomesReady (tag : Tag) (o : Option (WaitingTransaction Hash Tag)) :
    Option (WaitingTransaction Hash Tag) :=
  (o.map (·.satisfyTag tag)).filter (·.isReady)

@[simp] theorem stillWaiting_none (tag : Tag) : stillWaiting tag (none : Option (WaitingTransaction Hash Tag)) = none :=
  rfl

theorem stillWaiting_some (tag : Tag) (w : WaitingTransaction Hash Tag) :
    stillWaiting tag (some w) = if (w.satisfyTag tag).isReady then none else some (w.satisfyTag tag) := by
  by_cases h : (w.satisfyTag tag).isReady <;> simp [stillWaiting, Option.filter, h]

theorem becomesReady_some (tag : Tag) (w : WaitingTransaction Hash Tag) :
    becomesReady tag (some w) = if (w.satisfyTag tag).isReady then some (w.satisfyTag tag) else none := by
  by_cases h : (w.satisfyTag tag).isReady <;> simp [becomesReady, Option.filter, h]

variable {w : WaitingTransaction Hash Tag} {o : Option (WaitingTransaction Hash Tag)}

theorem stillWaiting_eq_some_iff
    :
    stillWaiting tag o = some w ↔ ∃ w₀, o = some w₀ ∧ w₀.satisfyTag tag = w ∧ w.isReady = false := by
  simp only [stillWaiting, Option.filter_eq_some_iff, Option.map_eq_some_iff, Bool.not_eq_eq_eq_not,
    Bool.not_true]
  constructor
  · rintro ⟨⟨w₀, ho, hw⟩, hready⟩
    exact ⟨w₀, ho, hw, hready⟩
  · rintro ⟨w₀, ho, hw, hready⟩
    exact ⟨⟨w₀, ho, hw⟩, hready⟩

theorem becomesReady_eq_some_iff
    :
    becomesReady tag o = some w ↔ ∃ w₀, o = some w₀ ∧ w₀.satisfyTag tag = w ∧ w.isReady = true := by
  simp only [becomesReady, Option.filter_eq_some_iff, Option.map_eq_some_iff]
  constructor
  · rintro ⟨⟨w₀, ho, hw⟩, hready⟩
    exact ⟨w₀, ho, hw, hready⟩
  · rintro ⟨w₀, ho, hw, hready⟩
    exact ⟨⟨w₀, ho, hw⟩, hready⟩

theorem isSome_stillWaiting_iff (tag : Tag) (o : Option (WaitingTransaction Hash Tag)) :
    (stillWaiting tag o).isSome ↔ o.isSome ∧ (becomesReady tag o).isSome = false := by
  cases o with
  | none => simp
  | some w => by_cases h : (w.satisfyTag tag).isReady <;> simp [stillWaiting_some, becomesReady_some, h]

end WaitingTransaction

variable [LinearOrder Hash]

/-- `FutureTransactions`. -/
structure FutureTransactions (Hash Tag : Type) [LinearOrder Hash] [LinearOrder Tag] where
  wantedTags : OrdMap Tag (List Hash)
  waiting : OrdMap Hash (WaitingTransaction Hash Tag)

namespace FutureTransactions

/-- `Default`: both maps empty. -/
def default : FutureTransactions Hash Tag := ⟨.empty, .empty⟩

/-- The hashes waiting for `tag` (an absent entry is the empty set). -/
def wanted (f : FutureTransactions Hash Tag) (tag : Tag) : List Hash := (f.wantedTags.get? tag).getD []

/-- `contains`. -/
def contains (f : FutureTransactions Hash Tag) (hash : Hash) : Bool := f.waiting.contains hash

/-! ## Algorithm -/

/-- One turn of `import`'s loop over the missing tags:
`wanted_tags.entry(tag).or_insert_with(HashSet::new).insert(hash)`. -/
def wantHash (hash : Hash) (wantedTags : OrdMap Tag (List Hash)) (tag : Tag) :
    OrdMap Tag (List Hash) :=
  wantedTags.insert tag (((wantedTags.get? tag).getD []).insert hash)

/-- `import`; `none` where one of its two assertions fails. -/
def «import» (f : FutureTransactions Hash Tag) (tx : WaitingTransaction Hash Tag) :
    Option (FutureTransactions Hash Tag) :=
  if tx.isReady then none
  else if f.waiting.contains tx.transaction.hash then none
  else some ⟨tx.missingTags.foldl (wantHash tx.transaction.hash) f.wantedTags,
    f.waiting.insert tx.transaction.hash tx⟩

/-- The inner loop of `satisfy_tags`, over the hashes that waited for `tag`:
each loses the tag, and those left ready move out of `waiting` into
`became_ready`.  `none` is the `expect(WAITING_PROOF)` failing. -/
def satisfyHashes (tag : Tag) :
    List Hash → OrdMap Hash (WaitingTransaction Hash Tag) → List (WaitingTransaction Hash Tag) →
      Option (OrdMap Hash (WaitingTransaction Hash Tag) × List (WaitingTransaction Hash Tag))
  | [], waiting, becameReady => some (waiting, becameReady)
  | hash :: hashes, waiting, becameReady =>
    match waiting.get? hash with
    | none => none
    | some tx =>
      if (tx.satisfyTag tag).isReady then
        satisfyHashes tag hashes (waiting.erase hash) (becameReady ++ [tx.satisfyTag tag])
      else satisfyHashes tag hashes (waiting.insert hash (tx.satisfyTag tag)) becameReady

/-- The outer loop of `satisfy_tags`, over the tags. -/
def satisfyTagsLoop :
    List Tag → FutureTransactions Hash Tag → List (WaitingTransaction Hash Tag) →
      Option (List (WaitingTransaction Hash Tag) × FutureTransactions Hash Tag)
  | [], f, becameReady => some (becameReady, f)
  | tag :: tags, f, becameReady =>
    match f.wantedTags.get? tag with
    | none => satisfyTagsLoop tags f becameReady
    | some hashes =>
      match satisfyHashes tag hashes f.waiting becameReady with
      | none => none
      | some (waiting, becameReady) => satisfyTagsLoop tags ⟨f.wantedTags.erase tag, waiting⟩ becameReady

/-- `satisfy_tags`: the transactions that became ready, removed from the queue. -/
def satisfyTags (f : FutureTransactions Hash Tag) (tags : List Tag) :
    Option (List (WaitingTransaction Hash Tag) × FutureTransactions Hash Tag) :=
  satisfyTagsLoop tags f []

/-- One turn of `remove`'s loop over the missing tags of a removed transaction:
the hash leaves the tag's set, and an emptied set leaves the map. -/
def unwantHash (hash : Hash) (wantedTags : OrdMap Tag (List Hash)) (tag : Tag) :
    OrdMap Tag (List Hash) :=
  match wantedTags.get? tag with
  | none => wantedTags
  | some wanted =>
    if (wanted.erase hash).isEmpty then wantedTags.erase tag else wantedTags.insert tag (wanted.erase hash)

/-- The loop of `remove` over the hashes. -/
def removeLoop :
    List Hash → FutureTransactions Hash Tag → List (Transaction Hash Tag) →
      List (Transaction Hash Tag) × FutureTransactions Hash Tag
  | [], f, removed => (removed, f)
  | hash :: hashes, f, removed =>
    match f.waiting.get? hash with
    | none => removeLoop hashes f removed
    | some waitingTx =>
      removeLoop hashes
        ⟨waitingTx.missingTags.foldl (unwantHash hash) f.wantedTags, f.waiting.erase hash⟩
        (removed ++ [waitingTx.transaction])

/-- `remove`: the transactions actually removed. -/
def remove (f : FutureTransactions Hash Tag) (hashes : List Hash) :
    List (Transaction Hash Tag) × FutureTransactions Hash Tag :=
  removeLoop hashes f []

/-- `clear`: every waiting transaction, and the empty queue. -/
def clear (f : FutureTransactions Hash Tag) : List (Transaction Hash Tag) × FutureTransactions Hash Tag :=
  (f.waiting.toList.map fun e => e.2.transaction, default)

/-- `fold` over the waiting transactions. -/
def fold {R : Type} (f : FutureTransactions Hash Tag)
    (g : Option R → WaitingTransaction Hash Tag → Option R) : Option R :=
  (f.waiting.toList.map Prod.snd).foldl g none

/-- `len`. -/
def len (f : FutureTransactions Hash Tag) : Nat := f.waiting.size

/-- `bytes`. -/
def bytes (f : FutureTransactions Hash Tag) : Nat :=
  (f.waiting.toList.map fun e => e.2.transaction.bytes).sum

/-! ## The index invariant -/

/-- The future queue is consistent: entries are keyed by their hash, every
waiting transaction misses some tag, and `wanted_tags` indexes exactly the
missing tags. -/
structure FutureOk (f : FutureTransactions Hash Tag) : Prop where
  hash_eq : ∀ h w, f.waiting.get? h = some w → w.transaction.hash = h
  not_ready : ∀ h w, f.waiting.get? h = some w → w.missingTags ≠ []
  wanted_nodup : ∀ t, (f.wanted t).Nodup
  mem_wanted : ∀ t h, h ∈ f.wanted t ↔ ∃ w, f.waiting.get? h = some w ∧ t ∈ w.missingTags

theorem futureOk_default : FutureOk (default : FutureTransactions Hash Tag) where
  hash_eq := by simp [default]
  not_ready := by simp [default]
  wanted_nodup := by simp [default, wanted]
  mem_wanted := by simp [default, wanted]

/-! ### `import` -/

theorem mem_foldl_wantHash (hash : Hash) :
    ∀ (tags : List Tag) (wantedTags : OrdMap Tag (List Hash)) (t : Tag) (h : Hash),
      h ∈ ((tags.foldl (wantHash hash) wantedTags).get? t).getD [] ↔
        h ∈ (wantedTags.get? t).getD [] ∨ (h = hash ∧ t ∈ tags)
  | [], _, _, _ => by simp
  | tag :: tags, wantedTags, t, h => by
    rw [List.foldl_cons, mem_foldl_wantHash hash tags, wantHash, OrdMap.get?_insert]
    by_cases ht : tag = t
    · subst ht
      simp only [if_true, Option.getD_some, List.mem_insert_iff, List.mem_cons]
      tauto
    · simp only [if_neg ht, List.mem_cons, Ne.symm ht, false_or]

theorem nodup_foldl_wantHash (hash : Hash) :
    ∀ (tags : List Tag) (wantedTags : OrdMap Tag (List Hash)),
      (∀ t, ((wantedTags.get? t).getD []).Nodup) →
        ∀ t, (((tags.foldl (wantHash hash) wantedTags).get? t).getD []).Nodup
  | [], _, h => h
  | tag :: tags, wantedTags, h => by
    refine nodup_foldl_wantHash hash tags _ fun t => ?_
    rw [wantHash, OrdMap.get?_insert]
    split
    · exact (h tag).insert
    · exact h t

/-- `import` leaves the queue consistent, and holds the new transaction. -/
theorem import_ok {f f' : FutureTransactions Hash Tag} (hf : FutureOk f)
    {tx : WaitingTransaction Hash Tag} (h : f.import tx = some f') :
    FutureOk f' ∧ f'.waiting = f.waiting.insert tx.transaction.hash tx := by
  unfold «import» at h
  split at h
  · cases h
  rename_i hready
  split at h
  · cases h
  rename_i hnew
  cases h
  have hfresh : ∀ w, f.waiting.get? tx.transaction.hash ≠ some w := fun w hw => by
    simp [OrdMap.contains, hw] at hnew
  refine ⟨⟨?_, ?_, ?_, ?_⟩, rfl⟩
  · intro h w hw
    rw [OrdMap.get?_insert] at hw
    split at hw
    · cases hw; assumption
    · exact hf.hash_eq h w hw
  · intro h w hw
    rw [OrdMap.get?_insert] at hw
    split at hw
    · cases hw
      simpa [WaitingTransaction.isReady_iff] using hready
    · exact hf.not_ready h w hw
  · exact nodup_foldl_wantHash _ _ _ hf.wanted_nodup
  · intro t h
    simp only [wanted, mem_foldl_wantHash, OrdMap.get?_insert]
    rw [← wanted, hf.mem_wanted]
    by_cases hh : tx.transaction.hash = h
    · subst hh
      simp [hfresh]
    · simp [hh, Ne.symm hh]

/-! ### `satisfy_tags` -/

open WaitingTransaction in
theorem satisfyHashes_spec (tag : Tag) :
    ∀ (hashes : List Hash) (waiting : OrdMap Hash (WaitingTransaction Hash Tag))
      (becameReady : List (WaitingTransaction Hash Tag)),
      hashes.Nodup → (∀ h ∈ hashes, (waiting.get? h).isSome) →
      ∃ waiting', satisfyHashes tag hashes waiting becameReady =
          some (waiting', becameReady ++ hashes.filterMap fun h => becomesReady tag (waiting.get? h)) ∧
        ∀ h, waiting'.get? h = if h ∈ hashes then stillWaiting tag (waiting.get? h) else waiting.get? h
  | [], waiting, becameReady, _, _ => ⟨waiting, by simp [satisfyHashes], fun h => by simp⟩
  | hash :: hashes, waiting, becameReady, hnd, hsome => by
    rw [List.nodup_cons] at hnd
    obtain ⟨tx, htx⟩ := Option.isSome_iff_exists.mp (hsome hash List.mem_cons_self)
    have hrest : ∀ h ∈ hashes, hash ≠ h := fun h hh heq => hnd.1 (heq ▸ hh)
    -- the rest of the loop runs on a map that differs from `waiting` at `hash` only
    have hsame : ∀ (m : OrdMap Hash (WaitingTransaction Hash Tag)),
        (∀ h, hash ≠ h → m.get? h = waiting.get? h) →
        (∀ h ∈ hashes, (m.get? h).isSome) ∧
          hashes.filterMap (fun h => becomesReady tag (m.get? h)) =
            hashes.filterMap fun h => becomesReady tag (waiting.get? h) := fun m hm =>
      ⟨fun h hh => by rw [hm h (hrest h hh)]; exact hsome h (List.mem_cons_of_mem _ hh),
        List.filterMap_congr fun h hh => by rw [hm h (hrest h hh)]⟩
    by_cases hready : (tx.satisfyTag tag).isReady = true
    · obtain ⟨hs, hfm⟩ := hsame (waiting.erase hash) fun h hh => by rw [OrdMap.get?_erase, if_neg hh]
      obtain ⟨waiting', hrun, hget⟩ :=
        satisfyHashes_spec tag hashes (waiting.erase hash) (becameReady ++ [tx.satisfyTag tag]) hnd.2 hs
      refine ⟨waiting', ?_, fun h => ?_⟩
      · rw [satisfyHashes, htx]
        simp only [if_pos hready, hrun, hfm, List.filterMap_cons, htx, becomesReady_some, List.append_assoc,
          List.singleton_append]
      · rw [hget h, OrdMap.get?_erase]
        by_cases hh : hash = h
        · subst hh
          simp [hnd.1, htx, stillWaiting_some, hready]
        · simp [hh, Ne.symm hh]
    · obtain ⟨hs, hfm⟩ := hsame (waiting.insert hash (tx.satisfyTag tag)) fun h hh => by
        rw [OrdMap.get?_insert, if_neg hh]
      obtain ⟨waiting', hrun, hget⟩ :=
        satisfyHashes_spec tag hashes (waiting.insert hash (tx.satisfyTag tag)) becameReady hnd.2 hs
      refine ⟨waiting', ?_, fun h => ?_⟩
      · rw [satisfyHashes, htx]
        simp only [if_neg hready, hrun, hfm, List.filterMap_cons, htx, becomesReady_some]
      · rw [hget h, OrdMap.get?_insert]
        by_cases hh : hash = h
        · subst hh
          simp [hnd.1, htx, stillWaiting_some, hready]
        · simp [hh, Ne.symm hh]

variable {f : FutureTransactions Hash Tag} {hashes : List Hash}

theorem hsome_of_wanted (hf : FutureOk f)
    (hw : f.wantedTags.get? tag = some hashes) {h : Hash} (hh : h ∈ hashes) : (f.waiting.get? h).isSome := by
  have hwanted : h ∈ f.wanted tag := by rw [wanted, hw, Option.getD_some]; exact hh
  obtain ⟨w, hw', -⟩ := (hf.mem_wanted tag h).mp hwanted
  simp [hw']

open WaitingTransaction in
theorem satisfyTag_step (hf : FutureOk f)
    (hw : f.wantedTags.get? tag = some hashes)
    (becameReady : List (WaitingTransaction Hash Tag)) :
    ∃ waiting', satisfyHashes tag hashes f.waiting becameReady =
        some (waiting', becameReady ++ hashes.filterMap fun h => becomesReady tag (f.waiting.get? h)) ∧
      FutureOk ⟨f.wantedTags.erase tag, waiting'⟩ ∧
      ∀ h, waiting'.get? h = if h ∈ hashes then stillWaiting tag (f.waiting.get? h) else f.waiting.get? h := by
  have hwanted : f.wanted tag = hashes := by rw [wanted, hw, Option.getD_some]
  obtain ⟨waiting', hrun, hget⟩ := satisfyHashes_spec tag hashes f.waiting becameReady
    (hwanted ▸ hf.wanted_nodup tag) fun h hh => hsome_of_wanted hf hw hh
  refine ⟨waiting', hrun, ⟨?_, ?_, ?_, ?_⟩, hget⟩
  · intro h w hw'
    rw [hget] at hw'
    split at hw'
    · obtain ⟨w₀, hw₀, rfl, -⟩ := stillWaiting_eq_some_iff.mp hw'
      exact hf.hash_eq h w₀ hw₀
    · exact hf.hash_eq h w hw'
  · intro h w hw'
    rw [hget] at hw'
    split at hw'
    · obtain ⟨-, -, -, hready⟩ := stillWaiting_eq_some_iff.mp hw'
      simpa [isReady] using hready
    · exact hf.not_ready h w hw'
  · intro t
    simp only [wanted, OrdMap.get?_erase]
    split
    · exact List.nodup_nil
    · exact hf.wanted_nodup t
  · intro t h
    simp only [wanted, OrdMap.get?_erase, hget]
    by_cases ht : tag = t
    · -- no transaction misses the satisfied tag any more
      subst ht
      simp only [if_true, Option.getD_none, List.not_mem_nil, false_iff, not_exists, not_and]
      intro w hw' hmem
      split at hw'
      · obtain ⟨w₀, -, rfl, -⟩ := stillWaiting_eq_some_iff.mp hw'
        exact w₀.nodup.not_mem_erase hmem
      · rename_i hh
        exact hh (hwanted ▸ (hf.mem_wanted tag h).mpr ⟨w, hw', hmem⟩)
    · rw [if_neg ht, ← wanted, hf.mem_wanted]
      split
      · constructor
        · rintro ⟨w₀, hw₀, hmem⟩
          have hmem' : t ∈ (w₀.satisfyTag tag).missingTags :=
            (List.mem_erase_of_ne (Ne.symm ht)).mpr hmem
          have hready : (w₀.satisfyTag tag).isReady = false := by
            simpa [isReady] using List.ne_nil_of_mem hmem'
          exact ⟨w₀.satisfyTag tag, stillWaiting_eq_some_iff.mpr ⟨w₀, hw₀, rfl, hready⟩, hmem'⟩
        · rintro ⟨w, hw', hmem⟩
          obtain ⟨w₀, hw₀, rfl, -⟩ := stillWaiting_eq_some_iff.mp hw'
          exact ⟨w₀, hw₀, (List.mem_erase_of_ne (Ne.symm ht)).mp hmem⟩
      · rfl

open WaitingTransaction in
theorem mem_hashes_filterMap_becomesReady {waiting : OrdMap Hash (WaitingTransaction Hash Tag)}
    (hkey : ∀ h w, waiting.get? h = some w → w.transaction.hash = h) (tag : Tag) (hashes : List Hash)
    (h : Hash) :
    h ∈ (hashes.filterMap fun h => becomesReady tag (waiting.get? h)).map (·.transaction.hash) ↔
      h ∈ hashes ∧ (becomesReady tag (waiting.get? h)).isSome := by
  simp only [List.mem_map, List.mem_filterMap]
  constructor
  · rintro ⟨w, ⟨h', hh', hw⟩, rfl⟩
    obtain ⟨w₀, hw₀, rfl, -⟩ := becomesReady_eq_some_iff.mp hw
    rw [satisfyTag_transaction, hkey h' w₀ hw₀, hw₀]
    exact ⟨hh', by rw [← hw₀, hw]; rfl⟩
  · rintro ⟨hh, hsome⟩
    obtain ⟨w, hw⟩ := Option.isSome_iff_exists.mp hsome
    obtain ⟨w₀, hw₀, rfl, -⟩ := becomesReady_eq_some_iff.mp hw
    exact ⟨w₀.satisfyTag tag, ⟨h, hh, hw⟩, hkey h w₀ hw₀⟩

open WaitingTransaction in
/-- **`satisfy_tags`.**  On a consistent queue it never fails its `expect`, it
leaves the queue consistent, everything it returns is ready, and a transaction
leaves `waiting` exactly when it is returned. -/
theorem satisfyTagsLoop_ok (tags : List Tag) :
    ∀ (f : FutureTransactions Hash Tag) (becameReady : List (WaitingTransaction Hash Tag)),
      FutureOk f →
      ∃ became f', satisfyTagsLoop tags f becameReady = some (becameReady ++ became, f') ∧ FutureOk f' ∧
        (∀ w ∈ became, w.isReady = true) ∧
        ∀ h, (f.waiting.get? h).isSome ↔
          (f'.waiting.get? h).isSome ∨ h ∈ became.map (·.transaction.hash) := by
  induction tags with
  | nil => exact fun f becameReady hf => ⟨[], f, by simp [satisfyTagsLoop], hf, by simp, by simp⟩
  | cons tag tags ih =>
    intro f becameReady hf
    cases hw : f.wantedTags.get? tag with
    | none =>
      obtain ⟨became, f', hrun, hf', hready, hkeys⟩ := ih f becameReady hf
      exact ⟨became, f', by rw [satisfyTagsLoop, hw, hrun], hf', hready, hkeys⟩
    | some hashes =>
      obtain ⟨waiting₁, hrun₁, hf₁, hget₁⟩ := satisfyTag_step hf hw becameReady
      obtain ⟨became, f', hrun, hf', hready, hkeys⟩ := ih _
        (becameReady ++ hashes.filterMap fun h => becomesReady tag (f.waiting.get? h)) hf₁
      refine ⟨(hashes.filterMap fun h => becomesReady tag (f.waiting.get? h)) ++ became, f', ?_, hf', ?_, ?_⟩
      · rw [satisfyTagsLoop, hw]
        simp only [hrun₁, hrun, List.append_assoc]
      · intro w hw'
        rcases List.mem_append.mp hw' with hw' | hw'
        · obtain ⟨h, -, hbr⟩ := List.mem_filterMap.mp hw'
          obtain ⟨w₀, -, rfl, hw_ready⟩ := becomesReady_eq_some_iff.mp hbr
          exact hw_ready
        · exact hready w hw'
      · intro h
        have hmid := hkeys h
        simp only [hget₁] at hmid
        rw [List.map_append, List.mem_append, mem_hashes_filterMap_becomesReady hf.hash_eq]
        split at hmid
        · rename_i hh
          have hwait : (f.waiting.get? h).isSome := hsome_of_wanted hf hw hh
          rw [isSome_stillWaiting_iff] at hmid
          cases hb : (becomesReady tag (f.waiting.get? h)).isSome <;> simp_all
        · rename_i hh
          simp [hh, hmid]

/-- `satisfy_tags` on a consistent queue. -/
theorem satisfyTags_ok (hf : FutureOk f) (tags : List Tag) :
    ∃ becameReady f', f.satisfyTags tags = some (becameReady, f') ∧ FutureOk f' ∧
      (∀ w ∈ becameReady, w.isReady = true) ∧
      ∀ h, (f.waiting.get? h).isSome ↔
        (f'.waiting.get? h).isSome ∨ h ∈ becameReady.map (·.transaction.hash) := by
  obtain ⟨became, f', hrun, hf', hready, hkeys⟩ := satisfyTagsLoop_ok tags f [] hf
  exact ⟨became, f', by rw [satisfyTags, hrun, List.nil_append], hf', hready, hkeys⟩

/-! ### `remove` and `clear` -/

theorem unwantHash_spec (hash : Hash) (wantedTags : OrdMap Tag (List Hash)) (tag : Tag)
    (hnd : ∀ t, ((wantedTags.get? t).getD []).Nodup) :
    (∀ t, (((unwantHash hash wantedTags tag).get? t).getD []).Nodup) ∧
      ∀ t h, h ∈ ((unwantHash hash wantedTags tag).get? t).getD [] ↔
        h ∈ (wantedTags.get? t).getD [] ∧ ¬(h = hash ∧ t = tag) := by
  cases hw : wantedTags.get? tag with
  | none =>
    simp only [unwantHash, hw]
    refine ⟨hnd, fun t h => ?_⟩
    by_cases ht : t = tag
    · subst ht; simp [hw]
    · simp [ht]
  | some wanted =>
    have hwnd : wanted.Nodup := by simpa [hw] using hnd tag
    by_cases hempty : (wanted.erase hash).isEmpty
    · simp only [unwantHash, hw, hempty, if_true]
      refine ⟨fun t => ?_, fun t h => ?_⟩
      · rw [OrdMap.get?_erase]; split
        · exact List.nodup_nil
        · exact hnd t
      · rw [OrdMap.get?_erase]
        by_cases ht : tag = t
        · subst ht
          have hnil : wanted.erase hash = [] := by simpa using hempty
          have hmem : h ∈ wanted → h = hash := fun hh => by
            by_contra hne
            have : h ∈ wanted.erase hash := (List.mem_erase_of_ne hne).mpr hh
            rw [hnil] at this
            cases this
          simp only [if_true, Option.getD_none, List.not_mem_nil, hw, Option.getD_some, false_iff]
          tauto
        · simp [ht, Ne.symm ht]
    · simp only [unwantHash, hw, hempty, Bool.false_eq_true, if_false]
      refine ⟨fun t => ?_, fun t h => ?_⟩
      · rw [OrdMap.get?_insert]; split
        · exact hwnd.erase hash
        · exact hnd t
      · rw [OrdMap.get?_insert]
        by_cases ht : tag = t
        · subst ht
          simp only [if_true, Option.getD_some, hw, hwnd.mem_erase_iff]
          tauto
        · simp [ht, Ne.symm ht]

theorem unwantHash_foldl_spec (hash : Hash) (tags : List Tag) :
    ∀ (wantedTags : OrdMap Tag (List Hash)), (∀ t, ((wantedTags.get? t).getD []).Nodup) →
      (∀ t, (((tags.foldl (unwantHash hash) wantedTags).get? t).getD []).Nodup) ∧
        ∀ t h, h ∈ ((tags.foldl (unwantHash hash) wantedTags).get? t).getD [] ↔
          h ∈ (wantedTags.get? t).getD [] ∧ ¬(h = hash ∧ t ∈ tags) := by
  induction tags with
  | nil => exact fun wantedTags hnd => ⟨hnd, by simp⟩
  | cons tag tags ih =>
    intro wantedTags hnd
    obtain ⟨hnd₁, hmem₁⟩ := unwantHash_spec hash wantedTags tag hnd
    obtain ⟨hnd₂, hmem₂⟩ := ih _ hnd₁
    refine ⟨hnd₂, fun t h => ?_⟩
    rw [List.foldl_cons, hmem₂, hmem₁, List.mem_cons]
    tauto

/-- **`remove`.**  The hashes leave `waiting`, the queue stays consistent, and
the transactions returned are those that were waiting under the hashes. -/
theorem removeLoop_ok (hashes : List Hash) :
    ∀ (f : FutureTransactions Hash Tag) (removed : List (Transaction Hash Tag)), FutureOk f →
      FutureOk (removeLoop hashes f removed).2 ∧
        (∀ h, (removeLoop hashes f removed).2.waiting.get? h = if h ∈ hashes then none else f.waiting.get? h) ∧
        ∀ tx, tx ∈ (removeLoop hashes f removed).1 ↔
          tx ∈ removed ∨ ∃ h ∈ hashes, ∃ w, f.waiting.get? h = some w ∧ w.transaction = tx := by
  induction hashes with
  | nil => exact fun f removed hf => ⟨hf, by simp [removeLoop], by simp [removeLoop]⟩
  | cons hash hashes ih =>
    intro f removed hf
    cases hw : f.waiting.get? hash with
    | none =>
      obtain ⟨hf', hget, hremoved⟩ := ih f removed hf
      refine ⟨by rw [removeLoop, hw]; exact hf', fun h => ?_, fun tx => ?_⟩
      · rw [removeLoop, hw, hget]
        by_cases hh : h = hash
        · subst hh; simp [hw]
        · simp [hh]
      · rw [removeLoop, hw, hremoved]
        constructor
        · rintro (htx | ⟨h, hh, w, hw', rfl⟩)
          · exact .inl htx
          · exact .inr ⟨h, List.mem_cons_of_mem _ hh, w, hw', rfl⟩
        · rintro (htx | ⟨h, hh, w, hw', rfl⟩)
          · exact .inl htx
          · rcases List.mem_cons.mp hh with rfl | hh
            · rw [hw] at hw'; cases hw'
            · exact .inr ⟨h, hh, w, hw', rfl⟩
    | some waitingTx =>
      -- the queue once `hash` is out of both maps
      have hf₁ : FutureOk (⟨waitingTx.missingTags.foldl (unwantHash hash) f.wantedTags,
          f.waiting.erase hash⟩ : FutureTransactions Hash Tag) := by
        obtain ⟨hnd, hmem⟩ := unwantHash_foldl_spec hash waitingTx.missingTags f.wantedTags hf.wanted_nodup
        refine ⟨fun h w hw' => ?_, fun h w hw' => ?_, hnd, fun t h => ?_⟩
        · rw [OrdMap.get?_erase] at hw'
          split at hw'
          · cases hw'
          · exact hf.hash_eq h w hw'
        · rw [OrdMap.get?_erase] at hw'
          split at hw'
          · cases hw'
          · exact hf.not_ready h w hw'
        · simp only [wanted, hmem, OrdMap.get?_erase]
          rw [← wanted, hf.mem_wanted]
          by_cases hh : hash = h
          · subst hh
            simp only [hw, if_true, Option.some.injEq, exists_eq_left', true_and, reduceCtorEq,
              false_and, exists_false, iff_false]
            tauto
          · simp [hh, Ne.symm hh]
      obtain ⟨hf', hget, hremoved⟩ := ih _ (removed ++ [waitingTx.transaction]) hf₁
      refine ⟨by rw [removeLoop, hw]; exact hf', fun h => ?_, fun tx => ?_⟩
      · rw [removeLoop, hw, hget, OrdMap.get?_erase]
        by_cases hh : h = hash
        · subst hh; simp
        · simp [hh, Ne.symm hh]
      · rw [removeLoop, hw, hremoved, List.mem_append, List.mem_singleton]
        constructor
        · rintro ((htx | rfl) | ⟨h, hh, w, hw', rfl⟩)
          · exact .inl htx
          · exact .inr ⟨hash, List.mem_cons_self, waitingTx, hw, rfl⟩
          · rw [OrdMap.get?_erase] at hw'
            split at hw'
            · cases hw'
            · exact .inr ⟨h, List.mem_cons_of_mem _ hh, w, hw', rfl⟩
        · rintro (htx | ⟨h, hh, w, hw', rfl⟩)
          · exact .inl (.inl htx)
          · by_cases hne : hash = h
            · subst hne
              rw [hw] at hw'
              cases hw'
              exact .inl (.inr rfl)
            · refine .inr ⟨h, (List.mem_cons.mp hh).resolve_left (Ne.symm hne), w, ?_, rfl⟩
              rw [OrdMap.get?_erase, if_neg hne]
              exact hw'

theorem remove_ok (hf : FutureOk f) (hashes : List Hash) :
    FutureOk (f.remove hashes).2 :=
  (removeLoop_ok hashes f [] hf).1

theorem futureOk_clear (f : FutureTransactions Hash Tag) : FutureOk f.clear.2 :=
  futureOk_default

end FutureTransactions

end TxPool
