import Mathlib
import CherryNode.Lib.Outcome
import CherryNode.StateDb.NonCanonical

/-!
# Reference counts and links of the overlay

`values` counts, for every key, the block overlays that inserted it and still
hold it, in the levels or in `pinned_insertions` (`Counts`); every block of the
levels has an entry in `parents`, and a level's journal indices are distinct
bits of its `used_indicies` (`IndicesWF`).  So `discard_values` never meets a
vacant key or zero counter and no "parent entry" `expect` fires.  The facts are
proved over `Core blocks d`, for the blocks held in the levels or taken out
during a call and not yet retired: each way a block leaves (`Core.pinBlock`,
`Core.discardBlock`, `Core.release`, `Core.keep`) or joins (`Core.addBlock`)
keeps it.
-/

namespace StateDb

open Outcome

/-! ## Counters -/

section Counters

variable {K V : Type} [LinearOrder K]
variable {held : Multiset K} {values : OrdMap K (Nat × V)}

/-- The counter `values` holds for `k`: zero when `k` is vacant. -/
def counter (values : OrdMap K (Nat × V)) (k : K) : Nat := ((values.get? k).map (·.1)).getD 0

@[simp] theorem counter_insert (values : OrdMap K (Nat × V)) (k k' : K) (e : Nat × V) :
    counter (values.insert k e) k' = if k = k' then e.1 else counter values k' := by
  by_cases h : k = k' <;> simp [counter, h]

@[simp] theorem counter_erase (values : OrdMap K (Nat × V)) (k k' : K) :
    counter (values.erase k) k' = if k = k' then 0 else counter values k' := by
  by_cases h : k = k' <;> simp [counter, h]

/-- `values` counts the keys of `held`, each as often as `held` has it, and
holds no zero counter. -/
structure Counts (values : OrdMap K (Nat × V)) (held : Multiset K) : Prop where
  counter_eq : ∀ k, counter values k = held.count k
  pos : ∀ k e, values.get? k = some e → 0 < e.1

theorem Counts.get?_of_mem (hc : Counts values held)
    {k : K} (hk : k ∈ held) : ∃ c v, values.get? k = some (c + 1, v) := by
  have hpos : 0 < counter values k := by
    rw [hc.counter_eq]
    exact Multiset.count_pos.mpr hk
  cases hget : values.get? k with
  | none => simp [counter, hget] at hpos
  | some e =>
    obtain ⟨c, v⟩ := e
    obtain ⟨c, rfl⟩ : ∃ c', c = c' + 1 := ⟨c - 1, by simp [counter, hget] at hpos; omega⟩
    exact ⟨c, v, rfl⟩

/-- One more holder of `k`: the step of `insert_values`. -/
theorem Counts.bump (hc : Counts values held) (k : K) (v : V) :
    Counts (values.insert k (((values.get? k).getD (0, v)).1 + 1, ((values.get? k).getD (0, v)).2))
      (k ::ₘ held) := by
  constructor
  · intro k'
    rw [counter_insert, Multiset.count_cons, ← hc.counter_eq]
    by_cases h : k = k'
    · subst h
      cases hget : values.get? k <;> simp [counter, hget]
    · simp [h, Ne.symm h]
  · intro k' e he
    rw [OrdMap.get?_insert] at he
    split_ifs at he with h
    · cases he
      simp
    · exact hc.pos k' e he

/-- One holder of `k` less: the step of `discard_values`. -/
theorem Counts.release {k : K} (hc : Counts values (k ::ₘ held))
    {c : Nat} {v : V} (hget : values.get? k = some (c + 1, v)) :
    Counts (if c = 0 then values.erase k else values.insert k (c, v)) held := by
  have hk : counter values k = c + 1 := by simp [counter, hget]
  constructor
  · intro k'
    have hk' := hc.counter_eq k'
    rw [Multiset.count_cons] at hk'
    by_cases h : k = k'
    · subst h
      split_ifs with hc0 <;> simp [hk] at hk' ⊢ <;> omega
    · split_ifs <;> simp [h, Ne.symm h] at hk' ⊢ <;> exact hk'
  · intro k' e he
    split_ifs at he with hc0
    · rw [OrdMap.get?_erase] at he
      split_ifs at he
      exact hc.pos k' e he
    · rw [OrdMap.get?_insert] at he
      split_ifs at he
      · cases he
        simp only
        omega
      · exact hc.pos k' e he

theorem Counts.insertValues [DecidableEq V] :
    ∀ (inserted : List (K × V)) {values : OrdMap K (Nat × V)} {held : Multiset K}, Counts values held →
      Ends (fun values' => Counts values' ((inserted.map Prod.fst : Multiset K) + held)) (· = Panic.valueMismatch)
        (StateDb.insertValues values inserted)
  | [], _, _, hc => by simpa [StateDb.insertValues] using hc
  | (k, v) :: inserted, values, held, hc => by
    simp only [StateDb.insertValues]
    split_ifs with hsame
    · have h := Counts.insertValues inserted (hc.bump k v)
      refine h.imp (fun values' hv => ?_) (fun _ he => he)
      have hheld : (((k, v) :: inserted).map Prod.fst : Multiset K) + held =
          (inserted.map Prod.fst : Multiset K) + k ::ₘ held := by
        rw [List.map_cons, ← Multiset.cons_coe, Multiset.cons_add, Multiset.add_cons]
      rwa [hheld]
    · rfl

theorem Counts.discardValues :
    ∀ (inserted : List K) {values : OrdMap K (Nat × V)} {held : Multiset K}, Counts values ((inserted : Multiset K) + held) →
      ∃ values', StateDb.discardValues values inserted = .ok values' ∧ Counts values' held
  | [], values, _, hc => ⟨values, rfl, by simpa using hc⟩
  | k :: inserted, values, held, hc => by
    have hk : k ∈ ((k :: inserted : Multiset K) + held) := by simp
    obtain ⟨c, v, hget⟩ := hc.get?_of_mem hk
    have hc' : Counts values (k ::ₘ ((inserted : Multiset K) + held)) := by
      rwa [← Multiset.cons_coe, Multiset.cons_add] at hc
    obtain ⟨values', hdiscard, hv⟩ := Counts.discardValues inserted (hc'.release hget)
    refine ⟨values', ?_, hv⟩
    simp only [StateDb.discardValues, hget]
    exact hdiscard

end Counters

/-! ## The blocks and what they hold -/

section Blocks

variable {H K : Type}

/-- The keys `blocks` inserted, each as often as they inserted it. -/
def insertedBy (blocks : List (BlockOverlay H K)) : Multiset K :=
  (blocks.map fun b => (b.inserted : Multiset K)).sum

@[simp] theorem insertedBy_cons (b : BlockOverlay H K) (blocks : List (BlockOverlay H K)) :
    insertedBy (b :: blocks) = b.inserted + insertedBy blocks := by
  simp [insertedBy]

@[simp] theorem insertedBy_append (blocks blocks' : List (BlockOverlay H K)) :
    insertedBy (blocks ++ blocks') = insertedBy blocks + insertedBy blocks' := by
  simp [insertedBy]

theorem insertedBy_perm {blocks blocks' : List (BlockOverlay H K)} (h : blocks.Perm blocks') :
    insertedBy blocks = insertedBy blocks' :=
  (h.map _).sum_eq

variable [LinearOrder H]

/-- The keys the blocks kept in `pinned_insertions` inserted. -/
def pinnedHeld (pinnedInsertions : OrdMap H (List K × Nat)) : Multiset K :=
  (pinnedInsertions.toList.map fun e => (e.2.1 : Multiset K)).sum

theorem pinnedHeld_insert (m : OrdMap H (List K × Nat)) (hash : H) (e : List K × Nat) :
    pinnedHeld (m.insert hash e) = e.1 + pinnedHeld (m.erase hash) := by
  rw [pinnedHeld, ((OrdMap.toList_insert_perm m hash e).map _).sum_eq]
  simp [pinnedHeld]

variable {hash : H} {m : OrdMap H (List K × Nat)}

theorem pinnedHeld_of_get? {e : List K × Nat}
    (h : m.get? hash = some e) : pinnedHeld m = e.1 + pinnedHeld (m.erase hash) := by
  rw [pinnedHeld, ((OrdMap.toList_perm_of_get? h).map _).sum_eq]
  simp [pinnedHeld]

theorem pinnedHeld_erase_of_contains (h : m.contains hash = false) :
    pinnedHeld (m.erase hash) = pinnedHeld m := by
  rw [pinnedHeld, OrdMap.toList_erase_of_get?_none (by simpa [OrdMap.contains] using h), pinnedHeld]

end Blocks

/-! ## Counts and links -/

section Core

variable {H K V : Type} [LinearOrder H] [LinearOrder K]

/-- The counts and links of the `Discard` parts `d`, with `blocks` the blocks
held in the levels or taken out and not yet retired: the counters count what
they and the pinned insertions hold, and each has its parent entry. -/
structure Core (blocks : List (BlockOverlay H K)) (d : Discard H K V) : Prop where
  counts : Counts d.values (insertedBy blocks + pinnedHeld d.pinnedInsertions)
  parents : ∀ b ∈ blocks, d.parents.contains b.hash = true
  nodup : (blocks.map (·.hash)).Nodup
  not_pinned : ∀ b ∈ blocks, d.pinnedInsertions.contains b.hash = false
  pinned_parents : ∀ hash, d.pinnedInsertions.contains hash = true → d.parents.contains hash = true
  pinned_pos : ∀ hash e, d.pinnedInsertions.get? hash = some e → 0 < e.2

variable {blocks blocks' : List (BlockOverlay H K)} {b : BlockOverlay H K} {d : Discard H K V}

theorem Core.perm (hc : Core blocks d) (hp : blocks.Perm blocks') : Core blocks' d where
  counts := by
    rw [← insertedBy_perm hp]
    exact hc.counts
  parents b hb := hc.parents b (hp.mem_iff.mpr hb)
  nodup := (hp.map _).nodup_iff.mp hc.nodup
  not_pinned b hb := hc.not_pinned b (hp.mem_iff.mpr hb)
  pinned_parents := hc.pinned_parents
  pinned_pos := hc.pinned_pos

theorem Core.hash_ne (hc : Core (b :: blocks) d) {b' : BlockOverlay H K} (hb' : b' ∈ blocks) :
    b'.hash ≠ b.hash := by
  intro h
  have hnot := (List.nodup_cons.mp (List.map_cons ▸ hc.nodup)).1
  exact hnot (List.mem_map.mpr ⟨b', hb', h⟩)

variable {hash : H} {inserted : List K}

theorem Core.ne_of_pinned (hc : Core blocks d) (h : d.pinnedInsertions.contains hash = true)
    (hb : b ∈ blocks) : b.hash ≠ hash := by
  rintro rfl
  rw [hc.not_pinned b hb] at h
  cases h

/-- **A block kept for the pinned blocks.**  Its keys move to `pinned_insertions`. -/
theorem Core.pinBlock (hc : Core (b :: blocks) d) {n : Nat} (hn : 0 < n) :
    Core blocks { d with pinnedInsertions := d.pinnedInsertions.insert b.hash (b.inserted, n) } where
  counts := by
    have hfree := hc.not_pinned b List.mem_cons_self
    have hheld : insertedBy blocks + pinnedHeld (d.pinnedInsertions.insert b.hash (b.inserted, n)) =
        insertedBy (b :: blocks) + pinnedHeld d.pinnedInsertions := by
      rw [pinnedHeld_insert, pinnedHeld_erase_of_contains hfree, insertedBy_cons]
      abel
    rw [hheld]
    exact hc.counts
  parents b' hb' := hc.parents b' (List.mem_cons_of_mem b hb')
  nodup := (List.nodup_cons.mp (List.map_cons ▸ hc.nodup)).2
  not_pinned b' hb' := by
    have hne := hc.hash_ne hb'
    simp [Ne.symm hne, hc.not_pinned b' (List.mem_cons_of_mem b hb')]
  pinned_parents hash h := by
    rw [OrdMap.contains_insert] at h
    by_cases hb : b.hash = hash
    · rw [← hb]
      exact hc.parents b List.mem_cons_self
    · simp only [hb, decide_false, Bool.false_or] at h
      exact hc.pinned_parents hash h
  pinned_pos hash e he := by
    rw [OrdMap.get?_insert] at he
    split_ifs at he
    · cases he
      exact hn
    · exact hc.pinned_pos hash e he

/-- **A block discarded.**  `discard_values` releases its keys, and its parent
entry goes. -/
theorem Core.discardBlock (hc : Core (b :: blocks) d) :
    ∃ values, discardValues d.values b.inserted = .ok values ∧
      Core blocks ⟨values, d.parents.erase b.hash, d.pinnedInsertions⟩ := by
  have hcounts : Counts d.values ((b.inserted : Multiset K) + (insertedBy blocks + pinnedHeld d.pinnedInsertions)) := by
    rw [← add_assoc, ← insertedBy_cons]
    exact hc.counts
  obtain ⟨values, hdiscard, hv⟩ := Counts.discardValues b.inserted hcounts
  refine ⟨values, hdiscard, ⟨hv, fun b' hb' => ?_, (List.nodup_cons.mp (List.map_cons ▸ hc.nodup)).2,
    fun b' hb' => hc.not_pinned b' (List.mem_cons_of_mem b hb'), fun hash h => ?_, hc.pinned_pos⟩⟩
  · have hne := hc.hash_ne hb'
    simp [Ne.symm hne, hc.parents b' (List.mem_cons_of_mem b hb')]
  · have hne := hc.ne_of_pinned h List.mem_cons_self
    simp [hne, hc.pinned_parents hash h]

/-- **A pinned insertion released** by `unpin`: its keys are discarded, its
entry and its parent entry go. -/
theorem Core.release (hc : Core blocks d) {n : Nat}
    (hget : d.pinnedInsertions.get? hash = some (inserted, n)) :
    ∃ values, discardValues d.values inserted = .ok values ∧
      Core blocks ⟨values, d.parents.erase hash, d.pinnedInsertions.erase hash⟩ := by
  have hpinned : d.pinnedInsertions.contains hash = true := by simp [OrdMap.contains, hget]
  have hcounts : Counts d.values ((inserted : Multiset K) + (insertedBy blocks + pinnedHeld (d.pinnedInsertions.erase hash))) := by
    have hheld := pinnedHeld_of_get? hget
    rw [add_left_comm, ← hheld]
    exact hc.counts
  obtain ⟨values, hdiscard, hv⟩ := Counts.discardValues inserted hcounts
  refine ⟨values, hdiscard, ⟨hv, fun b' hb' => ?_, hc.nodup, fun b' hb' => ?_, fun hash' h => ?_,
    fun hash' e he => ?_⟩⟩
  · simp [Ne.symm (hc.ne_of_pinned hpinned hb'), hc.parents b' hb']
  · simp [hc.not_pinned b' hb']
  · simp only [OrdMap.contains_erase, Bool.and_eq_true, bne_iff_ne] at h ⊢
    exact ⟨h.1, hc.pinned_parents hash' h.2⟩
  · rw [OrdMap.get?_erase] at he
    split_ifs at he
    exact hc.pinned_pos hash' e he

/-- **A pinned insertion kept** by `unpin`, with a smaller positive count. -/
theorem Core.keep (hc : Core blocks d) {n m : Nat}
    (hget : d.pinnedInsertions.get? hash = some (inserted, n)) (hm : 0 < m) :
    Core blocks { d with pinnedInsertions := d.pinnedInsertions.insert hash (inserted, m) } where
  counts := by
    have hheld : pinnedHeld (d.pinnedInsertions.insert hash (inserted, m)) = pinnedHeld d.pinnedInsertions := by
      rw [pinnedHeld_insert, pinnedHeld_of_get? hget]
    rw [hheld]
    exact hc.counts
  parents := hc.parents
  nodup := hc.nodup
  not_pinned b' hb' := by
    have hpinned : d.pinnedInsertions.contains hash = true := by simp [OrdMap.contains, hget]
    simp [Ne.symm (hc.ne_of_pinned hpinned hb'), hc.not_pinned b' hb']
  pinned_parents hash' h := by
    rw [OrdMap.contains_insert] at h
    by_cases hh : hash = hash'
    · subst hh
      exact hc.pinned_parents hash (by simp [OrdMap.contains, hget])
    · simp only [hh, decide_false, Bool.false_or] at h
      exact hc.pinned_parents hash' h
  pinned_pos hash' e he := by
    rw [OrdMap.get?_insert] at he
    split_ifs at he
    · cases he
      exact hm
    · exact hc.pinned_pos hash' e he

/-- **A block inserted**, its hash new to `parents`: `insert_values` adds its
keys, or stops at its `debug_assert!`. -/
theorem Core.addBlock [DecidableEq V] (hc : Core blocks d) (hfresh : d.parents.contains b.hash = false)
    {inserted : List (K × V)} (hb : b.inserted = inserted.map Prod.fst) (parentHash : H) :
    Ends (fun values => Core (b :: blocks) ⟨values, d.parents.insert b.hash parentHash, d.pinnedInsertions⟩)
      (· = Panic.valueMismatch) (insertValues d.values inserted) := by
  have hnew : ∀ b' ∈ blocks, b'.hash ≠ b.hash := fun b' hb' h => by
    rw [← h, hc.parents b' hb'] at hfresh
    cases hfresh
  refine (Counts.insertValues inserted hc.counts).imp (fun values hv => ⟨?_, fun b' hb' => ?_, ?_,
    fun b' hb' => ?_, fun hash h => ?_, hc.pinned_pos⟩) (fun _ he => he)
  · rw [insertedBy_cons, hb, add_assoc]
    exact hv
  · rcases List.mem_cons.mp hb' with rfl | hb'
    · simp
    · simp [hc.parents b' hb']
  · rw [List.map_cons, List.nodup_cons]
    exact ⟨fun h => by obtain ⟨b', hb', he⟩ := List.mem_map.mp h; exact hnew b' hb' he, hc.nodup⟩
  · rcases List.mem_cons.mp hb' with rfl | hb'
    · cases hp : d.pinnedInsertions.contains b'.hash
      · rfl
      · rw [hc.pinned_parents _ hp] at hfresh
        cases hfresh
    · exact hc.not_pinned b' hb'
  · simp [hc.pinned_parents hash h]

theorem Core.retire (hc : Core (b :: blocks) d) (n : Nat) :
    ∃ d', retire b n d = .ok d' ∧ Core blocks d' := by
  unfold StateDb.retire
  split_ifs with hn
  · exact ⟨_, rfl, hc.pinBlock (Nat.pos_of_ne_zero hn)⟩
  · obtain ⟨values, hdiscard, hv⟩ := hc.discardBlock
    refine ⟨_, ?_, hv⟩
    simp only [hdiscard, bind, Except.bind, pure, Except.pure]

theorem Core.unpinWalk (parent : Option H) (d : Discard H K V) (hc : Core blocks d) :
    ∃ d', NonCanonicalOverlay.unpinWalk parent d = .ok d' ∧ Core blocks d' := by
  fun_induction NonCanonicalOverlay.unpinWalk parent d with
  | case1 d => exact ⟨d, rfl, hc⟩
  | case2 d hash hentry => exact ⟨d, rfl, hc⟩
  | case3 d hash inserted hentry => exact absurd (hc.pinned_pos hash _ hentry) (lt_irrefl 0)
  | case4 d hash inserted hentry ih =>
    -- the last pin below goes: the insertion is released
    obtain ⟨values, hdiscard, hv⟩ := hc.release hentry
    obtain ⟨d', hwalk, hd'⟩ := ih values hv
    refine ⟨d', ?_, hd'⟩
    rw [hdiscard]
    exact hwalk
  | case5 d hash inserted count hentry hcount ih =>
    exact ih (hc.keep hentry (Nat.pos_of_ne_zero hcount))

end Core

/-! ## Levels -/

section Levels

variable {H K V : Type}

/-- The blocks of the levels. -/
def blocksOf (levels : List (OverlayLevel H K)) : List (BlockOverlay H K) := levels.flatMap (·.blocks)

@[simp] theorem blocksOf_nil : blocksOf ([] : List (OverlayLevel H K)) = [] := rfl

@[simp] theorem blocksOf_cons (level : OverlayLevel H K) (levels : List (OverlayLevel H K)) :
    blocksOf (level :: levels) = level.blocks ++ blocksOf levels := rfl

@[simp] theorem blocksOf_append (levels levels' : List (OverlayLevel H K)) :
    blocksOf (levels ++ levels') = blocksOf levels ++ blocksOf levels' := by
  simp [blocksOf]

theorem blocksOf_set_perm :
    ∀ (levels : List (OverlayLevel H K)) (i : Nat) {level : OverlayLevel H K} (level' : OverlayLevel H K),
      levels[i]? = some level → (blocksOf (levels.set i level') ++ level.blocks).Perm (blocksOf levels ++ level'.blocks)
  | [], _, _, _, h => by simp at h
  | l :: levels, 0, level, level', h => by
    simp only [List.getElem?_cons_zero, Option.some.injEq] at h
    subst h
    simp only [List.set_cons_zero, blocksOf_cons, List.append_assoc]
    refine List.perm_append_comm.trans ?_
    rw [← List.append_assoc]
    exact List.perm_append_comm.append_right _
  | l :: levels, i + 1, level, level', h => by
    simp only [List.getElem?_cons_succ] at h
    simp only [List.set_cons_succ, blocksOf_cons, List.append_assoc]
    exact (blocksOf_set_perm levels i level' h).append_left l.blocks

theorem blocksOf_eq_dropLast (levels : List (OverlayLevel H K)) :
    blocksOf levels = blocksOf levels.dropLast ++ (levels.getLast?.map (·.blocks)).getD [] := by
  cases hlast : levels.getLast? with
  | none => simp [List.getLast?_eq_none_iff.mp hlast]
  | some level =>
    conv_lhs => rw [← List.dropLast_append_getLast? level hlast]
    simp

theorem blocksOf_popEmptyBack (levels : List (OverlayLevel H K)) :
    blocksOf (NonCanonicalOverlay.popEmptyBack levels) = blocksOf levels := by
  unfold NonCanonicalOverlay.popEmptyBack
  split_ifs with hempty
  · rw [blocksOf_eq_dropLast levels]
    cases hlast : levels.getLast? with
    | none => simp
    | some level =>
      rw [hlast] at hempty
      simp_all
  · rfl

variable {overlay : BlockOverlay H K} {level level' : OverlayLevel H K} {levels : List (OverlayLevel H K)} {index : Nat}

theorem mem_popEmptyBack
    (h : level ∈ NonCanonicalOverlay.popEmptyBack levels) : level ∈ levels := by
  unfold NonCanonicalOverlay.popEmptyBack at h
  split_ifs at h
  · exact (List.dropLast_sublist _).subset h
  · exact h

/-- (c) for one level: the journal indices of its blocks are distinct, below
64, and exactly the bits set in `used_indicies`. -/
structure IndicesWF (level : OverlayLevel H K) : Prop where
  nodup : (level.blocks.map (·.journalIndex)).Nodup
  lt : ∀ b ∈ level.blocks, b.journalIndex < 64
  used : ∀ i < 64, level.usedIndicies.toBitVec.getLsbD i = true ↔ i ∈ level.blocks.map (·.journalIndex)

theorem IndicesWF.new : IndicesWF (OverlayLevel.new : OverlayLevel H K) where
  nodup := List.nodup_nil
  lt _ h := by cases h
  used i _ := by simp [OverlayLevel.new]

theorem IndicesWF.availableIndex_lt (hw : IndicesWF level)
    (hroom : level.blocks.length < maxBlocksPerLevel) : level.availableIndex < maxBlocksPerLevel := by
  have hle := Bitmask.trailingOnes_le_length level.usedIndicies fun i hi hset => (hw.used i hi).mp hset
  simp only [List.length_map] at hle
  exact Nat.lt_of_le_of_lt hle hroom

theorem IndicesWF.push (hw : IndicesWF level) (hroom : level.blocks.length < maxBlocksPerLevel)
    (hindex : overlay.journalIndex = level.availableIndex) :
    IndicesWF (level.push overlay) := by
  have hlt : overlay.journalIndex < 64 := by
    have := hw.availableIndex_lt hroom
    simp only [maxBlocksPerLevel] at this
    omega
  -- the index `trailing_ones` finds is not in use
  have hfree : overlay.journalIndex ∉ level.blocks.map (·.journalIndex) := fun hmem => by
    have hset := (hw.used _ hlt).mpr hmem
    rw [hindex, OverlayLevel.availableIndex, Bitmask.trailingOnes_not_mem _ (by rw [← OverlayLevel.availableIndex, ← hindex]; exact hlt)] at hset
    cases hset
  refine ⟨?_, fun b hb => ?_, fun i hi => ?_⟩
  · simp only [OverlayLevel.push, List.map_append, List.map_cons, List.map_nil]
    exact (List.perm_append_singleton _ _).nodup_iff.mpr (List.nodup_cons.mpr ⟨hfree, hw.nodup⟩)
  · simp only [OverlayLevel.push, List.mem_append, List.mem_singleton] at hb
    rcases hb with hb | rfl
    · exact hw.lt b hb
    · exact hlt
  · simp only [OverlayLevel.push, Bitmask.getLsbD_or_bit _ hi hlt, Bool.or_eq_true, hw.used i hi,
      decide_eq_true_eq, List.map_append, List.mem_append, List.map_cons, List.map_nil, List.mem_singleton]

theorem OverlayLevel.remove_perm
    (h : level.remove index = some (overlay, level')) : level.blocks.Perm (overlay :: level'.blocks) := by
  simp only [OverlayLevel.remove, Option.map_eq_some_iff, Prod.mk.injEq] at h
  obtain ⟨o, ho, rfl, rfl⟩ := h
  obtain ⟨hi, rfl⟩ := List.getElem?_eq_some_iff.mp ho
  exact (List.getElem_cons_eraseIdx_perm hi).symm

theorem blocksOf_remove_perm {i : Nat}
    (hlevel : levels[i]? = some level)
    (h : level.remove index = some (overlay, level')) :
    (blocksOf levels).Perm (overlay :: blocksOf (levels.set i level')) := by
  have hset := blocksOf_set_perm levels i level' hlevel
  have hremove := OverlayLevel.remove_perm h
  -- cancel the blocks of `level'` on both sides
  have h₁ : (blocksOf levels ++ level'.blocks).Perm ((overlay :: blocksOf (levels.set i level')) ++ level'.blocks) :=
    hset.symm.trans ((hremove.append_left _).trans (by simp [List.perm_middle]))
  exact List.perm_append_right_iff _ |>.mp h₁

theorem blocksOf_push_perm {i : Nat}
    (hlevel : levels[i]? = some level) (overlay : BlockOverlay H K) :
    (blocksOf (levels.set i (level.push overlay))).Perm (overlay :: blocksOf levels) := by
  have hset := blocksOf_set_perm levels i (level.push overlay) hlevel
  have h₁ : (blocksOf (levels.set i (level.push overlay)) ++ level.blocks).Perm
      ((overlay :: blocksOf levels) ++ level.blocks) :=
    hset.trans (by
      simp only [OverlayLevel.push, ← List.append_assoc]
      exact List.perm_append_singleton _ _)
  exact List.perm_append_right_iff _ |>.mp h₁

theorem OverlayLevel.remove_last
    (h : level.remove (level.blocks.length - 1) = some (overlay, level')) : level.blocks.getLast? = some overlay := by
  simp only [OverlayLevel.remove, Option.map_eq_some_iff, Prod.mk.injEq] at h
  obtain ⟨o, ho, rfl, -⟩ := h
  rw [List.getLast?_eq_getElem?]
  exact ho

theorem IndicesWF.remove (hw : IndicesWF level)
    (h : level.remove index = some (overlay, level')) : IndicesWF level' := by
  have hperm := OverlayLevel.remove_perm h
  have hnodup := (hperm.map (·.journalIndex)).nodup_iff.mp hw.nodup
  rw [List.map_cons, List.nodup_cons] at hnodup
  have hlt := hw.lt overlay (hperm.mem_iff.mpr List.mem_cons_self)
  have hused : level'.usedIndicies = level.usedIndicies &&& ~~~Bitmask.bit overlay.journalIndex := by
    simp only [OverlayLevel.remove, Option.map_eq_some_iff, Prod.mk.injEq] at h
    obtain ⟨o, -, rfl, rfl⟩ := h
    rfl
  refine ⟨hnodup.2, fun b hb => hw.lt b (hperm.mem_iff.mpr (List.mem_cons_of_mem _ hb)), fun i hi => ?_⟩
  rw [hused, Bitmask.getLsbD_and_not_bit _ hi hlt, Bool.and_eq_true, hw.used i hi,
    (hperm.map (·.journalIndex)).mem_iff, List.map_cons, List.mem_cons]
  by_cases hio : i = overlay.journalIndex
  · subst hio
    simp [hnodup.1]
  · simp [hio]

/-! ## Discarding descendants -/

variable [LinearOrder H] [LinearOrder K]

/-- The part of the overlay a discard works on: the levels `levels`, with
`others` the blocks held outside them. -/
structure LevelsCore (others : List (BlockOverlay H K)) (levels : List (OverlayLevel H K)) (d : Discard H K V) :
    Prop where
  core : Core (blocksOf levels ++ others) d
  indices : ∀ level ∈ levels, IndicesWF level

/-- The panics of a broken invariant: a missing parent entry or value, and
`discard_values` meeting a vacant key or a zero counter. -/
def Panic.brokenRefs : Panic → Bool
  | .parentEntry | .missingValue | .discardMissing | .counterUnderflow => true
  | .valueMismatch | .other => false

omit [LinearOrder K] in
theorem positionChild_ok (parents : OrdMap H H) (hash : H) :
    ∀ blocks : List (BlockOverlay H K), (∀ b ∈ blocks, parents.contains b.hash = true) →
      ∃ r, positionChild parents hash blocks = .ok r
  | [], _ => ⟨none, rfl⟩
  | b :: blocks, h => by
    obtain ⟨parent, hparent⟩ := (OrdMap.contains_iff_exists parents b.hash).mp (h b List.mem_cons_self)
    obtain ⟨r, hr⟩ := positionChild_ok parents hash blocks fun b' hb' => h b' (List.mem_cons_of_mem b hb')
    simp only [positionChild, hparent]
    split_ifs
    · exact ⟨_, rfl⟩
    · exact ⟨_, by rw [hr]; rfl⟩

variable {pinned : OrdMap H Nat}

/-- **The loop of `discard_descendants` over one level.**  Given that the
discard of the levels below keeps the counts and links whatever else is held,
each child taken out and retired keeps them too, and nothing fails on them. -/
theorem discardLoop_ends (hash : H)
    (discardBelow : List (OverlayLevel H K) → Discard H K V → H →
      Except Panic (List (OverlayLevel H K) × Discard H K V × Nat))
    (hbelow : ∀ below d h others, LevelsCore others below d →
      Ends (fun r => LevelsCore others r.1 r.2.1) (·.brokenRefs = false) (discardBelow below d h))
    (level : OverlayLevel H K) (below : List (OverlayLevel H K)) (d : Discard H K V) (pinnedChildren : Nat)
    (others : List (BlockOverlay H K)) (hc : LevelsCore others (level :: below) d) :
    Ends (fun r => LevelsCore others (r.1 :: r.2.1) r.2.2.1) (·.brokenRefs = false)
      (discardLoop pinned hash discardBelow level below d pinnedChildren) := by
  fun_induction discardLoop pinned hash discardBelow level below d pinnedChildren with
  | case1 level below d pinnedChildren e hpos =>
    obtain ⟨r, hr⟩ := positionChild_ok d.parents hash level.blocks fun b hb =>
      hc.core.parents b (by simp [hb])
    rw [hr] at hpos
    cases hpos
  | case2 level below d pinnedChildren hpos => exact hc
  | case3 level below d pinnedChildren i hpos hremove => rfl
  | case4 level below d pinnedChildren i hpos overlay level' hremove ih =>
    classical
    have hperm := OverlayLevel.remove_perm hremove
    have hw' := (hc.indices level List.mem_cons_self).remove hremove
    -- the child is held beside the rest of its level while its descendants go
    have hc₁ : LevelsCore (overlay :: level'.blocks ++ others) below d := by
      refine ⟨hc.core.perm ?_, fun l hl => hc.indices l (List.mem_cons_of_mem _ hl)⟩
      rw [List.perm_iff_count]
      intro a
      have := hperm.count_eq a
      simp only [blocksOf_cons, List.count_append, List.count_cons] at this ⊢
      omega
    refine (hbelow below d overlay.hash _ hc₁).bind fun r hr => ?_
    obtain ⟨below', d', numPinned⟩ := r
    have hretire : Core (overlay :: (level'.blocks ++ blocksOf below' ++ others)) d' := by
      refine hr.core.perm ?_
      rw [List.perm_iff_count]
      intro a
      simp only [List.count_append, List.count_cons]
      omega
    obtain ⟨d'', hd'', hc''⟩ := hretire.retire (withPinned pinned overlay numPinned)
    simp only [hd'', bind, Except.bind]
    refine ih below' numPinned d'' ⟨?_, ?_⟩
    · simpa [List.append_assoc] using hc''
    · intro l hl
      rcases List.mem_cons.mp hl with rfl | hl
      · exact hw'
      · exact hr.indices l hl

/-- **`discard_descendants`** keeps the counts and links of whatever it
leaves, and fails on none of them; induction on the levels it descends. -/
theorem discardDescendants_ends :
    ∀ (n : Nat) (levels : List (OverlayLevel H K)) (d : Discard H K V) (hash : H) (others : List (BlockOverlay H K)),
      LevelsCore others levels d →
        Ends (fun r => LevelsCore others r.1 r.2.1) (·.brokenRefs = false) (discardDescendants pinned n levels d hash)
  | 0, _, _, _, _, hc => hc
  | _ + 1, [], _, _, _, hc => hc
  | n + 1, level :: below, d, hash, others, hc => by
    simp only [discardDescendants]
    refine (discardLoop_ends hash _ (fun below d h others hc => discardDescendants_ends n below d h others hc)
      level below d 0 others hc).bind fun r hr => ?_
    exact hr

omit [LinearOrder K] in
theorem discardJournals_ok (parents : OrdMap H H) :
    ∀ (levels : List (OverlayLevel H K)) (hash : H), (∀ b ∈ blocksOf levels, parents.contains b.hash = true) →
      ∃ keys, discardJournals parents levels hash = .ok keys
  | [], _, _ => ⟨[], rfl⟩
  | level :: levels, hash, h => by
    suffices hfold : Ends (fun _ => True) (fun _ : Panic => False) (discardJournals parents (level :: levels) hash) by
      obtain ⟨keys, hkeys, -⟩ := (ends_false_iff _).mp hfold
      exact ⟨keys, hkeys⟩
    simp only [discardJournals]
    -- the fold over the level, each of whose blocks has a parent entry
    refine (foldlM_ends (fun rest _ => ∀ b ∈ rest, parents.contains b.hash = true)
      (fun overlay rest discarded hrest => ?_) level.blocks []
      fun b hb => h b (by simp only [blocksOf_cons, List.mem_append]; exact .inl hb)).imp
      (fun _ _ => trivial) fun _ h => h
    obtain ⟨parent, hparent⟩ := (OrdMap.contains_iff_exists parents overlay.hash).mp
      (hrest overlay List.mem_cons_self)
    have hrest' : ∀ b ∈ rest, parents.contains b.hash = true := fun b hb => hrest b (List.mem_cons_of_mem _ hb)
    simp only [hparent, Option.elim_some, bind, Except.bind]
    split_ifs
    · obtain ⟨keys, hkeys⟩ := discardJournals_ok parents levels overlay.hash fun b hb =>
        h b (by simp only [blocksOf_cons, List.mem_append]; exact .inr hb)
      simp only [hkeys, pure, Except.pure]
      exact hrest'
    · exact hrest'

omit [LinearOrder K] in
theorem canonicalJournals_ok (parents : OrdMap H H) (below : List (OverlayLevel H K)) (index : Nat)
    (h : ∀ b ∈ blocksOf below, parents.contains b.hash = true) :
    ∀ l : List (BlockOverlay H K × Nat), ∃ keys, NonCanonicalOverlay.canonicalJournals parents below index l = .ok keys
  | [] => ⟨[], rfl⟩
  | (overlay, i) :: rest => by
    obtain ⟨others, hothers⟩ := canonicalJournals_ok parents below index h rest
    rw [NonCanonicalOverlay.canonicalJournals]
    split_ifs
    · obtain ⟨descendants, hdesc⟩ := discardJournals_ok parents below overlay.hash h
      exact ⟨descendants ++ overlay.journalKey :: others, by simp only [hdesc, hothers, bind, Except.bind, pure,
        Except.pure]⟩
    · exact ⟨[] ++ overlay.journalKey :: others, by simp only [hothers, bind, Except.bind, pure, Except.pure]⟩

end Levels

/-! ## The overlay -/

section Overlay

variable {H K V : Type} [LinearOrder H] [LinearOrder K] {s : NonCanonicalOverlay H K V}

@[simp] theorem discardParts_values : s.discardParts.values = s.values := rfl

@[simp] theorem discardParts_parents : s.discardParts.parents = s.parents := rfl

@[simp] theorem discardParts_pinnedInsertions : s.discardParts.pinnedInsertions = s.pinnedInsertions := rfl

/-- The overlay's counts and links: (a) and (b) over the blocks of its levels
and its pinned insertions, and (c) for every level. -/
structure Consistent (s : NonCanonicalOverlay H K V) : Prop where
  core : Core (blocksOf s.levels) s.discardParts
  indices : ∀ level ∈ s.levels, IndicesWF level

theorem Consistent.empty : Consistent (NonCanonicalOverlay.empty : NonCanonicalOverlay H K V) := by
  refine ⟨⟨⟨fun k => ?_, fun k e he => ?_⟩, fun b hb => ?_, List.nodup_nil, fun b hb => ?_, fun hash h => ?_,
    fun hash e he => ?_⟩, fun l hl => ?_⟩
  all_goals first | rfl | cases hb | cases hl | cases he | cases h

theorem Consistent.levelsCore (hs : Consistent s) : LevelsCore [] s.levels s.discardParts :=
  ⟨by simpa using hs.core, hs.indices⟩

theorem Consistent.of_levelsCore (h : LevelsCore [] s.levels s.discardParts) : Consistent s :=
  ⟨by simpa using h.core, h.indices⟩

variable {level : OverlayLevel H K} {b : BlockOverlay H K} {levels : List (OverlayLevel H K)}

omit [LinearOrder H] [LinearOrder K] in
theorem mem_blocksOf (hlevel : level ∈ levels)
    (hb : b ∈ level.blocks) : b ∈ blocksOf levels :=
  List.mem_flatMap.mpr ⟨level, hlevel, hb⟩

omit [LinearOrder H] [LinearOrder K] in
theorem le_insertedBy {blocks : List (BlockOverlay H K)} (hb : b ∈ blocks) :
    (b.inserted : Multiset K) ≤ insertedBy blocks := by
  obtain ⟨pre, post, rfl⟩ := List.append_of_mem hb
  simp only [insertedBy_append, insertedBy_cons]
  exact (Multiset.le_add_right _ _).trans (Multiset.le_add_left _ _)

/-- **`canonicalize`** only queues the block: it keeps the counts and links,
and finds every journal and value it reads. -/
theorem Consistent.canonicalize (hs : Consistent s) (hash : H) (commit : CommitSet H K V) :
    Ends (fun r => Consistent r.2) (·.brokenRefs = false) (s.canonicalize hash commit) := by
  unfold NonCanonicalOverlay.canonicalize
  split
  · exact hs
  · rename_i level hlevel
    split
    · rename_i index overlay hindex hoverlay
      have hlevel' := List.mem_of_getElem? hlevel
      have hblock := mem_blocksOf hlevel' (List.mem_of_find?_eq_some hoverlay)
      obtain ⟨keys, hkeys⟩ := canonicalJournals_ok s.parents (s.levels.drop (s.pendingCanonicalizations.length + 1))
        index (fun b hb => hs.core.parents b (by
          obtain ⟨l, hl, hbl⟩ := List.mem_flatMap.mp hb
          exact mem_blocksOf (List.mem_of_mem_drop hl) hbl)) level.blocks.zipIdx
      rw [hkeys]
      refine Ends.bind (P := fun _ => True) trivial fun _ _ => ?_
      -- every key the block inserted is counted, so its value is there
      refine (mapM_ends (R := fun _ => True) overlay.inserted fun k hk => ?_).bind fun _ _ => ends_pure ⟨hs.core, hs.indices⟩
      have hmem : k ∈ insertedBy (blocksOf s.levels) + pinnedHeld s.pinnedInsertions :=
        Multiset.mem_add.mpr (.inl (Multiset.mem_of_le (le_insertedBy hblock) (by simpa using hk)))
      obtain ⟨c, v, hget⟩ := hs.core.counts.get?_of_mem hmem
      simp only [NonCanonicalOverlay.discardParts] at hget
      simp [hget]
    · exact hs

variable {pinned : OrdMap H Nat}

/-- **One queued canonicalization** retires the blocks of the first level, the
others with their descendants, and keeps the counts and links of the rest. -/
theorem applyCanonicalization_ends (st : List (OverlayLevel H K) × Discard H K V) (hash : H)
    (hst : LevelsCore [] st.1 st.2) :
    Ends (fun st' => LevelsCore [] st'.1 st'.2) (·.brokenRefs = false)
      (NonCanonicalOverlay.applyCanonicalization pinned st hash) := by
  unfold NonCanonicalOverlay.applyCanonicalization
  split
  · rfl
  · rename_i level levels hlevels
    split
    · rfl
    · rename_i index hindex
      -- the blocks of the level not yet retired are held beside the levels below
      have hstart : LevelsCore (level.blocks.zipIdx.map Prod.fst) levels st.2 := by
        rw [hlevels] at hst
        rw [List.zipIdx_map_fst]
        have hcore : Core (level.blocks ++ blocksOf levels) st.2 := by simpa using hst.core
        exact ⟨hcore.perm List.perm_append_comm, fun l hl => hst.indices l (List.mem_cons_of_mem _ hl)⟩
      refine (foldlM_ends (fun rest st => LevelsCore (rest.map Prod.fst) st.1 st.2)
        (fun entry rest st hst => ?_) level.blocks.zipIdx (levels, st.2) hstart).imp
        (fun _ h => by simpa using h) fun _ h => h
      obtain ⟨overlay, i⟩ := entry
      obtain ⟨levels', d⟩ := st
      simp only [List.map_cons] at hst
      -- whatever the descendants' discard leaves, the block is then retired
      have hretire : ∀ levels'' (d' : Discard H K V) pinnedChildren, LevelsCore (overlay :: rest.map Prod.fst) levels'' d' →
          Ends (fun st => LevelsCore (rest.map Prod.fst) st.1 st.2) (·.brokenRefs = false)
            (do let d'' ← retire overlay (withPinned pinned overlay pinnedChildren) d'; pure (levels'', d'')) := by
        intro levels'' d' pinnedChildren hr
        obtain ⟨d'', hd'', hc''⟩ := (hr.core.perm List.perm_middle).retire (withPinned pinned overlay pinnedChildren)
        simp only [hd'', bind, Except.bind, pure, Except.pure]
        exact ⟨hc'', hr.indices⟩
      unfold NonCanonicalOverlay.retireLevelBlock
      dsimp only
      split_ifs
      · refine (discardDescendants_ends _ levels' d overlay.hash _ hst).bind fun r hr => ?_
        obtain ⟨levels'', d', pinnedChildren⟩ := r
        exact hretire levels'' d' pinnedChildren hr
      · exact hretire levels' d 0 hst

/-- **`apply_canonicalizations`** keeps the counts and links. -/
theorem Consistent.applyCanonicalizations (hs : Consistent s) :
    Ends Consistent (·.brokenRefs = false) s.applyCanonicalizations := by
  unfold NonCanonicalOverlay.applyCanonicalizations
  refine (foldlM_ends (fun _ st => LevelsCore [] st.1 st.2)
    (fun hash _ st hst => applyCanonicalization_ends st hash hst) s.pendingCanonicalizations
    (s.levels, s.discardParts) hs.levelsCore).bind fun st hst => ?_
  obtain ⟨levels, d⟩ := st
  dsimp only
  split <;> exact ends_pure (Consistent.of_levelsCore hst)

theorem Consistent.applyPending (hs : Consistent s) : Ends Consistent (·.brokenRefs = false) s.applyPending :=
  hs.applyCanonicalizations.bind fun _ hs' => ends_pure ⟨hs'.core, hs'.indices⟩

omit [LinearOrder H] [LinearOrder K] in
theorem indices_set (h : ∀ l ∈ levels, IndicesWF l) (i : Nat)
    (hw : IndicesWF level) : ∀ l ∈ levels.set i level, IndicesWF l := fun l hl => by
  rcases List.mem_or_eq_of_mem_set hl with hl | rfl
  · exact h l hl
  · exact hw

/-- **`revert_one`** drops the top level, discarding each of its blocks. -/
theorem Consistent.revertOne (hs : Consistent s) :
    Ends (fun r => Consistent r.2) (·.brokenRefs = false) s.revertOne := by
  unfold NonCanonicalOverlay.revertOne
  split
  · exact hs
  · rename_i level hlast
    have hperm : (blocksOf s.levels).Perm (level.blocks ++ blocksOf s.levels.dropLast) := by
      rw [blocksOf_eq_dropLast s.levels, hlast]
      exact List.perm_append_comm
    refine (foldlM_ends (fun rest acc => Core (rest ++ blocksOf s.levels.dropLast) ⟨acc.2.2, acc.2.1, s.pinnedInsertions⟩)
      (fun overlay rest acc hacc => ?_) level.blocks ([], s.parents, s.values) (hs.core.perm hperm)).bind
      fun acc hacc => ?_
    · obtain ⟨values, hdiscard, hv⟩ := hacc.discardBlock
      simp only [hdiscard, bind, Except.bind, pure, Except.pure]
      exact hv
    · obtain ⟨deleted, parents, values⟩ := acc
      have hcore : Core (blocksOf s.levels.dropLast) ⟨values, parents, s.pinnedInsertions⟩ := by simpa using hacc
      exact ends_pure ⟨hcore, fun l hl => hs.indices l ((List.dropLast_sublist _).subset hl)⟩

/-- **`remove`** takes one block out of its level, discarding it. -/
theorem Consistent.remove (hs : Consistent s) (hash : H) :
    Ends (fun r => Consistent r.2) (·.brokenRefs = false) (s.remove hash) := by
  unfold NonCanonicalOverlay.remove
  split
  · exact ⟨by rw [blocksOf_popEmptyBack]; exact hs.core, fun l hl => hs.indices l (mem_popEmptyBack hl)⟩
  · rename_i levelIndex index hfound
    split_ifs
    · exact hs
    · split
      · rfl
      · rename_i overlay level' hremove
        obtain ⟨level, hlevel, hremove'⟩ := Option.bind_eq_some_iff.mp hremove
        have hw := (hs.indices level (List.mem_of_getElem? hlevel)).remove hremove'
        obtain ⟨values, hdiscard, hv⟩ := (hs.core.perm (blocksOf_remove_perm hlevel hremove')).discardBlock
        rw [discardParts_values] at hdiscard
        rw [hdiscard]
        exact ends_pure ⟨by rw [blocksOf_popEmptyBack]; exact hv,
          fun l hl => indices_set hs.indices levelIndex hw l (mem_popEmptyBack hl)⟩

theorem Consistent.pin (hs : Consistent s) (hash : H) : Consistent (s.pin hash) := by
  unfold NonCanonicalOverlay.pin
  split_ifs
  · exact hs
  · exact ⟨hs.core, hs.indices⟩

/-- **`unpin`** walks up the parents of the block, releasing what no pinned
block holds any more. -/
theorem Consistent.unpin (hs : Consistent s) (hash : H) : Ends Consistent (·.brokenRefs = false) (s.unpin hash) := by
  unfold NonCanonicalOverlay.unpin
  split
  · exact hs
  · rfl
  · split_ifs
    · obtain ⟨d, hwalk, hd⟩ := Core.unpinWalk (some hash) _ hs.core
      simp only [NonCanonicalOverlay.discardParts] at hwalk ⊢
      simp only [hwalk, bind, Except.bind, pure, Except.pure]
      exact ⟨hd, hs.indices⟩
    · exact ⟨hs.core, hs.indices⟩

omit [LinearOrder K] in
theorem positionLastIs_ends (hash : H) :
    ∀ levels : List (OverlayLevel H K),
      Ends (fun r => ∀ i, r = some i → ∃ level o, levels[i]? = some level ∧ level.blocks.getLast? = some o ∧
        o.hash = hash) (·.brokenRefs = false) (NonCanonicalOverlay.positionLastIs hash levels)
  | [] => fun _ h => by cases h
  | level :: levels => by
    unfold NonCanonicalOverlay.positionLastIs
    split
    · rfl
    · rename_i overlay hlast
      split_ifs with hhash
      · intro i hi
        cases hi
        exact ⟨level, overlay, rfl, hlast, hhash⟩
      · refine (positionLastIs_ends hash levels).map fun r hr i hi => ?_
        obtain ⟨j, rfl, rfl⟩ := Option.map_eq_some_iff.mp hi
        exact hr j rfl

theorem Consistent.revertInsertion (hs : Consistent s) (hash : H) :
    Ends Consistent (·.brokenRefs = false) (s.revertInsertion hash) := by
  unfold NonCanonicalOverlay.revertInsertion
  refine (positionLastIs_ends hash s.levels).bind fun r hr => ?_
  cases r with
  | none => rfl
  | some levelIndex =>
    obtain ⟨level, o, hlevel, hlast, hhash⟩ := hr levelIndex rfl
    simp only [Option.elim_some, bind, Except.bind]
    split
    · rfl
    · rename_i overlay level' hremove
      obtain ⟨level₁, hlevel₁, hremove'⟩ := Option.bind_eq_some_iff.mp hremove
      rw [hlevel] at hlevel₁
      cases hlevel₁
      -- the block taken out is the last one, the block of `hash`
      have hoverlay : overlay.hash = hash := by
        rw [OverlayLevel.remove_last hremove'] at hlast
        cases hlast
        exact hhash
      have hw := (hs.indices level (List.mem_of_getElem? hlevel)).remove hremove'
      obtain ⟨values, hdiscard, hv⟩ := (hs.core.perm (blocksOf_remove_perm hlevel hremove')).discardBlock
      rw [hoverlay] at hv
      rw [discardParts_values] at hdiscard
      rw [hdiscard]
      split_ifs with hempty hindex
      · -- an emptied top level is dropped
        have hlt : levelIndex < s.levels.length := (List.getElem?_eq_some_iff.mp hlevel).1
        have hlast' : (s.levels.set levelIndex level').getLast? = some level' := by
          rw [List.getLast?_eq_getElem?, ← hindex]
          simp [hlt]
        have hblocks : level'.blocks = [] := List.isEmpty_iff.mp hempty
        have hcore : Core (blocksOf (s.levels.set levelIndex level').dropLast)
            ⟨values, s.parents.erase hash, s.pinnedInsertions⟩ := by
          rw [blocksOf_eq_dropLast, hlast'] at hv
          simpa [hblocks] using hv
        exact ends_pure ⟨hcore, fun l hl => indices_set hs.indices levelIndex hw l ((List.dropLast_sublist _).subset hl)⟩
      · rfl
      · exact ends_pure ⟨hv, indices_set hs.indices levelIndex hw⟩

theorem Consistent.revertPending (hs : Consistent s) : Ends Consistent (·.brokenRefs = false) s.revertPending :=
  foldlM_ends (fun _ s => Consistent s) (fun hash _ _ hs => hs.revertInsertion hash) _ _ ⟨hs.core, hs.indices⟩

theorem Consistent.openLevel (hs : Consistent s) (c : Prop) [Decidable c] :
    blocksOf (if c then s.levels ++ [OverlayLevel.new] else s.levels) = blocksOf s.levels ∧
      ∀ l ∈ (if c then s.levels ++ [OverlayLevel.new] else s.levels), IndicesWF l := by
  split_ifs
  · refine ⟨by simp [OverlayLevel.new], fun l hl => ?_⟩
    rcases List.mem_append.mp hl with hl | hl
    · exact hs.indices l hl
    · rw [List.mem_singleton.mp hl]
      exact IndicesWF.new
  · exact ⟨rfl, hs.indices⟩

/-- **`insert`** of a block whose hash is new to `parents` adds it to its
level, under a free journal index, with its keys counted; it fails only at the
`debug_assert!` of `insert_values` or where the code's own `expect` on the
level fires. -/
theorem Consistent.insert [DecidableEq V] (hs : Consistent s) {hash : H} (hfresh : s.parents.contains hash = false)
    (number : Nat) (parentHash : H) (changeset : ChangeSet K V) :
    Ends (fun r => Consistent r.2) (·.brokenRefs = false) (s.insert hash number parentHash changeset) := by
  unfold NonCanonicalOverlay.insert
  split
  · exact hs
  · -- a first block may record its parent as canonical: nothing the invariant reads changes
    rename_i assumed hcheck
    cases assumed <;> dsimp only <;> split
    all_goals try rfl
    all_goals
      rename_i level hlevel
      generalize (if s.levels.isEmpty = true ∨ number = s.frontBlockNumber + s.levels.length then s.levels.length
        else number - s.frontBlockNumber) = levelIndex at hlevel ⊢
      obtain ⟨hblocks, hindices⟩ := hs.openLevel (levelIndex = s.levels.length)
      generalize (if levelIndex = s.levels.length then s.levels ++ [OverlayLevel.new] else s.levels) = levels'
        at hlevel hblocks hindices ⊢
      have hw := hindices level (List.mem_of_getElem? hlevel)
      split_ifs with hfull
      · -- `TooManySiblingBlocks`: at most an empty level was added
        exact ⟨by rw [hblocks]; exact hs.core, hindices⟩
      · have hroom : level.blocks.length < maxBlocksPerLevel := Nat.lt_of_not_le hfull
        have hcore : Core (blocksOf levels') s.discardParts := hblocks ▸ hs.core
        have hadd := hcore.addBlock (b := ⟨hash, level.availableIndex, .journal number level.availableIndex,
          changeset.inserted.map Prod.fst, changeset.deleted⟩) hfresh rfl parentHash
        simp only [discardParts_values] at hadd
        cases hvalues : insertValues s.values changeset.inserted with
        | error e =>
          rw [hvalues] at hadd
          simp only [ends_error] at hadd
          rw [hadd]
          rfl
        | ok values =>
          rw [hvalues] at hadd
          exact ⟨hadd.perm (blocksOf_push_perm hlevel _).symm, indices_set hindices levelIndex (hw.push hroom rfl)⟩

/-- The side condition of a run: a block is inserted only under a hash that is
not in `parents`, so not already in the overlay. -/
def FreshInserts (s : NonCanonicalOverlay H K V) : Op H K V → Prop
  | .insert hash _ _ _ => s.parents.contains hash = false
  | _ => True

instance (s : NonCanonicalOverlay H K V) : ∀ op, Decidable (FreshInserts s op)
  | .insert hash _ _ _ => inferInstanceAs (Decidable (s.parents.contains hash = false))
  | .canonicalize _ | .applyPending | .revertPending | .pin _ | .unpin _ | .remove _ | .revertOne =>
    inferInstanceAs (Decidable True)

/-- **Every call keeps the counts and links.** -/
theorem Consistent.apply [DecidableEq V] (hs : Consistent s) (op : Op H K V) (hop : FreshInserts s op) :
    Ends Consistent (·.brokenRefs = false) (Op.apply s op) := by
  cases op with
  | insert hash number parentHash changeset => exact (hs.insert hop number parentHash changeset).map fun _ h => h
  | canonicalize hash => exact (hs.canonicalize hash .empty).map fun _ h => h
  | applyPending => exact hs.applyPending
  | revertPending => exact hs.revertPending
  | pin hash => exact hs.pin hash
  | unpin hash => exact hs.unpin hash
  | remove hash => exact (hs.remove hash).map fun _ h => h
  | revertOne => exact hs.revertOne.map fun _ h => h

/-- Three blocks on two levels, the first canonicalized and applied, a pin,
the removal of a leaf and the revert of the top level. -/
def insertCanonicalizeRevert : List (Op Nat Nat Nat) :=
  [.insert 1 1 0 ⟨[(7, 70)], []⟩, .insert 2 2 1 ⟨[(7, 70), (8, 80)], []⟩, .insert 3 2 1 ⟨[(8, 80)], []⟩,
    .canonicalize 1, .applyPending, .pin 2, .remove 3, .revertOne]

/-- A hash inserted twice, then removed once: the second overlay stays in its
level with no parent entry, and canonicalizing a sibling of its parent then
fires the "parent entry" `expect` of `discard_journals`. -/
def duplicateInsert : List (Op Nat Nat Nat) :=
  [.insert 1 1 0 .empty, .insert 2 1 0 .empty, .insert 3 2 1 .empty, .insert 3 2 1 .empty, .remove 3]

end Overlay

end StateDb
