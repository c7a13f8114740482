import Mathlib
import CherryNode.Lib.OrdMap

/-!
# sc-client-api: the leaf set

`LeafSet` (`leaves.rs`) keeps the leaves by number in a `BTreeMap` keyed by
`Reverse(number)`; `leaves s` is the set of pairs `(number, hash)` it holds.
On that set `import` replaces the parent by the child (`mem_leaves_import`),
`finalize_height(n)` takes out the leaves below `n` and `undo_finalization`
puts them back (`undoFinalization_finalizeHeight`), and `revert` keeps the
leaves up to the best number and the best block (`revert_spec`).  Every
operation keeps each level non-empty and free of repeats (`LevelsOk`), so the
`assert!` of `revert` never fires on a run (`revert_on_runs`).  `count()`
counts levels, not leaves, and `undo_import` puts the displaced parent back at
the child's number.  `pending_added` and `pending_removed` are never read.
-/

namespace ClientApi

open OrderDual

/-- `LeafSetItem`: a leaf, with its number as the map's key. -/
structure LeafSetItem (H : Type) where
  hash : H
  number : ℕᵒᵈ
  deriving DecidableEq

/-- `ImportDisplaced`: the parent an import took out of the set. -/
structure ImportDisplaced (H : Type) where
  newHash : H
  displaced : LeafSetItem H
  deriving DecidableEq

/-- `FinalizationDisplaced`: the levels a finalization took out of the set. -/
structure FinalizationDisplaced (H : Type) where
  leaves : OrdMap ℕᵒᵈ (List H)

/-- `LeafSet`: the leaves, by `Reverse(number)`. -/
structure LeafSet (H : Type) where
  storage : OrdMap ℕᵒᵈ (List H)

variable {H : Type} [DecidableEq H]
variable {n : ℕ} {h hash : H} {number : ℕᵒᵈ}

/-! ## Levels -/

/-- The leaves a map of levels holds, as `(number, hash)`, from the highest
number down. -/
def levelEntries (m : OrdMap ℕᵒᵈ (List H)) : List (ℕ × H) :=
  m.toList.flatMap fun e => e.2.map (ofDual e.1, ·)

/-- Every level holds a leaf, and none twice. -/
def LevelsOk (m : OrdMap ℕᵒᵈ (List H)) : Prop :=
  ∀ k hs, m.get? k = some hs → hs ≠ [] ∧ hs.Nodup

omit [DecidableEq H] in
theorem mem_levelEntries {m : OrdMap ℕᵒᵈ (List H)} :
    (n, h) ∈ levelEntries m ↔ h ∈ (m.get? (toDual n)).getD [] := by
  simp only [levelEntries, List.mem_flatMap, List.mem_map, Prod.mk.injEq]
  constructor
  · rintro ⟨⟨k, hs⟩, hmem, h', hh', rfl, rfl⟩
    show h' ∈ (m.get? k).getD []
    rw [OrdMap.get?_of_mem_toList hmem]
    exact hh'
  · intro hh
    cases hget : m.get? (toDual n) with
    | none =>
      rw [hget] at hh
      cases hh
    | some hs =>
      rw [hget] at hh
      exact ⟨(toDual n, hs), OrdMap.mem_toList_of_get? hget, h, hh, rfl, rfl⟩

namespace LeafSet

/-! ## Algorithm -/

/-- `new()`. -/
def new : LeafSet H := ⟨.empty⟩

/-- The leaves of the set. -/
def leaves (s : LeafSet H) : List (ℕ × H) := levelEntries s.storage

/-- `insert_leaf`: the hash goes last in its level, which is made if missing. -/
def insertLeaf (s : LeafSet H) (number : ℕᵒᵈ) (hash : H) : LeafSet H :=
  ⟨s.storage.insert number ((s.storage.get? number).getD [] ++ [hash])⟩

/-- `remove_leaf`: whether the hash was in its level, and the set without it;
a level the removal empties goes. -/
def removeLeaf (s : LeafSet H) (number : ℕᵒᵈ) (hash : H) : Bool × LeafSet H :=
  match s.storage.get? number with
  | none => (false, s)
  | some leaves =>
    let found := leaves.contains hash
    let leaves := leaves.filter (· != hash)
    let storage := s.storage.insert number leaves
    if found && leaves.isEmpty then (true, ⟨storage.erase number⟩) else (found, ⟨storage⟩)

/-- `import(hash, number, parent_hash)`: the parent, one number below, stops
being a leaf, and is returned when it was one. -/
def «import» (s : LeafSet H) (hash : H) (number : ℕ) (parentHash : H) : Option (ImportDisplaced H) × LeafSet H :=
  -- avoid underflow for genesis
  if number ≠ 0 then
    let newNumber := toDual (number - 1)
    let r := s.removeLeaf newNumber parentHash
    (if r.1 then some ⟨hash, ⟨parentHash, newNumber⟩⟩ else none, r.2.insertLeaf (toDual number) hash)
  else (none, s.insertLeaf (toDual number) hash)

/-- `finalize_height(number)`: the levels below `number` are split off. -/
def finalizeHeight (s : LeafSet H) (number : ℕ) : FinalizationDisplaced H × LeafSet H :=
  if number = 0 then (⟨.empty⟩, s)
  else
    let boundary := number - 1
    (⟨(s.storage.splitOff (toDual boundary)).2⟩, ⟨(s.storage.splitOff (toDual boundary)).1⟩)

/-- The loop of `revert` over the leaves, from the highest number down; the
`assert!` that a leaf above the best number is still there is a panic. -/
def revertLoop (bestNumber : ℕ) : List (H × ℕᵒᵈ) → LeafSet H → Option (LeafSet H)
  | [], s => some s
  | (hash, number) :: items, s =>
    if ofDual number > bestNumber then
      let r := s.removeLeaf number hash
      if r.1 then revertLoop bestNumber items r.2 else none
    else revertLoop bestNumber items s

/-- `revert(best_hash, best_number)`: the leaves above the best number go, and
the best block is made a leaf. -/
def revert (s : LeafSet H) (bestHash : H) (bestNumber : ℕ) : Option (LeafSet H) :=
  let items := s.storage.toList.flatMap fun e => e.2.map (·, e.1)
  match revertLoop bestNumber items s with
  | none => none
  | some s =>
    let leavesContainsBest := (s.storage.get? (toDual bestNumber)).any (·.contains bestHash)
    if !leavesContainsBest then some (s.insertLeaf (toDual bestNumber) bestHash) else some s

/-- `hashes()`. -/
def hashes (s : LeafSet H) : List H := s.storage.toList.flatMap (·.2)

/-- `count()`. -/
def count (s : LeafSet H) : ℕ := s.storage.size

/-- `prepare_transaction`: the levels it writes, by number. -/
def prepareTransaction (s : LeafSet H) : List (ℕ × List H) := s.storage.toList.map fun e => (ofDual e.1, e.2)

/-- `contains(number, hash)`. -/
def contains (s : LeafSet H) (number : ℕ) (hash : H) : Bool :=
  (s.storage.get? (toDual number)).any (·.contains hash)

/-- `Undo::undo_import`. -/
def undoImport (s : LeafSet H) (displaced : ImportDisplaced H) : LeafSet H :=
  let newNumber := toDual (ofDual displaced.displaced.number + 1)
  (s.removeLeaf newNumber displaced.newHash).2.insertLeaf newNumber displaced.displaced.hash

/-- `Undo::undo_finalization`. -/
def undoFinalization (s : LeafSet H) (displaced : FinalizationDisplaced H) : LeafSet H :=
  ⟨s.storage.append displaced.leaves⟩

/-! ## Lemmas -/

variable {s : LeafSet H}

omit [DecidableEq H] in
theorem mem_leaves : (n, h) ∈ s.leaves ↔ h ∈ (s.storage.get? (toDual n)).getD [] :=
  mem_levelEntries

omit [DecidableEq H] in
theorem ne_of_number_ne {h hash : H} (hk : ¬number = toDual n) :
    (n, h) ≠ (ofDual number, hash) := by
  intro he
  apply hk
  rw [(Prod.mk.inj he).1]
  rfl

/-! ### `insert_leaf` and `remove_leaf` -/

omit [DecidableEq H] in
theorem getD_insertLeaf (s : LeafSet H) (number k : ℕᵒᵈ) (hash : H) :
    ((s.insertLeaf number hash).storage.get? k).getD [] =
      if number = k then (s.storage.get? k).getD [] ++ [hash] else (s.storage.get? k).getD [] := by
  rw [insertLeaf, OrdMap.get?_insert]
  split_ifs with hk
  · subst hk
    rfl
  · rfl

omit [DecidableEq H] in
theorem mem_leaves_insertLeaf :
    (n, h) ∈ (s.insertLeaf number hash).leaves ↔ (n, h) ∈ s.leaves ∨ (n, h) = (ofDual number, hash) := by
  rw [mem_leaves, mem_leaves, getD_insertLeaf]
  split_ifs with hk
  · have hn : ofDual number = n := by rw [hk]; rfl
    rw [← hk, hn, List.mem_append, List.mem_singleton, Prod.mk.injEq]
    exact or_congr_right ⟨fun he => ⟨rfl, he⟩, And.right⟩
  · simp [ne_of_number_ne hk]

theorem removeLeaf_fst (s : LeafSet H) (number : ℕᵒᵈ) (hash : H) :
    (s.removeLeaf number hash).1 = true ↔ (ofDual number, hash) ∈ s.leaves := by
  rw [mem_leaves, ← List.contains_iff_mem]
  show _ ↔ ((s.storage.get? number).getD []).contains hash = true
  unfold removeLeaf
  cases s.storage.get? number with
  | none => rfl
  | some hs =>
    dsimp only
    split
    · rename_i hc
      simp only [Bool.and_eq_true] at hc
      exact iff_of_true rfl (by simpa using hc.1)
    · rfl

theorem getD_removeLeaf (s : LeafSet H) (number k : ℕᵒᵈ) (hash : H) :
    ((s.removeLeaf number hash).2.storage.get? k).getD [] =
      if number = k then ((s.storage.get? k).getD []).filter (· != hash) else (s.storage.get? k).getD [] := by
  unfold removeLeaf
  cases hg : s.storage.get? number with
  | none =>
    split_ifs with hk
    · subst hk
      rw [hg]
      rfl
    · rfl
  | some hs =>
    dsimp only
    split
    · rename_i hc
      simp only [Bool.and_eq_true, List.isEmpty_iff] at hc
      rw [OrdMap.get?_erase]
      split_ifs with hk
      · subst hk
        rw [hg, Option.getD_some, hc.2]
        rfl
      · rw [OrdMap.get?_insert_of_ne _ _ hk]
    · rw [OrdMap.get?_insert]
      split_ifs with hk
      · subst hk
        rw [hg]
        rfl
      · rfl

theorem mem_leaves_removeLeaf :
    (n, h) ∈ (s.removeLeaf number hash).2.leaves ↔ (n, h) ∈ s.leaves ∧ (n, h) ≠ (ofDual number, hash) := by
  rw [mem_leaves, mem_leaves, getD_removeLeaf]
  split_ifs with hk
  · have hn : ofDual number = n := by rw [hk]; rfl
    rw [← hk, hn, List.mem_filter, bne_iff_ne, ne_eq, ne_eq, Prod.mk.injEq]
    exact and_congr_right fun _ => ⟨fun hne he => hne he.2, fun hne he => hne ⟨rfl, he⟩⟩
  · simp [ne_of_number_ne hk]

omit [DecidableEq H] in
theorem levelsOk_insertLeaf (hs : LevelsOk s.storage)
    (hnew : (ofDual number, hash) ∉ s.leaves) : LevelsOk (s.insertLeaf number hash).storage := by
  intro k l hk
  rw [insertLeaf, OrdMap.get?_insert] at hk
  split_ifs at hk with hnk
  · cases hk
    rw [mem_leaves] at hnew
    have hnd : ((s.storage.get? number).getD []).Nodup := by
      cases hg : s.storage.get? number with
      | none => exact List.nodup_nil
      | some l' => exact (hs number l' hg).2
    refine ⟨by simp, List.nodup_append.mpr ⟨hnd, List.nodup_singleton hash, ?_⟩⟩
    intro a ha b hb hab
    rw [List.mem_singleton.mp hb] at hab
    exact hnew (hab ▸ ha)
  · exact hs k l hk

theorem levelsOk_removeLeaf (hs : LevelsOk s.storage) (number : ℕᵒᵈ) (hash : H) :
    LevelsOk (s.removeLeaf number hash).2.storage := by
  intro k l hk
  unfold removeLeaf at hk
  cases hg : s.storage.get? number with
  | none =>
    rw [hg] at hk
    exact hs k l hk
  | some l' =>
    rw [hg] at hk
    dsimp only at hk
    split at hk
    · rw [OrdMap.get?_erase, OrdMap.get?_insert] at hk
      split_ifs at hk
      exact hs k l hk
    · rename_i hc
      rw [OrdMap.get?_insert] at hk
      split_ifs at hk with hk1
      · cases hk
        have hl' := hs number l' hg
        refine ⟨fun hnil => ?_, hl'.2.filter _⟩
        -- an emptied level had the hash, so it was removed
        have hnot : hash ∉ l' := fun hmem => hc (by simp [hmem, hnil])
        have hsame : l'.filter (· != hash) = l' :=
          List.filter_eq_self.mpr fun a ha => by simpa using ne_of_mem_of_not_mem ha hnot
        exact hl'.1 (hsame ▸ hnil)
      · exact hs k l hk

theorem contains_iff (s : LeafSet H) (number : ℕ) (hash : H) : s.contains number hash = true ↔ (number, hash) ∈ s.leaves := by
  rw [mem_leaves, contains]
  cases s.storage.get? (toDual number) with
  | none => simp
  | some hs => simp

/-! ### `import` -/

theorem import_fst_isSome (s : LeafSet H) (hash : H) (number : ℕ) (parentHash : H) :
    (s.import hash number parentHash).1.isSome ↔ number ≠ 0 ∧ (number - 1, parentHash) ∈ s.leaves := by
  unfold LeafSet.import
  split_ifs with hn
  · have hr := removeLeaf_fst s (toDual (number - 1)) parentHash
    rw [ofDual_toDual] at hr
    dsimp only
    split_ifs with h1
    · exact iff_of_true rfl ⟨hn, hr.mp h1⟩
    · exact iff_of_false (by simp) fun h => h1 (hr.mpr h.2)
  · simp [hn]

variable {number n : ℕ}

theorem mem_leaves_import {parentHash : H} :
    (n, h) ∈ (s.import hash number parentHash).2.leaves ↔
      ((n, h) ∈ s.leaves ∧ (number ≠ 0 → (n, h) ≠ (number - 1, parentHash))) ∨ (n, h) = (number, hash) := by
  unfold LeafSet.import
  split_ifs with hn
  · rw [mem_leaves_insertLeaf, mem_leaves_removeLeaf, ofDual_toDual, ofDual_toDual]
    exact or_congr_left (and_congr_right fun _ => ⟨fun hne _ => hne, fun hne => hne hn⟩)
  · rw [mem_leaves_insertLeaf, ofDual_toDual]
    exact or_congr_left (and_iff_left fun h => absurd h hn).symm

theorem levelsOk_import (hs : LevelsOk s.storage) (parentHash : H)
    (hnew : (number, hash) ∉ s.leaves) : LevelsOk (s.import hash number parentHash).2.storage := by
  unfold LeafSet.import
  split_ifs
  · refine levelsOk_insertLeaf (levelsOk_removeLeaf hs _ _) ?_
    rw [mem_leaves_removeLeaf]
    exact fun h => hnew h.1
  · exact levelsOk_insertLeaf hs hnew

/-- **`import` moves a leaf from the parent to the child.**  The set loses the
parent, one number below, and gains the block; the parent is handed back as
displaced exactly when it was a leaf, and never for block `0`. -/
theorem import_spec (s : LeafSet H) (hash : H) (number : ℕ) (parentHash : H) :
    ((s.import hash number parentHash).1.isSome ↔ number ≠ 0 ∧ (number - 1, parentHash) ∈ s.leaves) ∧
      ∀ n h, (n, h) ∈ (s.import hash number parentHash).2.leaves ↔
        ((n, h) ∈ s.leaves ∧ (number ≠ 0 → (n, h) ≠ (number - 1, parentHash))) ∨ (n, h) = (number, hash) :=
  ⟨import_fst_isSome s hash number parentHash, fun _ _ => mem_leaves_import⟩

/-! ### `finalize_height` and `undo_finalization` -/

omit [DecidableEq H] in
theorem mem_leaves_finalizeHeight :
    (n, h) ∈ (s.finalizeHeight number).2.leaves ↔ (n, h) ∈ s.leaves ∧ number ≤ n := by
  unfold finalizeHeight
  split_ifs with hn
  · simp [hn]
  · rw [mem_leaves, mem_leaves]
    dsimp only
    rw [OrdMap.get?_splitOff_fst]
    by_cases hle : number ≤ n
    · rw [if_pos (toDual_lt_toDual.mpr (by omega))]
      simp [hle]
    · rw [if_neg fun hlt => hle (by have := toDual_lt_toDual.mp hlt; omega)]
      simp [hle]

omit [DecidableEq H] in
theorem mem_finalizeHeight_displaced :
    (n, h) ∈ levelEntries (s.finalizeHeight number).1.leaves ↔ (n, h) ∈ s.leaves ∧ n < number := by
  unfold finalizeHeight
  split_ifs with hn
  · simp [hn, levelEntries, OrdMap.empty]
  · rw [mem_levelEntries, mem_leaves]
    dsimp only
    rw [OrdMap.get?_splitOff_snd]
    by_cases hlt : n < number
    · rw [if_pos (toDual_le_toDual.mpr (by omega))]
      simp [hlt]
    · rw [if_neg fun hle => hlt (by have := toDual_le_toDual.mp hle; omega)]
      simp [hlt]

omit [DecidableEq H] in
theorem levelsOk_finalizeHeight (hs : LevelsOk s.storage) (number : ℕ) :
    LevelsOk (s.finalizeHeight number).2.storage ∧ LevelsOk (s.finalizeHeight number).1.leaves := by
  unfold finalizeHeight
  split_ifs
  · exact ⟨hs, fun k l hk => by simp at hk⟩
  · refine ⟨fun k l hk => ?_, fun k l hk => ?_⟩
    · rw [OrdMap.get?_splitOff_fst] at hk
      split_ifs at hk
      exact hs k l hk
    · rw [OrdMap.get?_splitOff_snd] at hk
      split_ifs at hk
      exact hs k l hk

omit [DecidableEq H] in
/-- **`undo_finalization` undoes `finalize_height`.** -/
theorem undoFinalization_finalizeHeight (s : LeafSet H) (number : ℕ) :
    (s.finalizeHeight number).2.undoFinalization (s.finalizeHeight number).1 = s := by
  cases s with
  | mk storage =>
    unfold finalizeHeight undoFinalization
    split_ifs
    · -- nothing was split off, and appending nothing changes nothing
      rfl
    · exact congrArg LeafSet.mk (OrdMap.append_splitOff _ _)

omit [DecidableEq H] in
/-- **`finalize_height` splits the leaves at `number`**: the set keeps those at
or above it, hands back those below, and `undo_finalization` of what it hands
back restores the set. -/
theorem finalizeHeight_spec (s : LeafSet H) (number : ℕ) :
    (∀ n h, (n, h) ∈ (s.finalizeHeight number).2.leaves ↔ (n, h) ∈ s.leaves ∧ number ≤ n) ∧
      (∀ n h, (n, h) ∈ levelEntries (s.finalizeHeight number).1.leaves ↔ (n, h) ∈ s.leaves ∧ n < number) ∧
      (s.finalizeHeight number).2.undoFinalization (s.finalizeHeight number).1 = s :=
  ⟨fun _ _ => mem_leaves_finalizeHeight, fun _ _ => mem_finalizeHeight_displaced,
    undoFinalization_finalizeHeight s number⟩

/-! ### `revert` -/

omit [DecidableEq H] in
theorem mem_revertItems {x : H} {k : ℕᵒᵈ} :
    (x, k) ∈ s.storage.toList.flatMap (fun e => e.2.map (·, e.1)) ↔ (ofDual k, x) ∈ s.leaves := by
  rw [mem_leaves, toDual_ofDual]
  simp only [List.mem_flatMap, List.mem_map, Prod.mk.injEq]
  constructor
  · rintro ⟨⟨k', hs⟩, hmem, x', hx', rfl, rfl⟩
    rw [OrdMap.get?_of_mem_toList hmem]
    exact hx'
  · intro hx
    cases hget : s.storage.get? k with
    | none =>
      rw [hget] at hx
      cases hx
    | some hs =>
      rw [hget] at hx
      exact ⟨(k, hs), OrdMap.mem_toList_of_get? hget, x, hx, rfl, rfl⟩

omit [DecidableEq H] in
theorem revertItems_nodup (hs : LevelsOk s.storage) :
    (s.storage.toList.flatMap (fun e => e.2.map (·, e.1))).Nodup := by
  rw [List.nodup_flatMap]
  constructor
  · intro e he
    exact (hs e.1 e.2 (OrdMap.get?_of_mem_toList he)).2.map fun a b hab => (Prod.mk.inj hab).1
  · -- entries of different levels differ in their key
    refine (List.pairwise_map.mp s.storage.sorted).imp fun {a b} hlt => ?_
    intro y hya hyb
    obtain ⟨_, _, rfl⟩ := List.mem_map.mp hya
    obtain ⟨_, _, hy⟩ := List.mem_map.mp hyb
    exact ne_of_lt hlt (Prod.mk.inj hy).2.symm

theorem revertLoop_spec (bestNumber : ℕ) :
    ∀ (items : List (H × ℕᵒᵈ)) (s : LeafSet H), items.Nodup → LevelsOk s.storage →
      (∀ x k, (x, k) ∈ items → bestNumber < ofDual k → (ofDual k, x) ∈ s.leaves) →
      ∃ s', revertLoop bestNumber items s = some s' ∧ LevelsOk s'.storage ∧
        ∀ n h, (n, h) ∈ s'.leaves ↔ (n, h) ∈ s.leaves ∧ ¬((h, toDual n) ∈ items ∧ bestNumber < n) := by
  intro items
  induction items with
  | nil =>
    intro s _ hs _
    exact ⟨s, rfl, hs, fun n h => by simp⟩
  | cons item items ih =>
    obtain ⟨x, k⟩ := item
    intro s hnd hs hall
    rw [List.nodup_cons] at hnd
    unfold revertLoop
    split_ifs with hgt
    · -- a leaf above the best number: it is still there, and goes
      have hpres : (s.removeLeaf k x).1 = true := (removeLeaf_fst s k x).mpr (hall x k List.mem_cons_self hgt)
      rw [if_pos hpres]
      obtain ⟨s', hrun, hs', hmem⟩ := ih (s.removeLeaf k x).2 hnd.2 (levelsOk_removeLeaf hs k x)
        fun x' k' hmem' hgt' => by
          rw [mem_leaves_removeLeaf]
          refine ⟨hall x' k' (List.mem_cons_of_mem _ hmem') hgt', fun he => hnd.1 ?_⟩
          obtain ⟨hk, rfl⟩ := Prod.mk.inj he
          have hk' : k' = k := hk
          rw [hk'] at hmem'
          exact hmem'
      refine ⟨s', hrun, hs', fun n h => ?_⟩
      rw [hmem, mem_leaves_removeLeaf, List.mem_cons]
      constructor
      · rintro ⟨⟨hin, hne⟩, hnot⟩
        refine ⟨hin, fun ⟨hor, hlt⟩ => hor.elim (fun he => hne ?_) fun hi => hnot ⟨hi, hlt⟩⟩
        obtain ⟨rfl, hk⟩ := Prod.mk.inj he
        rw [← hk]
        rfl
      · rintro ⟨hin, hnot⟩
        refine ⟨⟨hin, fun he => hnot ⟨.inl ?_, ?_⟩⟩, fun ⟨hi, hlt⟩ => hnot ⟨.inr hi, hlt⟩⟩
        · obtain ⟨rfl, rfl⟩ := Prod.mk.inj he
          rfl
        · obtain ⟨rfl, rfl⟩ := Prod.mk.inj he
          exact hgt
    · -- a leaf at or below the best number stays
      obtain ⟨s', hrun, hs', hmem⟩ := ih s hnd.2 hs fun x' k' hmem' => hall x' k' (List.mem_cons_of_mem _ hmem')
      refine ⟨s', hrun, hs', fun n h => ?_⟩
      rw [hmem, List.mem_cons]
      constructor
      · rintro ⟨hin, hnot⟩
        refine ⟨hin, fun ⟨hor, hlt⟩ => hor.elim (fun he => hgt ?_) fun hi => hnot ⟨hi, hlt⟩⟩
        obtain ⟨rfl, rfl⟩ := Prod.mk.inj he
        exact hlt
      · rintro ⟨hin, hnot⟩
        exact ⟨hin, fun ⟨hi, hlt⟩ => hnot ⟨.inr hi, hlt⟩⟩

/-- **`revert` keeps the leaves up to the best number, and the best block.**
On a set whose levels are non-empty and free of repeats, its `assert!` never
fires. -/
theorem revert_spec (hs : LevelsOk s.storage) (bestHash : H) (bestNumber : ℕ) :
    ∃ s', s.revert bestHash bestNumber = some s' ∧ LevelsOk s'.storage ∧
      ∀ n h, (n, h) ∈ s'.leaves ↔ ((n, h) ∈ s.leaves ∧ n ≤ bestNumber) ∨ (n, h) = (bestNumber, bestHash) := by
  obtain ⟨s₁, hrun, hs₁, hmem₁⟩ := revertLoop_spec bestNumber _ s (revertItems_nodup hs) hs
    fun x k hxk _ => mem_revertItems.mp hxk
  -- after the loop, exactly the leaves at or below the best number are left
  have hleft : ∀ n h, (n, h) ∈ s₁.leaves ↔ (n, h) ∈ s.leaves ∧ n ≤ bestNumber := by
    intro n h
    rw [hmem₁ n h, mem_revertItems, ofDual_toDual]
    exact and_congr_right fun hin => ⟨fun hnot => not_lt.mp fun hlt => hnot ⟨hin, hlt⟩, fun hle hlt => absurd hle (not_le.mpr hlt.2)⟩
  unfold revert
  dsimp only
  rw [hrun]
  dsimp only
  by_cases hbest : (bestNumber, bestHash) ∈ s₁.leaves
  · have hc : s₁.contains bestNumber bestHash = true := (contains_iff s₁ bestNumber bestHash).mpr hbest
    rw [contains] at hc
    rw [hc]
    refine ⟨s₁, rfl, hs₁, fun n h => ?_⟩
    rw [← hleft]
    exact ⟨.inl, fun hor => hor.elim id fun he => he ▸ hbest⟩
  · have hc : s₁.contains bestNumber bestHash = false := by
      rw [← Bool.not_eq_true, contains_iff]
      exact hbest
    rw [contains] at hc
    rw [hc]
    refine ⟨_, rfl, levelsOk_insertLeaf hs₁ (by rw [ofDual_toDual]; exact hbest), fun n h => ?_⟩
    rw [mem_leaves_insertLeaf, ofDual_toDual, hleft]

/-! ## Every run -/

/-- The leaf sets `LeafSet::new` reaches by `import` of a block not yet a leaf,
`finalize_height` and `revert`. -/
inductive LeafReachable : LeafSet H → Prop
  | new : LeafReachable new
  | «import» {s : LeafSet H} {number : ℕ} {hash : H} (parentHash : H) :
      LeafReachable s → (number, hash) ∉ s.leaves → LeafReachable (s.import hash number parentHash).2
  | finalizeHeight {s : LeafSet H} (number : ℕ) : LeafReachable s → LeafReachable (s.finalizeHeight number).2
  | revert {s s' : LeafSet H} (bestHash : H) (bestNumber : ℕ) :
      LeafReachable s → s.revert bestHash bestNumber = some s' → LeafReachable s'

theorem LeafReachable.levelsOk (hr : LeafReachable s) : LevelsOk s.storage := by
  induction hr with
  | new => exact fun k l hk => by simp [LeafSet.new] at hk
  | «import» parentHash _ hnew ih => exact levelsOk_import ih parentHash hnew
  | finalizeHeight number _ ih => exact (levelsOk_finalizeHeight ih number).1
  | revert bestHash bestNumber _ hrev ih =>
    obtain ⟨s', hs', hok, -⟩ := revert_spec ih bestHash bestNumber
    rw [hrev, Option.some_inj] at hs'
    rw [hs']
    exact hok

/-- **`revert` never panics on a run**: on every set a run reaches, it keeps
the leaves up to the best number and the best block, and the set it leaves is
reached too. -/
theorem revert_on_runs (hr : LeafReachable s) (bestHash : H) (bestNumber : ℕ) :
    ∃ s', s.revert bestHash bestNumber = some s' ∧ LeafReachable s' ∧
      ∀ n h, (n, h) ∈ s'.leaves ↔ ((n, h) ∈ s.leaves ∧ n ≤ bestNumber) ∨ (n, h) = (bestNumber, bestHash) := by
  obtain ⟨s', hrev, -, hmem⟩ := revert_spec hr.levelsOk bestHash bestNumber
  exact ⟨s', hrev, hr.revert bestHash bestNumber hrev, hmem⟩

/-! ## Siblings and an undone import -/

/-- The set after importing the genesis block `1`. -/
def leafGenesis : LeafSet ℕ := (new.import 1 0 0).2

/-- Then `2` on `1`, which displaces it, and its sibling `3`, which displaces
nothing. -/
def leafSiblings : LeafSet ℕ := ((leafGenesis.import 2 1 1).2.import 3 1 1).2

theorem revert_on_runs_siblings :
    LeafReachable leafSiblings ∧ leafSiblings.leaves = [(1, 2), (1, 3)] ∧
      ∃ s', leafSiblings.revert 4 0 = some s' ∧ LeafReachable s' ∧
        ∀ n h, (n, h) ∈ s'.leaves ↔ ((n, h) ∈ leafSiblings.leaves ∧ n ≤ 0) ∨ (n, h) = (0, 4) := by
  have hr : LeafReachable leafSiblings := .import 1 (.import 1 (.import 0 .new (by decide)) (by decide)) (by decide)
  exact ⟨hr, by decide, revert_on_runs hr 4 0⟩

/-- Two leaves share the number `1`, and `count()` gives `1`.  Undoing the two
imports, the last first (the removal of `3`, then `undo_import` of what
importing `2` displaced), leaves `1` at number `1`, not at `0`. -/
theorem count_and_undoImport_diverge :
    leafGenesis.leaves = [(0, 1)] ∧ leafSiblings.leaves = [(1, 2), (1, 3)] ∧
      leafSiblings.hashes.length = 2 ∧ leafSiblings.count = 1 ∧
      ((leafGenesis.import 2 1 1).2.import 3 1 1).1 = none ∧
      ∃ d, (leafGenesis.import 2 1 1).1 = some d ∧
        ((leafSiblings.removeLeaf (toDual 1) 3).2.undoImport d).leaves = [(1, 1)] :=
  ⟨by decide, by decide, by decide, by decide, by decide, _, rfl, by decide⟩

end LeafSet

end ClientApi
