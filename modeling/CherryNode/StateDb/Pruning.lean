import CherryNode.StateDb.NonCanonical

/-!
# `RefWindow`: the pruning window

A model of `client/state-db/src/pruning.rs`.  Each canonical block of the
window has a death row of the keys it deleted, and `death_index` maps each key
to its row.  `note_canonical` adds a block at the back, `prune_one` hands the
next row's keys to the commit, and `apply_pending` drops the pruned rows.

With insertions counted and a history in which a key is deleted again only
after being inserted again (`HistoryConsistent`), every row holds exactly the
keys its block deleted and no later block inserted again (`Dead`, `RowsInv`):
`prune_one` deletes exactly the dead keys (`pruneOne_deletes_dead`), and no
index arithmetic or `expect` fails.  The window starts empty; hashes, journal
keys and the meta column are left out, and a panic is a `PruningPanic`.
-/

namespace StateDb

theorem foldl_update_apply {K β : Type} [DecidableEq K] (l : List K) (v : β) (f : K → β) (k : K) :
    (l.foldl (fun f k => Function.update f k v) f) k = if k ∈ l then v else f k := by
  induction l generalizing f with
  | nil => simp
  | cons a l ih =>
    rw [List.foldl_cons, ih]
    by_cases hk : k = a
    · subst hk
      simp
    · simp [hk]

/-- What ends a call of the pruning window early. -/
inductive PruningPanic
  /-- `death_rows[(block - self.pending_number) as usize]`, out of range or below the window -/
  | deathRowIndex
  /-- "pending_prunings is always < death_rows.len()" -/
  | pendingPrunings
  /-- `death_rows.len() - pending_canonicalizations` below zero -/
  | pendingCanonicalizations
  deriving DecidableEq, Repr

/-- `RefWindow`, each death row by the keys it deletes. -/
structure RefWindow (K : Type) where
  deathRows : List (List K)
  deathIndex : K → Option Nat
  pendingNumber : Nat
  pendingCanonicalizations : Nat
  pendingPrunings : Nat
  countInsertions : Bool

namespace RefWindow

variable {K V : Type} [DecidableEq K]

/-- `RefWindow::new` on a database with no pruning journal. -/
def new (countInsertions : Bool) : RefWindow K := ⟨[], fun _ => none, 0, 0, 0, countInsertions⟩

/-- The loop of `import` over the inserted keys: a key a row would delete is
taken out of the index and out of the row. -/
def removeReinserted (pendingNumber : Nat) :
    (K → Option Nat) × List (List K) → List K → Except PruningPanic ((K → Option Nat) × List (List K))
  | acc, [] => .ok acc
  | (index, rows), k :: ks =>
    match index k with
    | some block =>
      if pendingNumber ≤ block ∧ block - pendingNumber < rows.length then
        removeReinserted pendingNumber
          (Function.update index k none, rows.modify (block - pendingNumber) (·.filter (· != k))) ks
      else .error .deathRowIndex
    | none => removeReinserted pendingNumber (index, rows) ks

/-- `import`: a block's row at the back of the window. -/
def «import» (self : RefWindow K) (inserted deleted : List K) : Except PruningPanic (RefWindow K) := do
  let (deathIndex, deathRows) ← if self.countInsertions then do
      -- remove all re-inserted keys from death rows
      let (index, rows) ← removeReinserted self.pendingNumber (self.deathIndex, self.deathRows) inserted
      -- add new keys
      let importedBlock := self.pendingNumber + rows.length
      pure (deleted.foldl (fun index k => Function.update index k (some importedBlock)) index, rows)
    else pure (self.deathIndex, self.deathRows)
  pure { self with deathIndex, deathRows := deathRows ++ [deleted] }

/-- `note_canonical`: the window after it, and the commit without its deleted
keys, which the window now holds. -/
def noteCanonical (self : RefWindow K) (commit : ChangeSet K V) :
    Except PruningPanic (RefWindow K × ChangeSet K V) := do
  let inserted := if self.countInsertions then commit.inserted.map Prod.fst else []
  let deleted := commit.deleted
  let self ← self.«import» inserted deleted
  pure ({ self with pendingCanonicalizations := self.pendingCanonicalizations + 1 },
    { commit with deleted := [] })

/-- `prune_one`: the next row's keys go to the commit's deleted keys. -/
def pruneOne (self : RefWindow K) (commit : ChangeSet K V) : RefWindow K × ChangeSet K V :=
  match self.deathRows[self.pendingPrunings]? with
  | some pruned =>
    ({ self with pendingPrunings := self.pendingPrunings + 1 },
      { commit with deleted := commit.deleted ++ pruned })
  | none => (self, commit)

/-- The loop of `apply_pending`, over the pruned rows at the front. -/
def applyLoop : Nat → RefWindow K → Except PruningPanic (RefWindow K)
  | 0, w => .ok w
  | n + 1, w =>
    match w.deathRows with
    | [] => .error .pendingPrunings
    | pruned :: rest =>
      let deathIndex :=
        if w.countInsertions then pruned.foldl (fun index k => Function.update index k none) w.deathIndex
        else w.deathIndex
      applyLoop n { w with deathRows := rest, deathIndex, pendingNumber := w.pendingNumber + 1 }

/-- `apply_pending`. -/
def applyPending (self : RefWindow K) : Except PruningPanic (RefWindow K) := do
  let self ← applyLoop self.pendingPrunings { self with pendingCanonicalizations := 0 }
  pure { self with pendingPrunings := 0 }

/-- `revert_pending`. -/
def revertPending (self : RefWindow K) : Except PruningPanic (RefWindow K) :=
  if self.pendingCanonicalizations ≤ self.deathRows.length then
    let deathRows := self.deathRows.take (self.deathRows.length - self.pendingCanonicalizations)
    let newMaxBlock := deathRows.length + self.pendingNumber
    let deathIndex := if self.countInsertions then
        fun k => (self.deathIndex k).filter (· < newMaxBlock)
      else self.deathIndex
    .ok { self with deathRows, deathIndex, pendingCanonicalizations := 0, pendingPrunings := 0 }
  else .error .pendingCanonicalizations

end RefWindow

/-! ## Histories of canonical blocks -/

section History

variable {K : Type}

/-- The keys block `i` of a history deleted; each block is its inserted and
its deleted keys. -/
def deletedAt (H : List (List K × List K)) (i : Nat) : List K := (H.getD i ([], [])).2

/-- The keys block `i` of a history inserted. -/
def insertedAt (H : List (List K × List K)) (i : Nat) : List K := (H.getD i ([], [])).1

/-- Key `k` was deleted by block `i` and no later block of the history
inserted it again. -/
def Dead (H : List (List K × List K)) (i : Nat) (k : K) : Prop :=
  k ∈ deletedAt H i ∧ ∀ j, i < j → j < H.length → k ∉ insertedAt H j

/-- A key is deleted again only after it is inserted again, in a later block
or in the block that deletes it. -/
def HistoryConsistent (H : List (List K × List K)) : Prop :=
  ∀ i j k, i < j → j < H.length → k ∈ deletedAt H i → k ∈ deletedAt H j →
    ∃ m, i < m ∧ m ≤ j ∧ k ∈ insertedAt H m

variable {H H' : List (List K × List K)} {i j : Nat} {k : K}

theorem deletedAt_append (H' : List (List K × List K)) (hi : i < H.length) :
    deletedAt (H ++ H') i = deletedAt H i := by
  simp [deletedAt, List.getD_eq_getElem?_getD, List.getElem?_append_left hi]

theorem insertedAt_append (H' : List (List K × List K)) (hi : i < H.length) :
    insertedAt (H ++ H') i = insertedAt H i := by
  simp [insertedAt, List.getD_eq_getElem?_getD, List.getElem?_append_left hi]

@[simp] theorem deletedAt_concat_length (x : List K × List K) : deletedAt (H ++ [x]) H.length = x.2 := by
  simp [deletedAt, List.getD_eq_getElem?_getD]

@[simp] theorem insertedAt_concat_length (x : List K × List K) : insertedAt (H ++ [x]) H.length = x.1 := by
  simp [insertedAt, List.getD_eq_getElem?_getD]

theorem HistoryConsistent.of_append (h : HistoryConsistent (H ++ H')) : HistoryConsistent H := by
  intro i j k hij hj hi hj'
  rw [← deletedAt_append H' (by omega)] at hi
  rw [← deletedAt_append H' hj] at hj'
  obtain ⟨m, him, hmj, hm⟩ := h i j k hij (by simp; omega) hi hj'
  exact ⟨m, him, hmj, by rwa [insertedAt_append H' (by omega)] at hm⟩

theorem HistoryConsistent.dead_unique (hcons : HistoryConsistent H) {i j : Nat} (hi : Dead H i k) (hj : Dead H j k)
    (hjlen : j < H.length) (hij : i ≤ j) : i = j := by
  by_contra hne
  obtain ⟨m, him, hmj, hm⟩ := hcons i j k (by omega) hjlen hi.1 hj.1
  exact hi.2 m him (by omega) hm

theorem dead_concat_iff (x : List K × List K) (hi : i < H.length) :
    Dead (H ++ [x]) i k ↔ Dead H i k ∧ k ∉ x.1 := by
  unfold Dead
  rw [deletedAt_append [x] hi, List.length_append, List.length_singleton]
  constructor
  · rintro ⟨hdel, hins⟩
    refine ⟨⟨hdel, fun j hij hj => ?_⟩, ?_⟩
    · rw [← insertedAt_append [x] hj]
      exact hins j hij (by omega)
    · rw [← insertedAt_concat_length (H := H) x]
      exact hins H.length hi (by omega)
  · rintro ⟨⟨hdel, hins⟩, hnew⟩
    refine ⟨hdel, fun j hij hj => ?_⟩
    rcases Nat.lt_or_ge j H.length with hj' | hj'
    · rw [insertedAt_append [x] hj']
      exact hins j hij hj'
    · rw [show j = H.length by omega, insertedAt_concat_length]
      exact hnew

theorem dead_concat_length_iff (x : List K × List K) : Dead (H ++ [x]) H.length k ↔ k ∈ x.2 := by
  unfold Dead
  rw [deletedAt_concat_length, List.length_append, List.length_singleton]
  constructor
  · exact fun h => h.1
  · exact fun h => ⟨h, fun j hij hj => absurd hj (by omega)⟩

end History

namespace RefWindow

variable {K V : Type} [DecidableEq K]

/-! ## `import`'s loop over the re-inserted keys -/

/-- **The loop over re-inserted keys.**  When the index points into the rows,
it empties the index at every inserted key, and takes each inserted key out of
the row its index entry names. -/
theorem removeReinserted_spec (p : Nat) (inserted : List K) :
    ∀ (index : K → Option Nat) (rows : List (List K)),
      (∀ k b, index k = some b → p ≤ b ∧ b - p < rows.length) →
      ∃ index' rows', removeReinserted p (index, rows) inserted = .ok (index', rows') ∧
        rows'.length = rows.length ∧ (∀ k, index' k = if k ∈ inserted then none else index k) ∧
        ∀ r (hr : r < rows.length) (hr' : r < rows'.length) k,
          k ∈ rows'[r] ↔ k ∈ rows[r] ∧ ¬ (k ∈ inserted ∧ index k = some (p + r)) := by
  induction inserted with
  | nil =>
    intro index rows _
    exact ⟨index, rows, rfl, rfl, fun k => by simp, fun r hr hr' k => by simp⟩
  | cons k ks ih =>
    intro index rows hidx
    cases hk : index k with
    | none =>
      -- `k` is in no row: nothing to take out
      obtain ⟨index', rows', hrun, hlen, hindex, hrows⟩ := ih index rows hidx
      refine ⟨index', rows', by simpa only [removeReinserted, hk] using hrun, hlen, fun k' => ?_,
        fun r hr hr' k' => ?_⟩
      · rw [hindex]
        by_cases h : k' = k
        · subst h
          simp [hk]
        · simp [h]
      · rw [hrows r hr hr']
        by_cases h : k' = k
        · subst h
          simp [hk]
        · simp [h]
    | some block =>
      -- `k` is taken out of the index and out of the row of `block`
      obtain ⟨hpb, hlt⟩ := hidx k block hk
      have hidx' : ∀ k' b, Function.update index k none k' = some b →
          p ≤ b ∧ b - p < (rows.modify (block - p) (·.filter (· != k))).length := by
        intro k' b hb
        rw [List.length_modify]
        by_cases h : k' = k
        · subst h
          simp at hb
        · rw [Function.update_of_ne h] at hb
          exact hidx k' b hb
      obtain ⟨index', rows', hrun, hlen, hindex, hrows⟩ := ih _ _ hidx'
      refine ⟨index', rows', ?_, by rw [hlen, List.length_modify], fun k' => ?_, fun r hr hr' k' => ?_⟩
      · simp only [removeReinserted, hk, if_pos (And.intro hpb hlt)]
        exact hrun
      · rw [hindex]
        by_cases h : k' = k
        · subst h
          simp
        · simp [h]
      · rw [hrows r (by rw [List.length_modify]; exact hr) hr', List.getElem_modify]
        by_cases h : k' = k
        · subst h
          -- the row of `block` is row `block - p`
          have hrow : block - p = r ↔ block = p + r := by omega
          by_cases hr₀ : block - p = r
          · simp [hk, hrow.mp hr₀]
          · simp [hr₀, hk]
            omega
        · by_cases hr₀ : block - p = r <;> simp [hr₀, h]

/-! ## The invariant of a window with counted insertions -/

/-- What a window with counted insertions keeps, for the history `H` of the
blocks it noted: a row for each block not yet dropped, each holding the keys
dead at its block, and the index pointing every dead key at its block. -/
structure RowsInv (H : List (List K × List K)) (w : RefWindow K) : Prop where
  countInsertions : w.countInsertions = true
  length_eq : w.pendingNumber + w.deathRows.length = H.length
  mem_row : ∀ r (hr : r < w.deathRows.length) k, k ∈ w.deathRows[r] ↔ Dead H (w.pendingNumber + r) k
  index_eq : ∀ k b, w.deathIndex k = some b ↔ w.pendingNumber ≤ b ∧ b < H.length ∧ Dead H b k

/-- ... and no more rows pruned than there are. -/
structure WindowInv (H : List (List K × List K)) (w : RefWindow K) : Prop extends RowsInv H w where
  pendingPrunings_le : w.pendingPrunings ≤ w.deathRows.length

variable {H : List (List K × List K)} {w : RefWindow K}

omit [DecidableEq K] in
theorem RowsInv.index_lt (hinv : RowsInv H w) {k : K} {b : Nat} (h : w.deathIndex k = some b) :
    w.pendingNumber ≤ b ∧ b - w.pendingNumber < w.deathRows.length := by
  obtain ⟨hpb, hb, -⟩ := (hinv.index_eq k b).mp h
  have := hinv.length_eq
  omega

omit [DecidableEq K] in
theorem RowsInv.index_of_mem (hinv : RowsInv H w) {r : Nat} (hr : r < w.deathRows.length) {k : K}
    (hk : k ∈ w.deathRows[r]) : w.deathIndex k = some (w.pendingNumber + r) := by
  have := hinv.length_eq
  exact (hinv.index_eq k _).mpr ⟨by omega, by omega, (hinv.mem_row r hr k).mp hk⟩

omit [DecidableEq K] in
theorem WindowInv.new : WindowInv [] (new true : RefWindow K) where
  countInsertions := rfl
  length_eq := rfl
  mem_row := fun r hr => absurd hr (Nat.not_lt_zero r)
  index_eq := fun k b => by simp [RefWindow.new]
  pendingPrunings_le := Nat.le_refl 0

/-! ## One lemma per operation -/

/-- **`note_canonical`** keeps the invariant for the history with the block
added, when that history is consistent. -/
theorem RowsInv.noteCanonical (hinv : RowsInv H w) (commit : ChangeSet K V)
    (hcons : HistoryConsistent (H ++ [(commit.inserted.map Prod.fst, commit.deleted)])) :
    ∃ w', w.noteCanonical commit = .ok (w', { commit with deleted := [] }) ∧
      RowsInv (H ++ [(commit.inserted.map Prod.fst, commit.deleted)]) w' ∧
      w'.deathRows.length = w.deathRows.length + 1 ∧ w'.pendingPrunings = w.pendingPrunings := by
  have hlen := hinv.length_eq
  obtain ⟨index₁, rows₁, hrun, hlen₁, hindex₁, hrows₁⟩ :=
    removeReinserted_spec w.pendingNumber (commit.inserted.map Prod.fst) w.deathIndex w.deathRows
      fun k b hb => hinv.index_lt hb
  refine ⟨{ w with
      deathIndex := commit.deleted.foldl (fun index k => Function.update index k
        (some (w.pendingNumber + rows₁.length))) index₁,
      deathRows := rows₁ ++ [commit.deleted],
      pendingCanonicalizations := w.pendingCanonicalizations + 1 }, ?_, ⟨hinv.countInsertions, ?_, ?_, ?_⟩,
    by simp [hlen₁], rfl⟩
  · simp only [RefWindow.noteCanonical, RefWindow.«import», hinv.countInsertions, if_true, hrun]
    rfl
  · simp only [List.length_append, List.length_singleton, hlen₁]
    omega
  · -- the old rows lose the keys inserted again; the new row is the deleted keys
    intro r hr k
    dsimp only at hr ⊢
    rcases Nat.lt_or_ge r rows₁.length with hr₁ | hr₁
    · rw [List.getElem_append_left hr₁, hrows₁ r (by omega) hr₁,
        dead_concat_iff _ (by omega), ← hinv.mem_row r (by omega)]
      constructor
      · rintro ⟨hmem, hnot⟩
        exact ⟨hmem, fun hins => hnot ⟨hins, hinv.index_of_mem (by omega) hmem⟩⟩
      · rintro ⟨hmem, hnot⟩
        exact ⟨hmem, fun h => hnot h.1⟩
    · have hr₂ : r = rows₁.length := by simp only [List.length_append, List.length_singleton] at hr; omega
      subst hr₂
      rw [List.getElem_concat_length rfl, show w.pendingNumber + rows₁.length = H.length by omega,
        dead_concat_length_iff]
  · -- a deleted key is indexed to the new block only: a dead key has one block
    intro k b
    dsimp only
    rw [foldl_update_apply, hindex₁]
    simp only [List.length_append, List.length_singleton]
    by_cases hD : k ∈ commit.deleted
    · rw [if_pos hD, show w.pendingNumber + rows₁.length = H.length by omega]
      constructor
      · rintro ⟨⟩
        exact ⟨by omega, by omega, (dead_concat_length_iff _).mpr hD⟩
      · rintro ⟨-, hb, hdead⟩
        have hnew : Dead (H ++ [(commit.inserted.map Prod.fst, commit.deleted)]) H.length k :=
          (dead_concat_length_iff _).mpr hD
        rw [hcons.dead_unique hdead hnew (by simp) (by omega)]
    · rw [if_neg hD]
      by_cases hI : k ∈ commit.inserted.map Prod.fst
      · -- a key inserted again is dead nowhere
        rw [if_pos hI]
        simp only [reduceCtorEq, false_iff, not_and]
        intro _ hb hdead
        rcases Nat.lt_or_ge b H.length with hb' | hb'
        · exact ((dead_concat_iff _ hb').mp hdead).2 hI
        · rw [show b = H.length by omega, dead_concat_length_iff] at hdead
          exact hD hdead
      · rw [if_neg hI, hinv.index_eq]
        constructor
        · rintro ⟨hpb, hb, hdead⟩
          exact ⟨hpb, by omega, (dead_concat_iff _ hb).mpr ⟨hdead, hI⟩⟩
        · rintro ⟨hpb, hb, hdead⟩
          rcases Nat.lt_or_ge b H.length with hb' | hb'
          · exact ⟨hpb, hb', ((dead_concat_iff _ hb').mp hdead).1⟩
          · rw [show b = H.length by omega, dead_concat_length_iff] at hdead
            exact absurd hdead hD

theorem RowsInv.pop (hinv : RowsInv H w) {pruned : List K} {rest : List (List K)}
    (hrows : w.deathRows = pruned :: rest) :
    RowsInv H { w with
      deathRows := rest,
      deathIndex := pruned.foldl (fun index k => Function.update index k none) w.deathIndex,
      pendingNumber := w.pendingNumber + 1 } := by
  have hlen := hinv.length_eq
  rw [hrows, List.length_cons] at hlen
  have hfront : ∀ k, k ∈ pruned ↔ Dead H w.pendingNumber k := fun k => by
    have := hinv.mem_row 0 (by rw [hrows]; simp) k
    simpa [hrows] using this
  refine ⟨hinv.countInsertions, by dsimp only; omega, fun r hr k => ?_, fun k b => ?_⟩
  · have := hinv.mem_row (r + 1) (by rw [hrows]; simp only [List.length_cons]; dsimp only at hr; omega) k
    simp only [hrows, List.getElem_cons_succ] at this
    dsimp only
    rw [this, show w.pendingNumber + (r + 1) = w.pendingNumber + 1 + r by omega]
  · dsimp only
    rw [foldl_update_apply]
    by_cases hk : k ∈ pruned
    · -- the key was dead at the front block, so at no other
      rw [if_pos hk]
      simp only [reduceCtorEq, false_iff, not_and]
      intro hpb hb hdead
      have h₁ := (hinv.index_eq k _).mpr ⟨Nat.le_refl _, by omega, (hfront k).mp hk⟩
      have h₂ := (hinv.index_eq k b).mpr ⟨by omega, hb, hdead⟩
      rw [h₁, Option.some_inj] at h₂
      omega
    · rw [if_neg hk, hinv.index_eq]
      constructor
      · rintro ⟨hpb, hb, hdead⟩
        refine ⟨?_, hb, hdead⟩
        rcases Nat.lt_or_ge w.pendingNumber b with h | h
        · exact h
        · exact absurd ((hfront k).mpr (by rwa [show b = w.pendingNumber by omega] at hdead)) hk
      · rintro ⟨hpb, hb, hdead⟩
        exact ⟨by omega, hb, hdead⟩

theorem RowsInv.applyLoop : ∀ (n : Nat) (w : RefWindow K), RowsInv H w → n ≤ w.deathRows.length →
    ∃ w', RefWindow.applyLoop n w = .ok w' ∧ RowsInv H w' ∧ w'.pendingPrunings = w.pendingPrunings
  | 0, w, hinv, _ => ⟨w, rfl, hinv, rfl⟩
  | n + 1, w, hinv, hn => by
    cases hrows : w.deathRows with
    | nil => rw [hrows] at hn; simp at hn
    | cons pruned rest =>
      have hpop := hinv.pop hrows
      obtain ⟨w', hrun, hinv', hpp⟩ := RowsInv.applyLoop n _ hpop (by
        rw [hrows, List.length_cons] at hn
        dsimp only
        omega)
      refine ⟨w', ?_, hinv', hpp⟩
      simp only [RefWindow.applyLoop, hrows]
      rw [if_pos hinv.countInsertions]
      exact hrun

theorem WindowInv.noteCanonical (hinv : WindowInv H w) (commit : ChangeSet K V)
    (hcons : HistoryConsistent (H ++ [(commit.inserted.map Prod.fst, commit.deleted)])) :
    ∃ w', w.noteCanonical commit = .ok (w', { commit with deleted := [] }) ∧
      WindowInv (H ++ [(commit.inserted.map Prod.fst, commit.deleted)]) w' := by
  obtain ⟨w', hnote, hinv', hlen, hpp⟩ := hinv.toRowsInv.noteCanonical commit hcons
  exact ⟨w', hnote, ⟨hinv', by rw [hlen, hpp]; exact Nat.le_succ_of_le hinv.pendingPrunings_le⟩⟩

omit [DecidableEq K] in
theorem WindowInv.pruneOne (hinv : WindowInv H w) (commit : ChangeSet K V) :
    WindowInv H (w.pruneOne commit).1 := by
  unfold RefWindow.pruneOne
  split
  · rename_i pruned hget
    have hlt : w.pendingPrunings < w.deathRows.length := (List.getElem?_eq_some_iff.mp hget).1
    exact ⟨⟨hinv.countInsertions, hinv.length_eq, hinv.mem_row, hinv.index_eq⟩, hlt⟩
  · exact hinv

theorem WindowInv.applyPending (hinv : WindowInv H w) :
    ∃ w', w.applyPending = .ok w' ∧ WindowInv H w' := by
  obtain ⟨w', hrun, hinv', -⟩ := RowsInv.applyLoop w.pendingPrunings { w with pendingCanonicalizations := 0 }
    ⟨hinv.countInsertions, hinv.length_eq, hinv.mem_row, hinv.index_eq⟩ hinv.pendingPrunings_le
  refine ⟨{ w' with pendingPrunings := 0 }, by simp [RefWindow.applyPending, hrun], ?_⟩
  exact ⟨⟨hinv'.countInsertions, hinv'.length_eq, hinv'.mem_row, hinv'.index_eq⟩, Nat.zero_le _⟩

end RefWindow

/-! ## Runs of the window -/

/-- What a caller does to the window: note a canonical block, prune the next
row into a commit, or apply the pending changes. -/
inductive WindowOp (K V : Type)
  | noteCanonical (commit : ChangeSet K V)
  | pruneOne (commit : ChangeSet K V)
  | applyPending

namespace WindowOp

variable {K V : Type} [DecidableEq K]

/-- One operation on the window; a commit the window hands back is the caller's. -/
def step (w : RefWindow K) : WindowOp K V → Except PruningPanic (RefWindow K)
  | noteCanonical commit => (w.noteCanonical commit).map Prod.fst
  | pruneOne commit => .ok (w.pruneOne commit).1
  | applyPending => w.applyPending

omit [DecidableEq K] in
/-- The blocks a run notes, each by the keys it inserts and deletes. -/
def history : List (WindowOp K V) → List (List K × List K)
  | [] => []
  | noteCanonical commit :: ops => (commit.inserted.map Prod.fst, commit.deleted) :: history ops
  | _ :: ops => history ops

end WindowOp

namespace RefWindow

variable {K V : Type} [DecidableEq K]

/-- The window after a run of operations, or the panic that ends it. -/
def runOps (w : RefWindow K) : List (WindowOp K V) → Except PruningPanic (RefWindow K)
  | [] => .ok w
  | op :: ops =>
    match op.step w with
    | .ok w' => runOps w' ops
    | .error e => .error e

/-- **Run lemma**: from a window that keeps the invariant for `H`, a run whose
blocks extend `H` consistently ends without a panic, keeping the invariant for
the whole history. -/
theorem WindowInv.runOps : ∀ (ops : List (WindowOp K V)) {H : List (List K × List K)} {w : RefWindow K},
    WindowInv H w → HistoryConsistent (H ++ WindowOp.history ops) →
    ∃ w', w.runOps ops = .ok w' ∧ WindowInv (H ++ WindowOp.history ops) w'
  | [], H, w, hinv, _ => ⟨w, rfl, by simpa [WindowOp.history] using hinv⟩
  | .noteCanonical commit :: ops, H, w, hinv, hcons => by
    -- the noted block joins the history before the rest of the run
    have hassoc : H ++ WindowOp.history (.noteCanonical commit :: ops) =
        (H ++ [(commit.inserted.map Prod.fst, commit.deleted)]) ++ WindowOp.history ops := by
      simp [WindowOp.history]
    rw [hassoc] at hcons ⊢
    obtain ⟨w₁, hnote, hinv₁⟩ := hinv.noteCanonical commit hcons.of_append
    obtain ⟨w', hrun, hinv'⟩ := WindowInv.runOps ops hinv₁ hcons
    exact ⟨w', by simp [RefWindow.runOps, WindowOp.step, hnote, Except.map, hrun], hinv'⟩
  | .pruneOne commit :: ops, H, w, hinv, hcons => by
    obtain ⟨w', hrun, hinv'⟩ := WindowInv.runOps ops (hinv.pruneOne commit) hcons
    exact ⟨w', by simpa [RefWindow.runOps, WindowOp.step] using hrun, hinv'⟩
  | .applyPending :: ops, H, w, hinv, hcons => by
    obtain ⟨w₁, happly, hinv₁⟩ := hinv.applyPending
    obtain ⟨w', hrun, hinv'⟩ := WindowInv.runOps ops hinv₁ hcons
    exact ⟨w', by simpa [RefWindow.runOps, WindowOp.step, happly] using hrun, hinv'⟩

/-- **`prune_one` deletes the dead keys**: along any run the window never
panics, and each pruning deletes exactly the keys its block deleted and no
later block inserted again. -/
theorem pruneOne_deletes_dead (ops : List (WindowOp K V)) (hcons : HistoryConsistent (WindowOp.history ops)) :
    ∃ w, (new true : RefWindow K).runOps ops = .ok w ∧
      ∀ commit : ChangeSet K V, ∃ added, (w.pruneOne commit).2.deleted = commit.deleted ++ added ∧
        ∀ k, k ∈ added ↔ w.pendingNumber + w.pendingPrunings < (WindowOp.history ops).length ∧
          Dead (WindowOp.history ops) (w.pendingNumber + w.pendingPrunings) k := by
  obtain ⟨w, hrun, hinv⟩ := WindowInv.new.runOps ops (by simpa using hcons)
  rw [List.nil_append] at hinv
  refine ⟨w, hrun, fun commit => ?_⟩
  have hlen := hinv.length_eq
  unfold RefWindow.pruneOne
  split
  · -- the next row is the pruned block's, and it holds exactly its dead keys
    rename_i pruned hget
    obtain ⟨hlt, hrow⟩ := List.getElem?_eq_some_iff.mp hget
    refine ⟨pruned, rfl, fun k => ?_⟩
    rw [← hrow, hinv.mem_row _ hlt]
    exact ⟨fun h => ⟨by omega, h⟩, fun h => h.2⟩
  · -- every row pruned already: the block after the window is not in the history
    rename_i hget
    have hge : w.deathRows.length ≤ w.pendingPrunings := List.getElem?_eq_none_iff.mp hget
    refine ⟨[], by simp, fun k => ?_⟩
    simp only [List.not_mem_nil, false_iff, not_and]
    intro hlt
    omega

/-- Key 1 deleted at block 0 and inserted again at block 1 is dead nowhere:
pruning block 0 deletes nothing. -/
theorem pruneOne_deletes_dead_reinserted :
    ∃ w, (new true : RefWindow Nat).runOps
        [.noteCanonical ⟨[], [1]⟩, .noteCanonical (⟨[(1, ())], []⟩ : ChangeSet Nat Unit)] = .ok w ∧
      ∀ commit : ChangeSet Nat Unit, ∃ added, (w.pruneOne commit).2.deleted = commit.deleted ++ added ∧
        ∀ k, k ∈ added ↔ w.pendingNumber + w.pendingPrunings < 2 ∧
          Dead [([], [1]), ([1], [])] (w.pendingNumber + w.pendingPrunings) k :=
  pruneOne_deletes_dead _ (by
    intro i j k hij hj hi hj'
    have hj₁ : j = 1 := by simp [WindowOp.history] at hj; omega
    subst hj₁
    simp [deletedAt, WindowOp.history] at hj')

end RefWindow

end StateDb
