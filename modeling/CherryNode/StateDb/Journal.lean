import Mathlib
import CherryNode.StateDb.NonCanonical

/-!
# The journal of the overlay, and `NonCanonicalOverlay::new`

The meta column the overlay's commits write, and `NonCanonicalOverlay::new`,
which rebuilds the overlay from it: from the block after `LAST_CANONICAL`, level
by level, the records `(block, index)` below `MAX_BLOCKS_PER_LEVEL`, until a
level has none.  The column is typed, SCALE decoding taken to invert encoding;
`apply_state_commit` writes insertions, then deletions.  With no
`LAST_CANONICAL` nothing is read (`restore_without_lastCanonical`), and
`insert` writes one only for a first block above number 0, so a genesis block
inserted into the empty overlay is lost by a restart
(`restore_loses_genesis_block`).
-/

namespace StateDb

/-- The meta column, decoded. -/
structure MetaDb (H K V : Type) where
  lastCanonical : Option (H × Nat)
  journals : Nat → Nat → Option (JournalRecord H K V)

namespace MetaDb

variable {H K V : Type}

def empty : MetaDb H K V := ⟨none, fun _ _ => none⟩

/-- One insertion of `apply_state_commit`.  The overlay writes each key with a
value of its kind; a mismatched pair is not written. -/
def set (db : MetaDb H K V) : MetaKey × MetaValue H K V → MetaDb H K V
  | (.lastCanonical, .lastCanonical hash number) => { db with lastCanonical := some (hash, number) }
  | (.journal block index, .journal record) =>
    { db with journals := fun b i => if b = block ∧ i = index then some record else db.journals b i }
  | _ => db

/-- One deletion of `apply_state_commit`. -/
def remove (db : MetaDb H K V) : MetaKey → MetaDb H K V
  | .lastCanonical => { db with lastCanonical := none }
  | .journal block index => { db with journals := fun b i => if b = block ∧ i = index then none else db.journals b i }

/-- `apply_state_commit` on the meta column: the insertions, then the deletions. -/
def commit (db : MetaDb H K V) (changes : ChangeSet MetaKey (MetaValue H K V)) : MetaDb H K V :=
  changes.deleted.foldl remove (changes.inserted.foldl set db)

end MetaDb

variable {H K V : Type} [LinearOrder H] [LinearOrder K] [DecidableEq V]

/-- The `for index in 0..MAX_BLOCKS_PER_LEVEL` loop of `new`: the level of
`block`, with the parents and values its records add. -/
def readLevel (db : MetaDb H K V) (block : Nat) (parents : OrdMap H H) (values : OrdMap K (Nat × V)) :
    Except Panic (OverlayLevel H K × OrdMap H H × OrdMap K (Nat × V)) :=
  (List.range maxBlocksPerLevel).foldlM (fun (level, parents, values) index =>
    match db.journals block index with
    | none => pure (level, parents, values)
    | some record => do
      let values ← insertValues values record.inserted
      pure (level.push ⟨record.hash, index, .journal block index, record.inserted.map Prod.fst, record.deleted⟩,
        parents.insert record.hash record.parentHash, values))
    (OverlayLevel.new, parents, values)

/-- The `loop` of `new`: the levels from `block` up, until one has no record.
The code loops as long as the column has records; `fuel` bounds the number of
levels read. -/
def readLevels (db : MetaDb H K V) :
    Nat → Nat → List (OverlayLevel H K) → OrdMap H H → OrdMap K (Nat × V) →
      Except Panic (List (OverlayLevel H K) × OrdMap H H × OrdMap K (Nat × V))
  | 0, _, levels, parents, values => pure (levels, parents, values)
  | fuel + 1, block, levels, parents, values => do
    let (level, parents, values) ← readLevel db block parents values
    if level.blocks.isEmpty then pure (levels, parents, values)
    else readLevels db fuel (block + 1) (levels ++ [level]) parents values

/-- `NonCanonicalOverlay::new`, reading at most `fuel` levels. -/
def restore (db : MetaDb H K V) (fuel : Nat) : Except Panic (NonCanonicalOverlay H K V) := do
  let (levels, parents, values) ← match db.lastCanonical with
    | none => pure ([], OrdMap.empty, OrdMap.empty)
    | some (_, block) => readLevels db fuel (block + 1) [] OrdMap.empty OrdMap.empty
  pure ⟨db.lastCanonical, levels, parents, [], [], values, OrdMap.empty, OrdMap.empty⟩

/-- With no `LAST_CANONICAL`, `new` reads no journal and returns the empty overlay. -/
theorem restore_without_lastCanonical {db : MetaDb H K V} (hdb : db.lastCanonical = none) (fuel : Nat) :
    restore db fuel = .ok NonCanonicalOverlay.empty := by
  simp only [restore, hdb]
  rfl

/-- The genesis block, number 0, inserted into the empty overlay: its commit
writes the journal but no `LAST_CANONICAL`, so after the commit and
`apply_pending` the live overlay holds the block while `new` on the column
rebuilds the empty overlay. -/
theorem restore_loses_genesis_block :
    ∃ commit s s', (NonCanonicalOverlay.empty : NonCanonicalOverlay Nat Nat Nat).insert 1 0 0 .empty =
        .ok (.ok commit, s) ∧ s.applyPending = .ok s' ∧
      (∃ level ∈ s'.levels, ∃ b ∈ level.blocks, b.hash = 1) ∧ s'.parents.contains 1 = true ∧
      ∀ fuel, restore (MetaDb.empty.commit commit.«meta») fuel = .ok NonCanonicalOverlay.empty :=
  ⟨_, _, _, rfl, rfl, by decide, by decide, fun fuel => restore_without_lastCanonical rfl fuel⟩

end StateDb
