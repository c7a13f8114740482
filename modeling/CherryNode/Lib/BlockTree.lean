import Mathlib

/-!
# Block trees

The blocks of a chain with forks form a tree: every block but the first has one
parent, of a smaller number.  `anc a b` says `a` is a strict ancestor of `b`;
it is transitive and numbers grow along it.  That the blocks form a tree, not a
DAG, is `chain`: two ancestors of one block are equal or one is an ancestor of
the other.  Blocks on different forks are `Independent`; two blocks each the
same as or an ancestor of one block never are
(`not_independent_of_ancOrSelf`), and a descendant of one of two independent
blocks is independent of the other (`Independent.anc_right`).
-/

/-- The ancestry of a tree of blocks, with each block's number. -/
structure BlockTree (H N : Type) [Preorder N] where
  anc : H → H → Prop
  [decAnc : DecidableRel anc]
  num : H → N
  anc_trans : ∀ {a b c}, anc a b → anc b c → anc a c
  num_lt : ∀ {a b}, anc a b → num a < num b
  chain : ∀ {a b c}, anc a c → anc b c → a = b ∨ anc a b ∨ anc b a

namespace BlockTree

attribute [instance] BlockTree.decAnc

variable {H N : Type} [Preorder N] (B : BlockTree H N) {a b c : H}

theorem anc_irrefl (a : H) : ¬ B.anc a a := fun h => lt_irrefl _ (B.num_lt h)

theorem ne_of_anc (h : B.anc a b) : a ≠ b := by
  rintro rfl
  exact B.anc_irrefl a h

theorem not_anc_of_anc (h : B.anc a b) : ¬ B.anc b a := fun h' => B.anc_irrefl a (B.anc_trans h h')

/-- `a` is `b` or an ancestor of it. -/
def AncOrSelf (a b : H) : Prop := a = b ∨ B.anc a b

instance [DecidableEq H] (a b : H) : Decidable (B.AncOrSelf a b) :=
  inferInstanceAs (Decidable (a = b ∨ B.anc a b))

/-- On different forks: distinct, and neither an ancestor of the other. -/
def Independent (a b : H) : Prop := a ≠ b ∧ ¬ B.anc a b ∧ ¬ B.anc b a

variable {B}

theorem AncOrSelf.refl (a : H) : B.AncOrSelf a a := .inl rfl

theorem AncOrSelf.anc_trans (h : B.anc a b) (h' : B.AncOrSelf b c) : B.anc a c := by
  rcases h' with rfl | h'
  · exact h
  · exact B.anc_trans h h'

theorem AncOrSelf.trans (h : B.AncOrSelf a b) (h' : B.AncOrSelf b c) : B.AncOrSelf a c := by
  rcases h with rfl | h
  · exact h'
  · exact .inr (AncOrSelf.anc_trans h h')

theorem AncOrSelf.num_le (h : B.AncOrSelf a b) : B.num a ≤ B.num b := by
  rcases h with rfl | h
  · exact le_refl _
  · exact le_of_lt (B.num_lt h)

theorem Independent.symm (h : B.Independent a b) : B.Independent b a :=
  ⟨h.1.symm, h.2.2, h.2.1⟩

/-- Two blocks that are each a block or an ancestor of it are on one fork. -/
theorem not_independent_of_ancOrSelf (ha : B.AncOrSelf a c) (hb : B.AncOrSelf b c) :
    ¬ B.Independent a b := by
  rintro ⟨hne, hab, hba⟩
  rcases ha with rfl | ha
  · rcases hb with rfl | hb
    · exact hne rfl
    · exact hba hb
  · rcases hb with rfl | hb
    · exact hab ha
    · rcases B.chain ha hb with h | h | h
      · exact hne h
      · exact hab h
      · exact hba h

/-- A descendant of one of two independent blocks is independent of the other. -/
theorem Independent.anc_right (hind : B.Independent a b) (h : B.anc b c) : B.Independent a c := by
  obtain ⟨hne, hab, hba⟩ := hind
  refine ⟨?_, ?_, ?_⟩
  · -- `a = c` would make `b` an ancestor of `a`
    rintro rfl
    exact hba h
  · -- two ancestors of `c`: related, or equal
    intro hac
    rcases B.chain hac h with h' | h' | h'
    · exact hne h'
    · exact hab h'
    · exact hba h'
  · intro hca
    exact hba (B.anc_trans h hca)

theorem Independent.off_branch (hind : B.Independent a b) (ha : B.AncOrSelf a c) :
    ¬ B.AncOrSelf b c ∧ ¬ B.anc c b :=
  ⟨fun hb => not_independent_of_ancOrSelf ha hb hind,
    fun hcb => not_independent_of_ancOrSelf (ha.trans (.inr hcb)) (AncOrSelf.refl b) hind⟩

end BlockTree
