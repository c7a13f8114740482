import Mathlib

/-!
# Intrusive singly linked lists

A list threaded through a store read by `next`: `next a = some n` says `a`
holds a node linking to `n` (`none` ends the list), `next a = none` that it
holds none.  `Chain next h l` says following links from `h` visits exactly
`l`, in order, and reaches the end.  The nodes are determined by the head
(`Chain.unique`) and none is visited twice (`Chain.nodup`); a store change that
keeps what the nodes hold keeps the list (`Chain.congr`), so pushing is
`Chain.cons` and popping is `Chain.some_iff`.
-/

variable {α : Type}

/-- Following the links of `next` from `h` visits the nodes `l` and ends. -/
inductive Chain (next : α → Option (Option α)) : Option α → List α → Prop
  | nil : Chain next none []
  | cons {a : α} {n : Option α} {l : List α} : next a = some n → Chain next n l → Chain next (some a) (a :: l)

namespace Chain

variable {next next' : α → Option (Option α)} {h : Option α} {l l₁ l₂ : List α} {a : α}

theorem none_iff : Chain next none l ↔ l = [] := by
  constructor
  · rintro ⟨⟩
    rfl
  · rintro rfl
    exact .nil

theorem some_iff : Chain next (some a) l ↔ ∃ n t, l = a :: t ∧ next a = some n ∧ Chain next n t := by
  constructor
  · rintro (_ | ⟨hn, ht⟩)
    exact ⟨_, _, rfl, hn, ht⟩
  · rintro ⟨n, t, rfl, hn, ht⟩
    exact .cons hn ht

/-- The nodes are determined by the head. -/
theorem unique (h₁ : Chain next h l₁) (h₂ : Chain next h l₂) : l₁ = l₂ := by
  induction h₁ generalizing l₂ with
  | nil => exact (none_iff.mp h₂).symm
  | cons hn _ ih =>
    obtain ⟨n', t, rfl, hn', ht⟩ := some_iff.mp h₂
    rw [hn] at hn'
    cases hn'
    rw [ih ht]

theorem suffix_of_mem (hc : Chain next h l) {b : α} (hb : b ∈ l) : ∃ t, Chain next (some b) t ∧ t <:+ l := by
  induction hc with
  | nil => cases hb
  | @cons a n l hn ht ih =>
    rcases List.mem_cons.mp hb with rfl | hb
    · exact ⟨_, .cons hn ht, List.suffix_refl _⟩
    · obtain ⟨t, hbt, hsuf⟩ := ih hb
      exact ⟨t, hbt, hsuf.trans (List.suffix_cons a l)⟩

/-- **A list that ends is acyclic**: no node is visited twice. -/
theorem nodup (hc : Chain next h l) : l.Nodup := by
  induction hc with
  | nil => exact List.nodup_nil
  | @cons a n l hn ht ih =>
    refine List.nodup_cons.mpr ⟨fun ha => ?_, ih⟩
    -- from `a` again the links would visit a suffix of `l`, shorter than `a :: l`
    obtain ⟨t, hat, hsuf⟩ := ht.suffix_of_mem ha
    have heq : t = a :: l := unique hat (.cons hn ht)
    have hlen := hsuf.length_le
    rw [heq, List.length_cons] at hlen
    omega

theorem next_of_mem (hc : Chain next h l) {b : α} (hb : b ∈ l) : ∃ n, next b = some n := by
  obtain ⟨t, hbt, -⟩ := hc.suffix_of_mem hb
  obtain ⟨n, -, -, hn, -⟩ := some_iff.mp hbt
  exact ⟨n, hn⟩

theorem head_mem (hc : Chain next (some a) l) : a ∈ l := by
  obtain ⟨_, _, rfl, _, _⟩ := some_iff.mp hc
  exact List.mem_cons_self

/-- A store that holds the same at every node holds the same list. -/
theorem congr (hc : Chain next h l) (heq : ∀ b ∈ l, next' b = next b) : Chain next' h l := by
  induction hc with
  | nil => exact .nil
  | @cons a n l hn _ ih =>
    refine .cons ((heq a List.mem_cons_self).trans hn) (ih fun b hb => heq b (List.mem_cons_of_mem a hb))

end Chain
