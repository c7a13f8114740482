import Mathlib

/-!
# Vectors: `swap_remove` and the remove-by-position idiom

`Vec::swap_remove(i)` removes the element at `i` and moves the last one into
its place; storage code removes a value `a` by `iter().position(|x| *x == a)`
then swap-removing there (`swapRemoveFirst`).  Swap-removing at `i` takes one
copy of `l[i]` away and keeps every other count (`count_swapRemove`), the idiom
takes exactly one copy of `a` when there is one (`count_swapRemoveFirst`), and
up to order swap-removing is `eraseIdx` (`swapRemove_perm_eraseIdx`).
`Vec::pop` is `pop?`.
-/

namespace List

variable {α : Type}

/-- `Vec::swap_remove`: the last element is written over position `i`, then the
last slot is dropped (for `i` the last index, the `set` is a no-op). -/
def swapRemove (l : List α) (i : Nat) : List α :=
  match l.getLast? with
  | none => []
  | some last => l.dropLast.set i last

/-- On a vector split as its first elements and its last, `swap_remove` is one `set`. -/
@[simp] theorem swapRemove_concat (init : List α) (last : α) (i : Nat) :
    (init ++ [last]).swapRemove i = init.set i last := by
  simp [swapRemove]

theorem length_swapRemove (l : List α) (i : Nat) (hi : i < l.length) :
    (l.swapRemove i).length = l.length - 1 := by
  cases h : l.getLast? with
  | none => simp_all
  | some last => simp [swapRemove, h]

variable {i : Nat} {l : List α} {a : α}

theorem sum_map_snd_modify (l : List (α × Nat)) (hi : i < l.length) (v : Nat) :
    ((l.modify i fun x => (x.1, v)).map Prod.snd).sum + l[i].2 = (l.map Prod.snd).sum + v := by
  induction l generalizing i with
  | nil => simp at hi
  | cons x l ih =>
    cases i with
    | zero => simp; omega
    | succ i =>
      have h := ih (i := i) (by simpa using hi)
      simp only [modify_succ_cons, map_cons, sum_cons, getElem_cons_succ]
      omega

theorem Nodup.append_singleton (h : l.Nodup) (ha : a ∉ l) :
    (l ++ [a]).Nodup := by
  rw [nodup_append]
  exact ⟨h, nodup_singleton a, fun b hb c hc hbc => ha (by simp_all)⟩

/-- Swap-removing at `i` keeps the other elements, the last one moved into place `i`. -/
theorem swapRemove_perm_eraseIdx (l : List α) (hi : i < l.length) :
    l.swapRemove i ~ l.eraseIdx i := by
  rcases eq_nil_or_concat l with rfl | ⟨init, last, rfl⟩
  · simp at hi
  rw [concat_eq_append, swapRemove_concat]
  rcases Nat.lt_or_ge i init.length with h | h
  · -- the last element overwrites position `i`; on the right it stays at the end
    rw [set_eq_take_append_cons_drop, if_pos h, eraseIdx_eq_take_drop_succ,
      take_append_of_le_length (Nat.le_of_lt h), drop_append_of_le_length h]
    exact ((perm_append_singleton _ _).symm).append_left _
  · -- `i` is the last index
    have hi' : i = init.length := by simp at hi; omega
    subst hi'
    rw [set_eq_of_length_le (Nat.le_refl _), eraseIdx_append_of_length_le (Nat.le_refl _)]
    simp

theorem drop_swapRemove_perm (l : List α) (hi : i < l.length) :
    (l.swapRemove i).drop i ~ l.drop (i + 1) := by
  rcases eq_nil_or_concat l with rfl | ⟨init, last, rfl⟩
  · simp at hi
  rw [concat_eq_append, swapRemove_concat]
  rcases Nat.lt_or_ge i init.length with h | h
  · rw [set_eq_take_append_cons_drop, if_pos h, drop_left' (length_take_of_le (Nat.le_of_lt h)),
      drop_append_of_le_length h]
    exact (perm_append_singleton _ _).symm
  · have hi' : i = init.length := by simp at hi; omega
    subst hi'
    simp

theorem take_swapRemove (l : List α) (hi : i < l.length) : (l.swapRemove i).take i = l.take i := by
  rcases eq_nil_or_concat l with rfl | ⟨init, last, rfl⟩
  · simp at hi
  have hle : i ≤ init.length := by simp at hi; omega
  rw [concat_eq_append, swapRemove_concat]
  rw [take_set_of_le (Nat.le_refl i), take_append_of_le_length hle]

theorem mem_of_mem_swapRemove (hi : i < l.length) (ha : a ∈ l.swapRemove i) :
    a ∈ l :=
  (eraseIdx_sublist l i).subset ((swapRemove_perm_eraseIdx l hi).subset ha)

theorem Pairwise.swapRemove {R : α → α → Prop} (hsymm : ∀ {a b}, R a b → R b a)
    (hl : l.Pairwise R) (hi : i < l.length) : (l.swapRemove i).Pairwise R :=
  ((swapRemove_perm_eraseIdx l hi).pairwise_iff hsymm).mpr (hl.sublist (eraseIdx_sublist l i))

theorem Pairwise.rel_of_mem_swapRemove {R : α → α → Prop} (hsymm : ∀ {a b}, R a b → R b a)
    (hl : l.Pairwise R) (hi : i < l.length) (ha : a ∈ l.swapRemove i) :
    R a l[i] := by
  have hsplit : l = l.take i ++ l[i] :: l.drop (i + 1) := by
    rw [← drop_eq_getElem_cons hi, take_append_drop]
  have ha' : a ∈ l.take i ++ l.drop (i + 1) := by
    rw [← eraseIdx_eq_take_drop_succ]
    exact (swapRemove_perm_eraseIdx l hi).subset ha
  rw [hsplit, pairwise_append] at hl
  rcases mem_append.mp ha' with ha' | ha'
  · -- before position `i`
    exact hl.2.2 a ha' l[i] mem_cons_self
  · -- after it
    exact hsymm ((pairwise_cons.mp hl.2.1).1 a ha')

/-! ## `pop` -/

/-- `Vec::pop`: the last element, and what is left. -/
def pop? {β : Type} (l : List β) : Option (β × List β) := l.getLast?.map fun a => (a, l.dropLast)

@[simp] theorem pop?_nil : ([] : List α).pop? = none := rfl

@[simp] theorem pop?_concat (l : List α) (a : α) : (l ++ [a]).pop? = some (a, l) := by
  simp [pop?]

theorem eq_nil_or_concat_pop? (l : List α) : l = [] ∨ ∃ l' a, l = l' ++ [a] ∧ l.pop? = some (a, l') := by
  rcases l.eq_nil_or_concat with h | ⟨l', a, h⟩
  · exact .inl h
  · rw [concat_eq_append] at h
    exact .inr ⟨l', a, h, by rw [h, pop?_concat]⟩

/-! ## Removing a value by its position -/

section Position

variable [BEq α] [LawfulBEq α]

/-- `if let Some(i) = v.iter().position(|x| *x == a) { v.swap_remove(i) }`. -/
def swapRemoveFirst (a : α) (l : List α) : List α :=
  match l.idxOf? a with
  | some i => l.swapRemove i
  | none => l

theorem count_swapRemove (l : List α) (i : Nat) (hi : i < l.length) (b : α) :
    (l.swapRemove i).count b = l.count b - (if l[i] == b then 1 else 0) := by
  rcases eq_nil_or_concat l with rfl | ⟨init, last, rfl⟩
  · simp at hi
  simp only [concat_eq_append, swapRemove_concat, count_append, count_singleton]
  rcases Nat.lt_or_ge i init.length with h | h
  · -- the last element overwrites position `i`
    rw [count_set h, getElem_append_left h]
    have : (if init[i] == b then 1 else 0) ≤ init.count b := by
      split
      · rename_i hb
        rw [beq_iff_eq] at hb
        subst hb; exact count_pos_iff.mpr (getElem_mem h)
      · omega
    split_ifs at this ⊢ <;> omega
  · -- `i` is the last index: the set is out of range and only the drop acts
    have hi' : i = init.length := by simp at hi; omega
    subst hi'
    rw [set_eq_of_length_le (Nat.le_refl _), getElem_append_right (Nat.le_refl _)]
    simp only [Nat.sub_self, getElem_cons_zero]
    split <;> omega

/-- The remove-by-position idiom removes one copy of `a`, if `a` is there, and
touches no other value. -/
theorem count_swapRemoveFirst (a b : α) (l : List α) :
    (l.swapRemoveFirst a).count b = l.count b - (if (a == b) = true ∧ a ∈ l then 1 else 0) := by
  unfold swapRemoveFirst
  cases h : l.idxOf? a with
  | none =>
    have ha : a ∉ l := by simpa using h
    simp [ha]
  | some i =>
    obtain ⟨hi, hia, -⟩ := idxOf?_eq_some_iff.mp h
    have ha : a ∈ l := hia ▸ getElem_mem hi
    rw [count_swapRemove l i hi, hia]
    simp only [ha, and_true]

theorem length_swapRemoveFirst_le (a : α) (l : List α) : (l.swapRemoveFirst a).length ≤ l.length := by
  unfold swapRemoveFirst
  cases h : l.idxOf? a with
  | none => exact Nat.le_refl _
  | some i =>
    obtain ⟨hi, -, -⟩ := idxOf?_eq_some_iff.mp h
    rw [length_swapRemove l i hi]
    exact Nat.sub_le _ _

theorem count_swapRemoveFirst_self (a : α) (l : List α) :
    (l.swapRemoveFirst a).count a = l.count a - 1 := by
  rw [count_swapRemoveFirst]
  by_cases ha : a ∈ l
  · simp [ha]
  · simp [ha, count_eq_zero_of_not_mem ha]

variable {l : List α} {a b : α}

theorem count_swapRemoveFirst_of_ne (l : List α) (h : a ≠ b) :
    (l.swapRemoveFirst a).count b = l.count b := by
  simp [count_swapRemoveFirst, h]

theorem mem_swapRemoveFirst_of_ne (h : a ≠ b) :
    b ∈ l.swapRemoveFirst a ↔ b ∈ l := by
  simp only [← count_pos_iff, count_swapRemoveFirst_of_ne l h]

theorem Nodup.swapRemoveFirst (h : l.Nodup) (a : α) :
    (l.swapRemoveFirst a).Nodup := by
  rw [nodup_iff_count_le_one] at h ⊢
  intro b
  rw [count_swapRemoveFirst]
  exact Nat.le_trans (Nat.sub_le _ _) (h b)

theorem not_mem_swapRemoveFirst (h : l.Nodup) (a : α) :
    a ∉ l.swapRemoveFirst a := by
  rw [← count_pos_iff, count_swapRemoveFirst_self, h.count]
  split <;> omega

end Position

end List

/-! ## Bounded vectors

`BoundedVec<T, S>` holds at most `S::get()` elements: the bound is a field of
the value, so no bounded vector beyond it can be built.  A `Vec` becomes one by
`try_into`, which fails past the bound (`tryFrom`), and `try_push` adds an
element while there is room. -/

/-- A vector of at most `bound` elements. -/
structure BoundedVec (α : Type) (bound : Nat) where
  val : List α
  length_le : val.length ≤ bound
  deriving DecidableEq

namespace BoundedVec

variable {α : Type} {bound : Nat}

/-- `BoundedVec::default()`. -/
def empty : BoundedVec α bound := ⟨[], Nat.zero_le _⟩

/-- `TryFrom<Vec<T>>`. -/
def tryFrom (l : List α) : Option (BoundedVec α bound) :=
  if h : l.length ≤ bound then some ⟨l, h⟩ else none

/-- `try_push`: the element is pushed if the vector is below its bound. -/
def tryPush (v : BoundedVec α bound) (a : α) : Option (BoundedVec α bound) :=
  if h : v.val.length < bound then some ⟨v.val ++ [a], by simp only [List.length_append, List.length_singleton]; omega⟩
  else none

@[simp] theorem empty_val : (empty : BoundedVec α bound).val = [] := rfl

variable {v : BoundedVec α bound} {l : List α}

theorem tryFrom_eq_some_iff : tryFrom l = some v ↔ v.val = l := by
  unfold tryFrom
  split_ifs with h
  · exact ⟨fun e => by cases e; rfl, fun e => by cases v; cases e; rfl⟩
  · refine ⟨nofun, fun e => absurd (e ▸ v.length_le) h⟩

theorem tryFrom_eq_none_iff : (tryFrom l : Option (BoundedVec α bound)) = none ↔ bound < l.length := by
  unfold tryFrom
  split_ifs with h
  · simp only [false_iff, Nat.not_lt]
    exact h
  · simp only [true_iff]
    omega

theorem tryPush_eq_some_iff {v w : BoundedVec α bound} {a : α} :
    v.tryPush a = some w ↔ v.val.length < bound ∧ w.val = v.val ++ [a] := by
  unfold tryPush
  split_ifs with h
  · exact ⟨fun e => by cases e; exact ⟨h, rfl⟩, fun ⟨_, e⟩ => by cases w; cases e; rfl⟩
  · exact ⟨nofun, fun ⟨h', _⟩ => absurd h' h⟩

theorem tryPush_eq_none_iff {a : α} : v.tryPush a = none ↔ bound ≤ v.val.length := by
  unfold tryPush
  split_ifs with h
  · simp only [false_iff, Nat.not_le]
    exact h
  · simp only [true_iff]
    omega

end BoundedVec
