import Mathlib

/-!
# The neighbours of an element in a list

A doubly linked list stored node by node stands for the list of its elements:
the node of `a` holds `prevOf l a` and `nextOf l a`.  Here are the two, and how
they change as a linked list does: an element appended
(`nextOf_append_singleton`, `prevOf_append_singleton`) or taken out
(`nextOf_erase`, `prevOf_erase`, with the new ends `head?_erase` and
`getLast?_erase`).  On a list without repeats they are inverse
(`prevOf_of_nextOf`), an element has no successor exactly when last
(`nextOf_eq_none_iff`), and `nextOf` from a place walks the rest of the list
(`nextOf_append_cons`).
-/

namespace Neighbours

variable {α : Type} [DecidableEq α]

/-- The element after the first `a` in `l`. -/
def nextOf : List α → α → Option α
  | [], _ => none
  | x :: l, a => if x = a then l.head? else nextOf l a

/-- The element before the last `a` in `l`. -/
def prevOf (l : List α) (a : α) : Option α := nextOf l.reverse a

@[simp] theorem nextOf_nil (a : α) : nextOf [] a = none := rfl

theorem nextOf_cons (x : α) (l : List α) (a : α) :
    nextOf (x :: l) a = if x = a then l.head? else nextOf l a := rfl

variable {l : List α} {a b x : α}

theorem mem_of_nextOf (h : nextOf l a = some b) : b ∈ l := by
  induction l with
  | nil => cases h
  | cons x l ih =>
    rw [nextOf_cons] at h
    split_ifs at h
    · exact List.mem_cons_of_mem x (List.mem_of_mem_head? h)
    · exact List.mem_cons_of_mem x (ih h)

theorem mem_of_prevOf (h : prevOf l a = some b) : b ∈ l :=
  List.mem_reverse.mp (mem_of_nextOf h)

theorem nextOf_eq_none_of_not_mem (ha : a ∉ l) : nextOf l a = none := by
  induction l with
  | nil => rfl
  | cons x l ih =>
    rw [List.mem_cons, not_or] at ha
    rw [nextOf_cons, if_neg (Ne.symm ha.1), ih ha.2]

/-- Where `a` stands, its successor is the head of what follows it. -/
theorem nextOf_append_cons {pre rest : List α} (ha : a ∉ pre) :
    nextOf (pre ++ a :: rest) a = rest.head? := by
  induction pre with
  | nil => simp [nextOf_cons]
  | cons x pre ih =>
    rw [List.mem_cons, not_or] at ha
    rw [List.cons_append, nextOf_cons, if_neg (Ne.symm ha.1), ih ha.2]

/-! ## Appending at the end -/

theorem nextOf_append_singleton (hl : l.Nodup) (x a : α) :
    nextOf (l ++ [x]) a = if l.getLast? = some a then some x else nextOf l a := by
  induction l with
  | nil =>
    by_cases hx : x = a <;> simp [nextOf_cons, hx]
  | cons y l ih =>
    rw [List.nodup_cons] at hl
    rw [List.cons_append, nextOf_cons, nextOf_cons, ih hl.2]
    by_cases hya : y = a
    · subst hya
      -- `y` is not in `l`, so it is last in `y :: l` only when `l` is empty
      cases l with
      | nil => simp
      | cons z l =>
        have hlast : (z :: l).getLast? ≠ some y := fun h =>
          hl.1 (List.mem_of_getLast? h)
        simp [List.getLast?_cons_cons, hlast]
    · cases l with
      | nil => simp [hya]
      | cons z l => simp [hya, List.getLast?_cons_cons]

theorem prevOf_append_singleton (l : List α) (x a : α) :
    prevOf (l ++ [x]) a = if x = a then l.getLast? else prevOf l a := by
  rw [prevOf, List.reverse_append, List.reverse_singleton, List.singleton_append, nextOf_cons,
    List.head?_reverse, prevOf]

/-! ## Taking an element out -/

theorem nextOf_erase (hl : l.Nodup) (hax : a ≠ x) :
    nextOf (l.erase x) a = if nextOf l a = some x then nextOf l x else nextOf l a := by
  induction l with
  | nil => rfl
  | cons y l ih =>
    rw [List.nodup_cons] at hl
    by_cases hyx : y = x
    · subst hyx
      -- `y` is not in `l`, so no element of `l` has it as successor
      have hnot : nextOf l a ≠ some y := fun h => hl.1 (mem_of_nextOf h)
      rw [List.erase_cons_head, nextOf_cons, if_neg (Ne.symm hax), if_neg hnot]
    · rw [List.erase_cons_tail (by simpa using hyx), nextOf_cons, nextOf_cons, nextOf_cons, if_neg hyx]
      by_cases hya : y = a
      · rw [if_pos hya, if_pos hya]
        cases l with
        | nil => rfl
        | cons z l =>
          by_cases hzx : z = x
          · subst hzx
            simp [nextOf_cons]
          · rw [List.erase_cons_tail (by simpa using hzx)]
            simp [hzx]
      · rw [if_neg hya, if_neg hya, ih hl.2]

theorem reverse_erase_of_nodup (hl : l.Nodup) (x : α) : (l.erase x).reverse = l.reverse.erase x := by
  rw [hl.erase_eq_filter, (List.nodup_reverse.mpr hl).erase_eq_filter, List.filter_reverse]

theorem prevOf_erase (hl : l.Nodup) (hax : a ≠ x) :
    prevOf (l.erase x) a = if prevOf l a = some x then prevOf l x else prevOf l a := by
  rw [prevOf, reverse_erase_of_nodup hl, nextOf_erase (List.nodup_reverse.mpr hl) hax]
  rfl

theorem head?_erase (l : List α) (x : α) : (l.erase x).head? = if l.head? = some x then nextOf l x else l.head? := by
  cases l with
  | nil => rfl
  | cons y l =>
    by_cases hyx : y = x
    · subst hyx
      simp [nextOf_cons]
    · rw [List.erase_cons_tail (by simpa using hyx)]
      simp [hyx]

theorem getLast?_erase (hl : l.Nodup) (x : α) :
    (l.erase x).getLast? = if l.getLast? = some x then prevOf l x else l.getLast? := by
  rw [← List.head?_reverse, reverse_erase_of_nodup hl, head?_erase, List.head?_reverse, prevOf]

/-! ## Ends and inverses -/

/-- Without repeats, `a` has no successor exactly when it is last. -/
theorem nextOf_eq_none_iff (hl : l.Nodup) (ha : a ∈ l) :
    nextOf l a = none ↔ l.getLast? = some a := by
  induction l with
  | nil => cases ha
  | cons y l ih =>
    rw [List.nodup_cons] at hl
    rw [nextOf_cons]
    by_cases hya : y = a
    · subst hya
      cases l with
      | nil => simp
      | cons z l =>
        have hlast : (z :: l).getLast? ≠ some y := fun h => hl.1 (List.mem_of_getLast? h)
        simp [List.getLast?_cons_cons, hlast]
    · have ha' : a ∈ l := (List.mem_cons.mp ha).resolve_left (Ne.symm hya)
      cases l with
      | nil => cases ha'
      | cons z l => rw [if_neg hya, ih hl.2 ha', List.getLast?_cons_cons]

theorem prevOf_eq_none_iff (hl : l.Nodup) (ha : a ∈ l) :
    prevOf l a = none ↔ l.head? = some a := by
  rw [prevOf, nextOf_eq_none_iff (List.nodup_reverse.mpr hl) (List.mem_reverse.mpr ha), List.getLast?_reverse]

theorem nextOf_eq_some_iff (hl : l.Nodup) :
    nextOf l a = some b ↔ ∃ pre rest, l = pre ++ a :: b :: rest := by
  induction l with
  | nil => simp
  | cons y l ih =>
    rw [List.nodup_cons] at hl
    rw [nextOf_cons]
    constructor
    · intro h
      split_ifs at h with hya
      · subst hya
        cases l with
        | nil => cases h
        | cons z l =>
          cases h
          exact ⟨[], l, rfl⟩
      · obtain ⟨pre, rest, rfl⟩ := (ih hl.2).mp h
        exact ⟨y :: pre, rest, rfl⟩
    · rintro ⟨pre, rest, hl'⟩
      cases pre with
      | nil =>
        cases hl'
        simp
      | cons z pre =>
        cases hl'
        have hya : y ≠ a := fun h => hl.1 (h ▸ by simp)
        rw [if_neg hya]
        exact (ih hl.2).mpr ⟨pre, rest, rfl⟩

theorem prevOf_eq_some_iff (hl : l.Nodup) :
    prevOf l b = some a ↔ ∃ pre rest, l = pre ++ a :: b :: rest := by
  rw [prevOf, nextOf_eq_some_iff (List.nodup_reverse.mpr hl)]
  constructor
  · rintro ⟨pre, rest, h⟩
    refine ⟨rest.reverse, pre.reverse, ?_⟩
    rw [← List.reverse_reverse l, h]
    simp
  · rintro ⟨pre, rest, rfl⟩
    exact ⟨rest.reverse, pre.reverse, by simp⟩

theorem prevOf_of_nextOf (hl : l.Nodup) (h : nextOf l a = some b) : prevOf l b = some a :=
  (prevOf_eq_some_iff hl).mpr ((nextOf_eq_some_iff hl).mp h)

theorem nextOf_of_prevOf (hl : l.Nodup) (h : prevOf l b = some a) : nextOf l a = some b :=
  (nextOf_eq_some_iff hl).mpr ((prevOf_eq_some_iff hl).mp h)

theorem nextOf_ne_of_nextOf (hl : l.Nodup) (h : nextOf l a = some b) :
    nextOf l b ≠ some a := by
  obtain ⟨pre, rest, rfl⟩ := (nextOf_eq_some_iff hl).mp h
  have hb : b ∉ pre ++ [a] := by
    intro hb
    rw [List.append_cons pre a (b :: rest)] at hl
    exact (List.nodup_append.mp hl).2.2 b hb b (List.mem_cons_self) rfl
  rw [List.append_cons pre a (b :: rest), nextOf_append_cons hb]
  intro hr
  have ha : a ∈ rest := List.mem_of_mem_head? hr
  have hab := (List.nodup_append.mp hl).2.1
  rw [List.nodup_cons] at hab
  exact hab.1 (List.mem_cons_of_mem b ha)

theorem nextOf_ne_self (hl : l.Nodup) (a : α) : nextOf l a ≠ some a := by
  intro h
  obtain ⟨pre, rest, hl'⟩ := (nextOf_eq_some_iff hl).mp h
  rw [hl'] at hl
  have := (List.nodup_append.mp hl).2.1
  simp at this

theorem prevOf_ne_self (hl : l.Nodup) (a : α) : prevOf l a ≠ some a :=
  nextOf_ne_self (List.nodup_reverse.mpr hl) a

end Neighbours
