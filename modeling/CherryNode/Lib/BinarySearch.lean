import Mathlib

/-!
# Binary search over a sorted slice

`slice::binary_search_by` as the standard library of the pinned toolchain
writes it: a half-open window `[left, right)` shrinks around its midpoint
until the probe compares `Equal` (`Ok(mid)`) or the window is empty
(`Err(left)`); `binary_search(x)` probes with `compare · x`.

On a strictly sorted list the search finds exactly the members, and on a
miss the window closes where `x` belongs, so `Vec::insert` there keeps the
list sorted (`pairwise_insertIdx_of_binarySearch`).  The proof is the loop
invariant `Window`: everything before the window is below `x`, everything
after it above.
-/

namespace Slice

variable {α : Type}

/-- The `while left < right` loop of `binary_search_by`; `size` is `right - left`. -/
def binarySearchLoop (xs : List α) (f : α → Ordering) (left right : Nat) : Except Nat Nat :=
  if left < right then
    let mid := left + (right - left) / 2
    -- `get_unchecked(mid)`: `mid < right ≤ len` on every window the search opens
    match xs[mid]? with
    | none => .error left
    | some y =>
      match f y with
      | .lt => binarySearchLoop xs f (mid + 1) right
      | .gt => binarySearchLoop xs f left mid
      | .eq => .ok mid
  else .error left
termination_by right - left

/-- `binary_search_by`: `Ok` with an index the probe found `Equal`, or `Err`
with the place the window closed at. -/
def binarySearchBy (xs : List α) (f : α → Ordering) : Except Nat Nat :=
  binarySearchLoop xs f 0 xs.length

/-- `partition_point(pred)`: `binary_search_by` with a probe that never
answers `Equal`, so the place its window closes at. -/
def partitionPoint (xs : List α) (pred : α → Bool) : Nat :=
  match binarySearchBy xs (fun x => if pred x then .lt else .gt) with
  | .ok i => i
  | .error i => i

/-- `binary_search(x)`. -/
def binarySearch [LinearOrder α] (xs : List α) (x : α) : Except Nat Nat :=
  binarySearchBy xs fun y => compare y x

example : binarySearch [1, 3, 5, 7] 5 = .ok 2 := by
  simp [binarySearch, binarySearchBy, binarySearchLoop, compare, compareOfLessAndEq]

example : binarySearch [1, 3, 5, 7] 4 = .error 2 := by
  simp [binarySearch, binarySearchBy, binarySearchLoop, compare, compareOfLessAndEq]

variable {β : Type}

theorem binarySearchLoop_map (g : α → β) (f : β → Ordering) (xs : List α) (left right : Nat) :
    binarySearchLoop (xs.map g) f left right = binarySearchLoop xs (fun y => f (g y)) left right := by
  fun_induction binarySearchLoop xs (fun y => f (g y)) left right with
  | case1 left right hlt mid hnone =>
    rw [binarySearchLoop, if_pos hlt]
    simp only [List.getElem?_map]
    rw [hnone]
    rfl
  | case2 left right hlt mid y hy hcmp ih =>
    rw [binarySearchLoop, if_pos hlt]
    simp only [List.getElem?_map]
    rw [hy]
    simp only [Option.map_some]
    rw [hcmp]
    exact ih
  | case3 left right hlt mid y hy hcmp ih =>
    rw [binarySearchLoop, if_pos hlt]
    simp only [List.getElem?_map]
    rw [hy]
    simp only [Option.map_some]
    rw [hcmp]
    exact ih
  | case4 left right hlt mid y hy hcmp =>
    rw [binarySearchLoop, if_pos hlt]
    simp only [List.getElem?_map]
    rw [hy]
    simp only [Option.map_some]
    rw [hcmp]
  | case5 left right hge =>
    rw [binarySearchLoop, if_neg hge]

theorem binarySearchBy_map (g : α → β) (f : β → Ordering) (xs : List α) :
    binarySearchBy (xs.map g) f = binarySearchBy xs (fun y => f (g y)) := by
  rw [binarySearchBy, binarySearchBy, List.length_map, binarySearchLoop_map]

/-! ## The window invariant -/

section Window

variable [LinearOrder α] {xs : List α} {x : α}

/-- The window `[left, right)` of a search for `x`. -/
structure Window (xs : List α) (x : α) (left right : Nat) : Prop where
  le : left ≤ right
  right_le : right ≤ xs.length
  below : ∀ j a, j < left → xs[j]? = some a → a < x
  above : ∀ j a, right ≤ j → xs[j]? = some a → x < a

theorem Window.init (xs : List α) (x : α) : Window xs x 0 xs.length where
  le := Nat.zero_le _
  right_le := Nat.le_refl _
  below _ _ hj := absurd hj (Nat.not_lt_zero _)
  above j a hj h := by
    rw [List.getElem?_eq_none hj] at h
    cases h

theorem lt_of_getElem?_of_pairwise (hs : xs.Pairwise (· < ·)) {i j : Nat} {a b : α} (hij : i < j)
    (ha : xs[i]? = some a) (hb : xs[j]? = some b) : a < b := by
  obtain ⟨hi, rfl⟩ := List.getElem?_eq_some_iff.mp ha
  obtain ⟨hj, rfl⟩ := List.getElem?_eq_some_iff.mp hb
  exact List.pairwise_iff_getElem.mp hs i j hi hj hij

variable {left right mid : Nat}

theorem Window.probe_lt (hs : xs.Pairwise (· < ·)) {y : α}
    (hw : Window xs x left right) (hmid : left ≤ mid) (hlt : mid < right) (hy : xs[mid]? = some y)
    (hyx : y < x) : Window xs x (mid + 1) right where
  le := hlt
  right_le := hw.right_le
  below j a hj ha := by
    rcases Nat.lt_or_ge j mid with hj' | hj'
    · exact lt_trans (lt_of_getElem?_of_pairwise hs hj' ha hy) hyx
    · have hjm : j = mid := by omega
      subst hjm
      rw [hy] at ha
      cases ha
      exact hyx
  above := hw.above

theorem Window.probe_gt (hs : xs.Pairwise (· < ·)) {y : α}
    (hw : Window xs x left right) (hmid : left ≤ mid) (hy : xs[mid]? = some y) (hxy : x < y) :
    Window xs x left mid where
  le := hmid
  right_le := by
    have := (List.getElem?_eq_some_iff.mp hy).1
    omega
  below := hw.below
  above j a hj ha := by
    rcases Nat.lt_or_ge mid j with hj' | hj'
    · exact lt_trans hxy (lt_of_getElem?_of_pairwise hs hj' hy ha)
    · have hjm : j = mid := by omega
      subst hjm
      rw [hy] at ha
      cases ha
      exact hxy

theorem Window.not_mem {p : Nat} (hw : Window xs x p p) : x ∉ xs := by
  intro hx
  obtain ⟨j, hj⟩ := List.mem_iff_getElem?.mp hx
  rcases Nat.lt_or_ge j p with hjp | hjp
  · exact lt_irrefl x (hw.below j x hjp hj)
  · exact lt_irrefl x (hw.above j x hjp hj)

theorem binarySearchLoop_spec (hs : xs.Pairwise (· < ·)) {left right : Nat} (hw : Window xs x left right) :
    match binarySearchLoop xs (fun y => compare y x) left right with
    | .ok i => xs[i]? = some x
    | .error p => Window xs x p p := by
  fun_induction binarySearchLoop xs (fun y => compare y x) left right with
  | case1 left right hlt mid hnone =>
    -- an open window has its midpoint inside the list
    have : mid < xs.length := by have := hw.right_le; omega
    rw [List.getElem?_eq_getElem this] at hnone
    cases hnone
  | case2 left right hlt mid y hy hcmp ih =>
    exact ih (hw.probe_lt hs (by omega) (by omega) hy (compare_lt_iff_lt.mp hcmp))
  | case3 left right hlt mid y hy hcmp ih =>
    exact ih (hw.probe_gt hs (by omega) hy (compare_gt_iff_gt.mp hcmp))
  | case4 left right hlt mid y hy hcmp =>
    rw [← compare_eq_iff_eq.mp hcmp]
    exact hy
  | case5 left right hge =>
    have hlr : left = right := Nat.le_antisymm hw.le (Nat.le_of_not_lt hge)
    subst hlr
    exact hw

end Window

theorem pairwise_insertIdx {R : α → α → Prop} {x : α} :
    ∀ {xs : List α} {p : Nat}, xs.Pairwise R → (∀ a ∈ xs.take p, R a x) → (∀ b ∈ xs.drop p, R x b) →
      (xs.insertIdx p x).Pairwise R
  | xs, 0, hs, _, hafter => by
    rw [List.insertIdx_zero]
    exact List.pairwise_cons.mpr ⟨hafter, hs⟩
  | [], _ + 1, _, _, _ => List.Pairwise.nil
  | y :: ys, p + 1, hs, hbefore, hafter => by
    rw [List.insertIdx_succ_cons]
    obtain ⟨hy, hys⟩ := List.pairwise_cons.mp hs
    refine List.pairwise_cons.mpr ⟨fun b hb => ?_, pairwise_insertIdx hys ?_ ?_⟩
    · rcases List.eq_or_mem_of_mem_insertIdx hb with rfl | hb
      · exact hbefore y (by simp)
      · exact hy b hb
    · exact fun a ha => hbefore a (by simp [ha])
    · exact fun b hb => hafter b (by simpa using hb)

/-! ## What the search returns -/

section Spec

variable [LinearOrder α] {xs : List α} {x : α}

theorem binarySearch_spec (hs : xs.Pairwise (· < ·)) :
    match binarySearch xs x with
    | .ok i => xs[i]? = some x
    | .error p => Window xs x p p :=
  binarySearchLoop_spec hs (Window.init xs x)

variable {p : Nat}

theorem not_mem_of_binarySearch_eq_error (hs : xs.Pairwise (· < ·))
    (h : binarySearch xs x = .error p) : x ∉ xs := by
  have := binarySearch_spec (x := x) hs
  rw [h] at this
  exact this.not_mem

theorem binarySearch_eq_ok_of_mem (hs : xs.Pairwise (· < ·)) (hx : x ∈ xs) :
    ∃ i, binarySearch xs x = .ok i := by
  cases h : binarySearch xs x with
  | ok i => exact ⟨i, rfl⟩
  | error p => exact absurd hx (not_mem_of_binarySearch_eq_error hs h)

theorem Window.pairwise_insertIdx (hs : xs.Pairwise (· < ·)) (hw : Window xs x p p) :
    (xs.insertIdx p x).Pairwise (· < ·) := by
  refine Slice.pairwise_insertIdx hs (fun a ha => ?_) (fun b hb => ?_)
  · obtain ⟨j, hj, rfl⟩ := List.mem_take_iff_getElem.mp ha
    exact hw.below j _ (by omega) (List.getElem?_eq_getElem _)
  · obtain ⟨j, hj, rfl⟩ := List.mem_drop_iff_getElem.mp hb
    exact hw.above (p + j) _ (Nat.le_add_right p j) (List.getElem?_eq_getElem _)

/-- `insert(pos, x)` at the place a missed search returns keeps the list sorted. -/
theorem pairwise_insertIdx_of_binarySearch (hs : xs.Pairwise (· < ·))
    (h : binarySearch xs x = .error p) : (xs.insertIdx p x).Pairwise (· < ·) := by
  have := binarySearch_spec (x := x) hs
  rw [h] at this
  exact this.pairwise_insertIdx hs

theorem le_length_of_binarySearch_eq_error (hs : xs.Pairwise (· < ·))
    (h : binarySearch xs x = .error p) : p ≤ xs.length := by
  have := binarySearch_spec (x := x) hs
  rw [h] at this
  exact this.right_le

theorem binarySearch_position (hs : xs.Pairwise (· < ·)) {i : Nat} {a : α} (ha : xs[i]? = some a)
    (hxa : x ≤ a) (hbefore : ∀ j b, j < i → xs[j]? = some b → b < x) :
    (match binarySearch xs x with
      | .ok p => p
      | .error p => p) = i := by
  have hspec := binarySearch_spec (x := x) hs
  cases h : binarySearch xs x with
  | ok p =>
    rw [h] at hspec
    show p = i
    rcases lt_trichotomy p i with hp | hp | hp
    · exact absurd (hbefore p x hp hspec) (lt_irrefl x)
    · exact hp
    · exact absurd (lt_of_getElem?_of_pairwise hs hp ha hspec) (not_lt.mpr hxa)
  | error p =>
    rw [h] at hspec
    show p = i
    rcases lt_trichotomy p i with hp | hp | hp
    · -- below `i` every element is below `x`, but the window closed at `p` has it above
      have hpl : p < xs.length := lt_trans hp (List.getElem?_eq_some_iff.mp ha).1
      have hb := List.getElem?_eq_getElem hpl
      exact absurd (hspec.above p _ (Nat.le_refl p) hb) (not_lt.mpr (le_of_lt (hbefore p _ hp hb)))
    · exact hp
    · exact absurd (hspec.below i a hp ha) (not_lt.mpr hxa)

end Spec

end Slice
