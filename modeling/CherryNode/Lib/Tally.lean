import Mathlib

/-!
# Tallies: per-key sums of weighted items

`tally key weight l c` is the total weight of the items of `l` whose key is
`c`.  A ledger that keeps, for each key, an accumulator equal to what other
lists contribute plus the tally of one list stays exact when one item of that
list changes its weight and the accumulator at its key moves by the same
amount (`tally_replace`).  When the keys of a list are distinct, a key's tally
is the weight of its one item (`tally_of_mem`), and the tallies of distinct
keys add up to at most the total weight (`sum_tally_le`).
-/

namespace Tally

variable {ι α : Type} [DecidableEq ι] (key : α → ι) (weight : α → Nat)

/-- The total weight of the items of `l` at key `c`. -/
def tally (l : List α) (c : ι) : Nat := ((l.filter (key · = c)).map weight).sum

@[simp] theorem tally_nil (c : ι) : tally key weight [] c = 0 := rfl

theorem tally_cons (x : α) (l : List α) (c : ι) :
    tally key weight (x :: l) c = (if key x = c then weight x else 0) + tally key weight l c := by
  unfold tally
  by_cases h : key x = c <;> simp [h]

theorem tally_append (l₁ l₂ : List α) (c : ι) :
    tally key weight (l₁ ++ l₂) c = tally key weight l₁ c + tally key weight l₂ c := by
  simp [tally, List.filter_append]

theorem tally_eq_zero (l : List α) (c : ι) (h : ∀ x ∈ l, key x ≠ c) : tally key weight l c = 0 := by
  induction l with
  | nil => rfl
  | cons x l ih =>
    rw [tally_cons, if_neg (h x List.mem_cons_self), ih fun y hy => h y (List.mem_cons_of_mem x hy)]

/-- Replacing one item by one at the same key moves the tally at that key by
the change of weight, and nowhere else. -/
theorem tally_replace (l₁ l₂ : List α) {x x' : α} (hk : key x' = key x) (c : ι) :
    tally key weight (l₁ ++ x' :: l₂) c + (if key x = c then weight x else 0) =
      tally key weight (l₁ ++ x :: l₂) c + (if key x = c then weight x' else 0) := by
  rw [tally_append, tally_append, tally_cons, tally_cons, hk]
  split_ifs <;> omega

theorem tally_filter_pos (l : List α) (c : ι) :
    tally key weight (l.filter fun x => 0 < weight x) c = tally key weight l c := by
  induction l with
  | nil => rfl
  | cons x l ih =>
    rw [List.filter_cons, tally_cons]
    split
    · rw [tally_cons, ih]
    · rename_i hx
      rw [ih, show weight x = 0 by simpa using hx]
      simp

variable {key weight}

variable {l : List α}

/-- With distinct keys, a key's tally is the weight of its item. -/
theorem tally_of_mem (hnd : (l.map key).Nodup) {x : α} (hx : x ∈ l) :
    tally key weight l (key x) = weight x := by
  induction l with
  | nil => cases hx
  | cons y l ih =>
    rw [List.map_cons, List.nodup_cons] at hnd
    rw [tally_cons]
    rcases List.mem_cons.mp hx with rfl | hx
    · have hrest : ∀ z ∈ l, key z ≠ key x := fun z hz hzk => hnd.1 (hzk ▸ List.mem_map_of_mem hz)
      rw [if_pos rfl, tally_eq_zero key weight l _ hrest, Nat.add_zero]
    · have hne : key y ≠ key x := fun h => hnd.1 (h ▸ List.mem_map_of_mem hx)
      rw [if_neg hne, ih hnd.2 hx, Nat.zero_add]

theorem tally_le (hnd : (l.map key).Nodup) {B : Nat} (hle : ∀ x ∈ l, weight x ≤ B) (c : ι) :
    tally key weight l c ≤ B := by
  by_cases hc : ∃ x ∈ l, key x = c
  · obtain ⟨x, hx, rfl⟩ := hc
    rw [tally_of_mem hnd hx]
    exact hle x hx
  · rw [tally_eq_zero key weight l c fun x hx hxc => hc ⟨x, hx, hxc⟩]
    exact Nat.zero_le B

/-- Over distinct keys, the tallies add up to at most the total weight. -/
theorem sum_tally_le (cs : List ι) (hcs : cs.Nodup) (l : List α) :
    (cs.map (tally key weight l)).sum ≤ (l.map weight).sum := by
  induction l with
  | nil => simp [List.sum_eq_zero]
  | cons x l ih =>
    -- the new item counts at most once: at its own key, if that is among `cs`
    have hx : (cs.map fun c => if key x = c then weight x else 0).sum ≤ weight x := by
      by_cases hmem : key x ∈ cs
      · obtain ⟨s, t, rfl⟩ := List.append_of_mem hmem
        have hnd := List.nodup_middle.mp hcs
        rw [List.nodup_cons] at hnd
        have hs : ∀ c ∈ s ++ t, key x ≠ c := fun c hc h => hnd.1 (h ▸ hc)
        have hzero : ∀ l' : List ι, (∀ c ∈ l', key x ≠ c) →
            (l'.map fun c => if key x = c then weight x else 0).sum = 0 := fun l' hl' => by
          rw [List.sum_eq_zero]
          intro y hy
          obtain ⟨c, hc, rfl⟩ := List.mem_map.mp hy
          rw [if_neg (hl' c hc)]
        simp only [List.map_append, List.map_cons, List.sum_append, List.sum_cons, if_true]
        rw [hzero s fun c hc => hs c (List.mem_append_left t hc),
          hzero t fun c hc => hs c (List.mem_append_right s hc)]
        omega
      · have hzero : (cs.map fun c => if key x = c then weight x else 0).sum = 0 := by
          apply List.sum_eq_zero
          intro y hy
          obtain ⟨c, hc, rfl⟩ := List.mem_map.mp hy
          have hne : key x ≠ c := fun h => hmem (h ▸ hc)
          rw [if_neg hne]
        rw [hzero]
        exact Nat.zero_le _
    have hsplit : (cs.map (tally key weight (x :: l))).sum =
        (cs.map fun c => if key x = c then weight x else 0).sum + (cs.map (tally key weight l)).sum := by
      rw [← List.sum_map_add]
      congr 1
      apply List.map_congr_left
      intro c _
      exact tally_cons key weight x l c
    rw [hsplit, List.map_cons, List.sum_cons]
    omega

end Tally
