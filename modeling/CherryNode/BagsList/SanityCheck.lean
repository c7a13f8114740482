import CherryNode.BagsList.Invariant

/-!
# pallet-bags-list: `iter` and `sanity_check` on every reachable list

Under strictly increasing `u64` thresholds, a list `Holds s c` whose bags are
those of the ids' weights (`Placed`) is walked by `iter` from the highest
threshold down (`iter_eq`): it yields every stored node once
(`iter_ids_nodup`, `mem_iter_ids`, `length_iter`), with `bag_upper` never
increasing (`iter_antitone`), and `sanity_check` passes once the counter is the
node count and a `u32` (`sanityCheck_eq_ok`).  `ListReachable` gives the lists
`insert`, `remove`, `remove_many`, `do_rebag` and `regenerate` reach from empty
storage with at most `u32::MAX` ids; on all of them the counter is the node
count (`ListReachable.holds`).
-/

namespace BagsList

open Neighbours

variable {A : Type} [LinearOrder A]
variable {l : List A} {u : Nat}

/-! ## Thresholds -/

section Thresholds

variable {thresholds : List Nat}

theorem notionalBagFor_mem_withMax (thresholds : List Nat) (w : Nat) :
    notionalBagFor thresholds w ∈ withMax thresholds := by
  unfold notionalBagFor withMax
  dsimp only
  cases hi : thresholds[Slice.partitionPoint thresholds fun t => w > t]? with
  | some t =>
    have ht : t ∈ thresholds := List.mem_of_getElem? hi
    rw [Option.getD_some]
    split_ifs
    · exact ht
    · exact List.mem_append_left _ ht
  | none =>
    rw [Option.getD_none]
    split_ifs with hlast
    · exact List.mem_of_getLast? hlast
    · exact List.mem_append_right _ (List.mem_singleton_self _)

theorem withMax_pairwise (hinc : thresholds.Pairwise (· < ·)) (hmax : ∀ t ∈ thresholds, t ≤ voteWeightMax) :
    (withMax thresholds).Pairwise (· < ·) := by
  unfold withMax
  split_ifs with hlast
  · exact hinc
  · refine List.pairwise_append.mpr ⟨hinc, List.pairwise_singleton _ _, fun t ht m hm => ?_⟩
    rw [List.mem_singleton] at hm
    subst hm
    refine lt_of_le_of_ne (hmax t ht) fun htm => hlast ?_
    -- the threshold `MAX` can only be the last one
    obtain ⟨pre, x, rfl⟩ := List.eq_nil_or_concat' thresholds |>.resolve_left (List.ne_nil_of_mem ht)
    rw [List.getLast?_append_of_ne_nil _ (List.cons_ne_nil x []), List.getLast?_singleton]
    rcases List.mem_append.mp ht with ht | ht
    · have hlt := (List.pairwise_append.mp hinc).2.2 t ht x (List.mem_singleton_self x)
      have hx := hmax x (List.mem_append_right _ (List.mem_singleton_self x))
      omega
    · rw [List.mem_singleton] at ht
      rw [← ht, htm]

end Thresholds

/-! ## `iter` -/

section Iter

variable {s : Storage A} {c : Nat → List A} {thresholds : List Nat} {wt : A → Nat}

theorem flatMap_iter_filterMap (h : Holds s c) (L : List Nat) :
    (L.filterMap (Bag.get · s)).flatMap (·.iter s) = L.flatMap fun u => (c u).map (nodeAt (c u) u) := by
  induction L with
  | nil => rfl
  | cons u L ih =>
    rw [List.filterMap_cons, h.bags u, List.flatMap_cons, ← ih]
    unfold bagView
    split_ifs with hu
    · rw [hu]
      rfl
    · rw [List.flatMap_cons, iter_bagOf (h.nodup u) (h.linked u) (h.length_le u)]

/-- **`List::iter`** walks the bags from the highest threshold down. -/
theorem iter_eq (h : Holds s c) :
    iter thresholds s = (withMax thresholds).reverse.flatMap fun u => (c u).map (nodeAt (c u) u) :=
  flatMap_iter_filterMap h _

theorem iter_ids (h : Holds s c) : (iter thresholds s).map Node.id = (withMax thresholds).reverse.flatMap c := by
  rw [iter_eq h, List.map_flatMap]
  congr 1
  funext u
  rw [List.map_map]
  exact List.map_id'' (fun _ => rfl) _

theorem mem_iter_ids (h : Holds s c) (hp : Placed thresholds wt c) (a : A) :
    a ∈ (iter thresholds s).map Node.id ↔ ∃ u, a ∈ c u := by
  rw [iter_ids h, List.mem_flatMap]
  constructor
  · rintro ⟨u, -, ha⟩
    exact ⟨u, ha⟩
  · rintro ⟨u, ha⟩
    exact ⟨u, List.mem_reverse.mpr (hp u a ha ▸ notionalBagFor_mem_withMax thresholds (wt a)), ha⟩

theorem mem_iter (h : Holds s c) (hp : Placed thresholds wt c) (n : Node A) :
    n ∈ iter thresholds s ↔ Node.get n.id s = some n := by
  rw [iter_eq h, List.mem_flatMap]
  constructor
  · rintro ⟨u, -, hn⟩
    obtain ⟨a, ha, rfl⟩ := List.mem_map.mp hn
    exact h.linked u a ha
  · intro hn
    have ha := h.stored n.id n hn
    refine ⟨n.bagUpper, List.mem_reverse.mpr ?_, List.mem_map.mpr ⟨n.id, ha, (h.get_eq_some hn).symm⟩⟩
    exact hp _ _ ha ▸ notionalBagFor_mem_withMax thresholds (wt n.id)

section Ordered

variable (hinc : thresholds.Pairwise (· < ·)) (hmax : ∀ t ∈ thresholds, t ≤ voteWeightMax)
include hinc hmax

theorem iter_ids_nodup (h : Holds s c) : ((iter thresholds s).map Node.id).Nodup := by
  rw [iter_ids h, List.nodup_flatMap]
  refine ⟨fun u _ => h.nodup u, List.pairwise_reverse.mpr ((withMax_pairwise hinc hmax).imp fun huv => ?_)⟩
  intro a ha hb
  exact (ne_of_lt huv) (h.disjoint _ _ a hb ha)

theorem length_iter (h : Holds s c) (hp : Placed thresholds wt c) :
    (iter thresholds s).length = s.listNodes.size := by
  rw [← List.length_map (f := Node.id)]
  exact (h.size_eq_length (iter_ids_nodup hinc hmax h) (mem_iter_ids h hp)).symm

/-- `bag_upper` never increases along `iter`. -/
theorem iter_antitone (h : Holds s c) : (iter thresholds s).Pairwise fun n m => m.bagUpper ≤ n.bagUpper := by
  rw [iter_eq h, List.pairwise_flatMap]
  refine ⟨fun u _ => List.pairwise_map.mpr (List.pairwise_of_forall fun _ _ => le_rfl), ?_⟩
  refine List.pairwise_reverse.mpr ((withMax_pairwise hinc hmax).imp fun huv => ?_)
  intro x hx y hy
  obtain ⟨a, -, rfl⟩ := List.mem_map.mp hx
  obtain ⟨b, -, rfl⟩ := List.mem_map.mp hy
  exact le_of_lt huv

end Ordered

end Iter

/-! ## `sanity_check` -/

section Sanity

variable {s : Storage A} {c : Nat → List A} {thresholds : List Nat} {wt : A → Nat}

theorem mapM_eq_ok {α ε : Type} (f : α → Except ε Unit) (l : List α) (hf : ∀ x ∈ l, f x = .ok ()) :
    l.mapM f = .ok (l.map fun _ => ()) := by
  induction l with
  | nil => rfl
  | cons x l ih =>
    rw [List.mapM_cons, hf x List.mem_cons_self, ih fun y hy => hf y (List.mem_cons_of_mem x hy)]
    rfl

theorem foldl_add_mod {α : Type} (f : α → Nat) (l : List α) (k : Nat) :
    l.foldl (fun acc cur => (acc + f cur) % 2 ^ 32) (k % 2 ^ 32) = (k + (l.map f).sum) % 2 ^ 32 := by
  induction l generalizing k with
  | nil => simp
  | cons x l ih =>
    rw [List.foldl_cons, Nat.mod_add_mod, ih, List.map_cons, List.sum_cons, Nat.add_assoc]

theorem sum_length_iter (thresholds : List Nat) (s : Storage A) :
    (((withMax thresholds).filterMap (Bag.get · s)).map fun b => (b.iter s).length).sum =
      (iter thresholds s).length := by
  rw [iter, List.filterMap_reverse, List.length_flatMap, List.map_reverse, List.sum_reverse]

theorem headNode_bagOf (hL : Linked s u l) : (bagOf l u).headNode s = l.head?.map (nodeAt l u) := by
  unfold Bag.headNode bagOf
  cases hh : l.head? with
  | none => rfl
  | some a => exact hL a (List.mem_of_head? hh)

theorem tailNode_bagOf (hL : Linked s u l) :
    (bagOf l u).tailNode s = l.getLast?.map (nodeAt l u) := by
  unfold Bag.tailNode bagOf
  cases ht : l.getLast? with
  | none => rfl
  | some a => exact hL a (List.mem_of_getLast? ht)

/-- **`Bag::sanity_check`** passes on a linked bag. -/
theorem sanityCheck_bagOf (hl : l.Nodup) (hL : Linked s u l)
    (hlen : l.length ≤ s.listNodes.size) : (bagOf l u).sanityCheck s = .ok () := by
  unfold Bag.sanityCheck
  -- the head has no `prev`
  have hhead : (((bagOf l u).headNode s).map fun head => (head.prevNode s).isNone).getD (bagOf l u).tail.isNone =
      true := by
    rw [headNode_bagOf hL]
    cases hh : l.head? with
    | none =>
      rw [List.head?_eq_none_iff] at hh
      subst hh
      rfl
    | some a =>
      have hp : prevOf l a = none := (prevOf_eq_none_iff hl (List.mem_of_head? hh)).mpr hh
      simp [prevNode_nodeAt hL, hp]
  -- the tail has no `next`
  have htail : (((bagOf l u).tailNode s).map fun tail => (tail.nextNode s).isNone).getD (bagOf l u).head.isNone =
      true := by
    rw [tailNode_bagOf hL]
    cases ht : l.getLast? with
    | none =>
      rw [List.getLast?_eq_none_iff] at ht
      subst ht
      rfl
    | some a =>
      have hn : nextOf l a = none := (nextOf_eq_none_iff hl (List.mem_of_getLast? ht)).mpr ht
      simp [nextNode_nodeAt hL, hn]
  have hnodup : ((bagOf l u).iter s |>.map Node.id).Nodup := by
    rw [iter_bagOf hl hL hlen, List.map_map]
    exact (List.map_id'' (fun _ => rfl) l).symm ▸ hl
  rw [hhead, htail, Bool.not_true, if_neg Bool.false_ne_true, if_neg Bool.false_ne_true, decide_eq_true hnodup,
    Bool.not_true, if_neg Bool.false_ne_true]

/-- **`Node::sanity_check`** passes on a stored node. -/
theorem sanityCheck_nodeAt (h : Holds s c) {a : A} (ha : a ∈ c u) :
    (nodeAt (c u) u a).sanityCheck s = .ok () := by
  unfold Node.sanityCheck
  rw [nodeAt_bagUpper, h.bags u, bagView, if_neg (List.ne_nil_of_mem ha)]
  dsimp only
  have hcontains : (bagOf (c u) u).contains a s = true := by
    rw [Bag.contains, iter_bagOf (h.nodup u) (h.linked u) (h.length_le u), List.any_eq_true]
    exact ⟨nodeAt (c u) u a, List.mem_map_of_mem ha, by simp⟩
  -- a terminal node is an end of its bag
  have hterm : (!(nodeAt (c u) u a).isTerminal || (bagOf (c u) u).head == some a ||
      (bagOf (c u) u).tail == some a) = true := by
    cases ht : (nodeAt (c u) u a).isTerminal
    · rfl
    · rcases (nodeAt_isTerminal (h.nodup u) ha u).mp ht with he | he <;> simp [bagOf, he]
  rw [nodeAt_id, hcontains, hterm]
  rfl

/-- **`List::sanity_check`** passes on a list whose counter is its number of
nodes, a `u32`. -/
theorem sanityCheck_eq_ok (hinc : thresholds.Pairwise (· < ·)) (hmax : ∀ t ∈ thresholds, t ≤ voteWeightMax)
    (h : Holds s c) (hp : Placed thresholds wt c) (hcount : s.counterForListNodes = s.listNodes.size)
    (hsize : s.listNodes.size ≤ u32Max) : sanityCheck thresholds s = .ok () := by
  have hmod : s.listNodes.size % 2 ^ 32 = s.listNodes.size := Nat.mod_eq_of_lt (by unfold u32Max at hsize; omega)
  have hlen := length_iter hinc hmax h hp
  have hbags : ∀ b ∈ (withMax thresholds).filterMap (Bag.get · s), b.sanityCheck s = .ok () := by
    intro b hb
    obtain ⟨u, -, hu⟩ := List.mem_filterMap.mp hb
    rw [h.bags u, bagView] at hu
    split_ifs at hu
    cases hu
    exact sanityCheck_bagOf (h.nodup u) (h.linked u) (h.length_le u)
  have hnodes : ∀ e ∈ s.listNodes.toList, e.2.sanityCheck s = .ok () := by
    intro e he
    have hg : Node.get e.1 s = some e.2 := OrdMap.get?_of_mem_toList he
    rw [h.get_eq_some hg]
    exact sanityCheck_nodeAt h (h.stored e.1 e.2 hg)
  have hsum := foldl_add_mod (fun b : Bag A => (b.iter s).length) ((withMax thresholds).filterMap (Bag.get · s)) 0
  rw [Nat.zero_mod, Nat.zero_add, sum_length_iter, hlen, hmod] at hsum
  unfold sanityCheck
  rw [decide_eq_true (iter_ids_nodup hinc hmax h), Bool.not_true, if_neg Bool.false_ne_true]
  dsimp only
  rw [hlen, hmod, hcount, if_neg (not_not.mpr rfl), if_neg (not_not.mpr rfl),
    mapM_eq_ok _ _ hbags]
  dsimp only
  rw [hsum, if_neg (not_not.mpr rfl), mapM_eq_ok _ _ hnodes]
  rfl

end Sanity

/-! ## Every reachable list -/

/-- The lists the pallet's operations reach from empty storage, with the
weight each id was last inserted or rebagged with, while the list holds at
most `u32::MAX` ids; a refused `insert` changes nothing and is left out. -/
inductive ListReachable (thresholds : List Nat) : Storage A → (A → Nat) → Prop
  | empty (wt : A → Nat) : ListReachable thresholds .empty wt
  | insert {s : Storage A} {wt : A → Nat} {s' : Storage A} (id : A) (w : Nat) :
      ListReachable thresholds s wt → BagsList.insert thresholds id w s = .ok s' → s'.listNodes.size ≤ u32Max →
      ListReachable thresholds s' (Function.update wt id w)
  | remove {s : Storage A} {wt : A → Nat} (id : A) :
      ListReachable thresholds s wt → ListReachable thresholds (BagsList.remove id s) wt
  | removeMany {s : Storage A} {wt : A → Nat} (ids : List A) :
      ListReachable thresholds s wt → ListReachable thresholds (BagsList.removeMany ids s).2 wt
  | rebag {s : Storage A} {wt : A → Nat} (id : A) (w : Nat) :
      ListReachable thresholds s wt → ListReachable thresholds (doRebag thresholds id w s).2 (Function.update wt id w)
  | regenerate {s : Storage A} {wt : A → Nat} (all : List A) (weightOf : A → Nat) :
      ListReachable thresholds s wt → (BagsList.regenerate thresholds all weightOf s).2.listNodes.size ≤ u32Max →
      ListReachable thresholds (BagsList.regenerate thresholds all weightOf s).2 weightOf

section Reachable

variable {thresholds : List Nat} {s : Storage A} {wt : A → Nat}

theorem removeMany_reachable_holds {c : Nat → List A} (h : Holds s c) (hp : Placed thresholds wt c)
    (hcount : s.counterForListNodes = s.listNodes.size) (hsize : s.listNodes.size ≤ u32Max) (ids : List A) :
    ∃ c', Holds (removeMany ids s).2 c' ∧ Placed thresholds wt c' ∧
      (removeMany ids s).2.counterForListNodes = (removeMany ids s).2.listNodes.size ∧
      (removeMany ids s).2.listNodes.size ≤ u32Max := by
  obtain ⟨h', hsize', hcount'⟩ := removeMany_holds h ids
  exact ⟨_, h', hp.mono fun x a ha => List.mem_of_mem_filter ha, by omega, by omega⟩

/-- **The invariant on every run**: a reachable list is a family of linked
bags, each id in the bag of its weight, and its counter is its number of
nodes. -/
theorem ListReachable.holds (hr : ListReachable thresholds s wt) :
    ∃ c, Holds s c ∧ Placed thresholds wt c ∧ s.counterForListNodes = s.listNodes.size ∧
      s.listNodes.size ≤ u32Max := by
  induction hr with
  | empty wt => exact ⟨_, holds_empty, placed_empty thresholds wt, rfl, Nat.zero_le _⟩
  | @insert s wt s' id w _ hs hsize ih =>
    obtain ⟨c, h, hp, hcount, -⟩ := ih
    obtain ⟨hx, h', hsize', hcount'⟩ := insert_holds h hs
    exact ⟨_, h', hp.append hx w, by omega, hsize⟩
  | remove id _ ih =>
    obtain ⟨c, h, hp, hcount, hsize⟩ := ih
    exact removeMany_reachable_holds h hp hcount hsize [id]
  | removeMany ids _ ih =>
    obtain ⟨c, h, hp, hcount, hsize⟩ := ih
    exact removeMany_reachable_holds h hp hcount hsize ids
  | rebag id w _ ih =>
    obtain ⟨c, h, hp, hcount, hsize⟩ := ih
    obtain ⟨c', h', hp', hsize', hcount'⟩ := doRebag_holds h hp id w
    exact ⟨c', h', hp', by omega, by omega⟩
  | @regenerate s wt all weightOf _ hsize ih =>
    obtain ⟨c, h, hp, hcount, -⟩ := regenerate_holds thresholds all weightOf s
    exact ⟨c, h, hp, by omega, hsize⟩

/-- **The list on every run**: for strictly increasing thresholds and at
most `u32::MAX` ids, `sanity_check` passes, each node sits in the bag its
`bag_upper` names, the counter counts the nodes, and `iter` yields each node
once. -/
theorem reachable_sanityCheck_ok (hinc : thresholds.Pairwise (· < ·)) (hmax : ∀ t ∈ thresholds, t ≤ voteWeightMax)
    (hr : ListReachable thresholds s wt) :
    sanityCheck thresholds s = .ok () ∧
      (∃ c, Holds s c ∧ ∀ a n, Node.get a s = some n →
        a ∈ c n.bagUpper ∧ (∀ u, a ∈ c u → u = n.bagUpper) ∧ n.bagUpper = notionalBagFor thresholds (wt a)) ∧
      s.counterForListNodes = s.listNodes.size ∧
      ((iter thresholds s).map Node.id).Nodup ∧ (iter thresholds s).length = s.listNodes.size ∧
      (∀ n, n ∈ iter thresholds s ↔ Node.get n.id s = some n) ∧
      (iter thresholds s).Pairwise (fun n m => m.bagUpper ≤ n.bagUpper) := by
  obtain ⟨c, h, hp, hcount, hsize⟩ := hr.holds
  refine ⟨sanityCheck_eq_ok hinc hmax h hp hcount hsize, ⟨c, h, fun a n ha => ?_⟩, hcount,
    iter_ids_nodup hinc hmax h, length_iter hinc hmax h hp, mem_iter h hp, iter_antitone hinc hmax h⟩
  have hmem := h.stored a n ha
  exact ⟨hmem, fun u hu => h.disjoint u _ a hu hmem, hp _ a hmem⟩

/-- Under the thresholds `[10, 20]`, id `1` of weight `5` and then id `2` of
weight `15`, in the bags `10` and `20`. -/
def twoIdList : Storage ℕ :=
  (insert [10, 20] 2 15 ((insert [10, 20] 1 5 .empty).toOption.getD .empty)).toOption.getD .empty

theorem twoIdList_sanityCheck_ok :
    ([10, 20] : List ℕ).Pairwise (· < ·) ∧ (∀ t ∈ ([10, 20] : List ℕ), t ≤ voteWeightMax) ∧
      ListReachable [10, 20] twoIdList (Function.update (Function.update (fun _ => 0) 1 5) 2 15) ∧
      sanityCheck [10, 20] twoIdList = .ok () :=
  have hr : ListReachable [10, 20] twoIdList (Function.update (Function.update (fun _ : ℕ => 0) 1 5) 2 15) :=
    .insert 2 15 (.insert 1 5 (.empty _) rfl (by decide +kernel)) rfl (by decide +kernel)
  ⟨by decide, by decide, hr, (reachable_sanityCheck_ok (by decide) (by decide) hr).1⟩

end Reachable

/-! ## Past `u32::MAX` ids -/

/-- **`CounterForListNodes` saturates**: regenerating the list from `2 ^ 32`
ids stores them all, but the counter stops at `u32::MAX`, and `sanity_check`
reports that `iter` (whose count, cast to `u32`, is `0`) disagrees with it. -/
theorem regenerate_counter_saturates {thresholds : List Nat} (hinc : thresholds.Pairwise (· < ·))
    (hmax : ∀ t ∈ thresholds, t ≤ voteWeightMax) (weightOf : ℕ → ℕ) (s : Storage ℕ) :
    (regenerate thresholds (List.range (2 ^ 32)) weightOf s).2.listNodes.size = 2 ^ 32 ∧
      (regenerate thresholds (List.range (2 ^ 32)) weightOf s).2.counterForListNodes = u32Max ∧
      sanityCheck thresholds (regenerate thresholds (List.range (2 ^ 32)) weightOf s).2 =
        .error "iter_count != stored_count" := by
  obtain ⟨c, h, hp, hcount, hmem⟩ :=
    regenerate_holds thresholds (List.range (2 ^ 32)) weightOf s
  have hsize : (regenerate thresholds (List.range (2 ^ 32)) weightOf s).2.listNodes.size = 2 ^ 32 := by
    rw [h.size_eq_length List.nodup_range fun b => (hmem b).symm, List.length_range]
  have hcount' : (regenerate thresholds (List.range (2 ^ 32)) weightOf s).2.counterForListNodes = u32Max := by
    rw [hcount, hsize]
    rfl
  refine ⟨hsize, hcount', ?_⟩
  unfold sanityCheck
  rw [decide_eq_true (iter_ids_nodup hinc hmax h), Bool.not_true, if_neg Bool.false_ne_true]
  dsimp only
  rw [length_iter hinc hmax h hp, hsize, hcount', if_pos (by decide)]

/-- Regenerating the list under `[10, 20]` from the ids `0, …, 2 ^ 32 - 1`. -/
theorem regenerate_range_fails_sanityCheck :
    (regenerate [10, 20] (List.range (2 ^ 32)) (fun _ => 0) (Storage.empty : Storage ℕ)).2.listNodes.size = 2 ^ 32 ∧
      (regenerate [10, 20] (List.range (2 ^ 32)) (fun _ => 0) (Storage.empty : Storage ℕ)).2.counterForListNodes =
        u32Max ∧
      sanityCheck [10, 20] (regenerate [10, 20] (List.range (2 ^ 32)) (fun _ => 0) (Storage.empty : Storage ℕ)).2 =
        .error "iter_count != stored_count" :=
  regenerate_counter_saturates (by decide) (by decide) _ _

end BagsList
