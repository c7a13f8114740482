import CherryNode.BagsList.Links

/-!
# pallet-bags-list: the invariant of the list and its operations

The list in storage stands for bags `c : Nat → List A`: `Holds s c` says the
bags are duplicate-free and pairwise disjoint, every id has in `ListNodes` the
node naming its neighbours (`Linked`), every stored node is in the bag its
`bag_upper` names, and `ListBags` holds each non-empty bag's ends and no empty
bag.  Each mutating operation moves `c` as the abstract list would:

    Holds s c → insert T id w s = .ok s' → Holds s' (c[v ↦ c v ++ [id]])      (insert_holds)
    Holds s c → Holds (removeMany ids s).2 (fun u => (c u).filter (· ∉ ids))  (removeMany_holds)
    Holds s c → Node.get id s = some n → Holds (doRebag T id w s).2 c'        (doRebag_holds)

with `v = notionalBagFor T w`.  `remove_many`'s loop keeps its cached bags the
true bags of the ids removed so far (`ManyInv`), and all three rest on one frame
lemma, `Nodes.update`.
-/

namespace BagsList

open Neighbours

variable {A : Type} [LinearOrder A]
variable {a id : A} {s s' : Storage A} {l : List A} {u v : Nat} {node : Node A} {bags : OrdMap Nat (Bag A)}

/-! ## The invariant -/

/-- What `Bag::get u` returns when the bag `u` holds `l`: nothing for an empty
bag, which `put` has removed. -/
def bagView (l : List A) (u : Nat) : Option (Bag A) := if l = [] then none else some (bagOf l u)

/-- The nodes of `s` are those of the bags `c`. -/
structure Nodes (s : Storage A) (c : Nat → List A) : Prop where
  nodup : ∀ u, (c u).Nodup
  disjoint : ∀ u v a, a ∈ c u → a ∈ c v → u = v
  linked : ∀ u, Linked s u (c u)
  stored : ∀ a n, Node.get a s = some n → a ∈ c n.bagUpper

/-- The storage `s` is the list whose bags are `c`. -/
structure Holds (s : Storage A) (c : Nat → List A) : Prop extends Nodes s c where
  bags : ∀ u, Bag.get u s = bagView (c u) u

/-- The bags `c` are those an id's weight under `wt` sends it to. -/
def Placed (thresholds : List Nat) (wt : A → Nat) (c : Nat → List A) : Prop :=
  ∀ u a, a ∈ c u → u = notionalBagFor thresholds (wt a)

theorem holds_empty : Holds (Storage.empty : Storage A) fun _ => [] where
  nodup _ := List.nodup_nil
  disjoint _ _ _ h := absurd h List.not_mem_nil
  linked _ _ h := absurd h List.not_mem_nil
  stored _ _ h := by cases h
  bags _ := rfl

omit [LinearOrder A] in
theorem placed_empty (thresholds : List Nat) (wt : A → Nat) : Placed thresholds wt fun _ => ([] : List A) :=
  fun _ _ h => absurd h List.not_mem_nil

section Nodes

variable {s : Storage A} {c : Nat → List A}

variable {n : Node A}

theorem Nodes.get_eq_some (h : Nodes s c) (ha : Node.get a s = some n) :
    n = nodeAt (c n.bagUpper) n.bagUpper a := by
  have hl := h.linked n.bagUpper a (h.stored a n ha)
  rw [ha] at hl
  exact Option.some.inj hl

theorem Nodes.not_mem_of_get_eq_none (h : Nodes s c) (ha : Node.get a s = none) (u : Nat) : a ∉ c u := by
  intro hu
  rw [h.linked u a hu] at ha
  cases ha

theorem Nodes.exists_of_get_eq_some (h : Nodes s c) (ha : Node.get a s = some n) :
    ∃ u, a ∈ c u ∧ n = nodeAt (c u) u a :=
  ⟨n.bagUpper, h.stored a n ha, h.get_eq_some ha⟩

theorem Nodes.contains_iff (h : Nodes s c) (a : A) : s.listNodes.contains a = true ↔ ∃ u, a ∈ c u := by
  rw [OrdMap.contains_iff_exists]
  constructor
  · rintro ⟨n, hn⟩
    exact ⟨_, h.stored a n hn⟩
  · rintro ⟨u, hu⟩
    exact ⟨_, h.linked u a hu⟩

theorem Nodes.length_le (h : Nodes s c) (u : Nat) : (c u).length ≤ s.listNodes.size := by
  rw [OrdMap.size_eq_length_keys]
  refine (h.nodup u).length_le_of_subset fun a ha => ?_
  rw [OrdMap.mem_keys]
  exact (h.contains_iff a).mpr ⟨u, ha⟩

theorem Nodes.of_get_eq (h : Nodes s c) (hs : ∀ a, Node.get a s' = Node.get a s) :
    Nodes s' c where
  nodup := h.nodup
  disjoint := h.disjoint
  linked u a ha := (hs a).trans (h.linked u a ha)
  stored a n ha := h.stored a n ((hs a).symm.trans ha)

/-- **The frame lemma**: an operation that rewrites the bags `U` and leaves
alone every id outside them keeps the nodes of the other bags. -/
theorem Nodes.update (h : Nodes s c) {c' : Nat → List A} (U : List Nat)
    (hc : ∀ w, w ∉ U → c' w = c w) (hnodup : ∀ w ∈ U, (c' w).Nodup)
    (hdisj : ∀ u v a, a ∈ c' u → a ∈ c' v → u = v) (hlinked : ∀ w ∈ U, Linked s' w (c' w))
    (hframe : ∀ b, (∀ w ∈ U, b ∉ c w ∧ b ∉ c' w) → Node.get b s' = Node.get b s)
    (hgone : ∀ b, ∀ w ∈ U, b ∈ c w → (∀ v, b ∉ c' v) → Node.get b s' = none) : Nodes s' c' := by
  have hlinked' : ∀ w, Linked s' w (c' w) := by
    intro w
    by_cases hw : w ∈ U
    · exact hlinked w hw
    · intro b hb
      rw [hc w hw] at hb ⊢
      -- `b` is in a bag off `U`, before and after
      have hout : ∀ w' ∈ U, b ∉ c w' ∧ b ∉ c' w' := fun w' hw' =>
        ⟨fun hb' => hw (h.disjoint w w' b hb hb' ▸ hw'),
          fun hb' => hw (hdisj w w' b (hc w hw ▸ hb) hb' ▸ hw')⟩
      rw [hframe b hout]
      exact h.linked w b hb
  refine ⟨fun w => ?_, hdisj, hlinked', fun b n hb => ?_⟩
  · by_cases hw : w ∈ U
    · exact hnodup w hw
    · rw [hc w hw]
      exact h.nodup w
  · by_cases hin : ∃ v, b ∈ c' v
    · obtain ⟨v, hv⟩ := hin
      have hn := hlinked' v b hv
      rw [hb] at hn
      cases hn
      exact hv
    · simp only [not_exists] at hin
      by_cases hU : ∃ w ∈ U, b ∈ c w
      · obtain ⟨w, hw, hbw⟩ := hU
        rw [hgone b w hw hbw hin] at hb
        cases hb
      · simp only [not_exists, not_and] at hU
        have hb₀ : Node.get b s = some n := (hframe b fun w hw => ⟨hU w hw, hin w⟩) ▸ hb
        have hmem := h.stored b n hb₀
        have hnU : n.bagUpper ∉ U := fun hw => hU _ hw hmem
        exact absurd (hc _ hnU ▸ hmem) (hin _)

end Nodes

/-! ## Bags after a write -/

theorem getOrMake_of_get (h : Bag.get u s = bagView l u) :
    Bag.getOrMake u s = bagOf l u := by
  unfold Bag.getOrMake bagView at *
  rw [h]
  split_ifs with hl
  · subst hl
    rfl
  · rfl

theorem bagGet_put_bagOf (l : List A) (u : Nat) (s : Storage A) (w : Nat) :
    Bag.get w ((bagOf l u).put s) = if u = w then bagView l u else Bag.get w s := by
  rw [Bag.get_put, bagOf_isEmpty]
  by_cases huw : u = w
  · subst huw
    cases l <;> simp [bagView, bagOf]
  · simp [bagOf, huw]

@[simp] theorem put_listNodes (b : Bag A) (s : Storage A) : (b.put s).listNodes = s.listNodes := by
  unfold Bag.put
  split <;> rfl

@[simp] theorem put_counter (b : Bag A) (s : Storage A) :
    (b.put s).counterForListNodes = s.counterForListNodes := by
  unfold Bag.put
  split <;> rfl

@[simp] theorem insertNodeUnchecked_counter (b : Bag A) (node : Node A) (s : Storage A) :
    (b.insertNodeUnchecked node s).2.counterForListNodes = s.counterForListNodes := by
  unfold Bag.insertNodeUnchecked
  split
  · rfl
  · dsimp only
    split <;> rfl

theorem holds_setCounter {c : Nat → List A} (h : Holds s c) (k : Nat) :
    Holds { s with counterForListNodes := k } c :=
  { h.toNodes.of_get_eq fun _ => rfl with bags := h.bags }

/-! ## Sizes -/

section Sizes

variable {s s' : Storage A} {c c' : Nat → List A}

theorem Nodes.size_of_mem_iff (h : Nodes s c) (h' : Nodes s' c') (hc : ∀ b, (∃ u, b ∈ c' u) ↔ ∃ u, b ∈ c u) :
    s'.listNodes.size = s.listNodes.size :=
  OrdMap.size_eq_of_contains fun b => Bool.eq_iff_iff.mpr ((h'.contains_iff b).trans ((hc b).trans (h.contains_iff b).symm))

theorem Nodes.size_eq_length (h : Nodes s c) (hl : l.Nodup) (hmem : ∀ b, b ∈ l ↔ ∃ u, b ∈ c u) :
    s.listNodes.size = l.length := by
  rw [OrdMap.size_eq_length_keys]
  refine ((List.perm_ext_iff_of_nodup (OrdMap.keys_nodup _) hl).mpr fun b => ?_).length_eq
  rw [OrdMap.mem_keys, h.contains_iff, hmem]

theorem Nodes.size_of_mem_iff_add (h : Nodes s c) (h' : Nodes s' c') {x : A} (hx : ∀ u, x ∉ c u)
    (hc : ∀ b, (∃ u, b ∈ c' u) ↔ (∃ u, b ∈ c u) ∨ b = x) (n : Node A) :
    s'.listNodes.size = s.listNodes.size + 1 := by
  have hnot : s.listNodes.contains x = false := by
    rw [Bool.eq_false_iff, ne_eq, h.contains_iff]
    exact fun ⟨u, hu⟩ => hx u hu
  rw [← OrdMap.size_insert_of_not_contains hnot n]
  refine OrdMap.size_eq_of_contains fun b => Bool.eq_iff_iff.mpr ?_
  rw [h'.contains_iff, hc, OrdMap.contains_insert, Bool.or_eq_true, h.contains_iff, decide_eq_true_iff, or_comm,
    eq_comm]

theorem Nodes.size_of_mem_iff_sub (h : Nodes s c) (h' : Nodes s' c') {x : A} (hx : x ∈ c v)
    (hc : ∀ b, (∃ u, b ∈ c' u) ↔ (∃ u, b ∈ c u) ∧ b ≠ x) :
    s'.listNodes.size + 1 = s.listNodes.size := by
  have hin : s.listNodes.contains x = true := (h.contains_iff x).mpr ⟨v, hx⟩
  rw [← OrdMap.size_erase_of_contains hin]
  congr 1
  refine OrdMap.size_eq_of_contains fun b => Bool.eq_iff_iff.mpr ?_
  rw [h'.contains_iff, hc, OrdMap.contains_erase, Bool.and_eq_true, h.contains_iff, bne_iff_ne, and_comm, ne_comm]

end Sizes

/-! ## Rewriting one bag -/

section Update

variable {c : Nat → List A}

omit [LinearOrder A] in
theorem disjoint_update (hd : ∀ u v a, a ∈ c u → a ∈ c v → u = v) (v : Nat) (l : List A)
    (hl : ∀ a ∈ l, ∀ w, w ≠ v → a ∉ c w) :
    ∀ u w a, a ∈ Function.update c v l u → a ∈ Function.update c v l w → u = w := by
  intro u w a hu hw
  rw [Function.update_apply] at hu hw
  split_ifs at hu hw with huv hwv hwv
  · rw [huv, hwv]
  · exact absurd hw (hl a hu w hwv)
  · exact absurd hu (hl a hw u huv)
  · exact hd u w a hu hw

omit [LinearOrder A] in
theorem exists_mem_update (v : Nat) (l : List A) (b : A) :
    (∃ u, b ∈ Function.update c v l u) ↔ b ∈ l ∨ ∃ u, u ≠ v ∧ b ∈ c u := by
  constructor
  · rintro ⟨u, hu⟩
    by_cases huv : u = v
    · subst huv
      exact .inl (by simpa using hu)
    · exact .inr ⟨u, huv, by simpa [huv] using hu⟩
  · rintro (hb | ⟨u, huv, hu⟩)
    · exact ⟨v, by simpa using hb⟩
    · exact ⟨u, by simpa [huv] using hu⟩

omit [LinearOrder A] in
theorem exists_mem_update_append (v : Nat) (x b : A) :
    (∃ u, b ∈ Function.update c v (c v ++ [x]) u) ↔ (∃ u, b ∈ c u) ∨ b = x := by
  rw [exists_mem_update, List.mem_append, List.mem_singleton]
  constructor
  · rintro ((hb | rfl) | ⟨u, -, hu⟩)
    · exact .inl ⟨v, hb⟩
    · exact .inr rfl
    · exact .inl ⟨u, hu⟩
  · rintro (⟨u, hu⟩ | rfl)
    · by_cases huv : u = v
      · exact .inl (.inl (huv ▸ hu))
      · exact .inr ⟨u, huv, hu⟩
    · exact .inl (.inr rfl)

end Update

/-! ## Appending an id: `insert` -/

section Append

variable {s : Storage A} {c : Nat → List A}

theorem get_put_insertNodeUnchecked (hl : l.Nodup) (hL : Linked s v l)
    (hx : node.id ∉ l) (b : A) :
    Node.get b (((bagOf l v).insertNodeUnchecked node s).1.put ((bagOf l v).insertNodeUnchecked node s).2) =
      if b ∈ l ++ [node.id] then some (nodeAt (l ++ [node.id]) v b) else Node.get b s := by
  rw [Bag.nodeGet_put, get_insertNodeUnchecked hl hL hx]

theorem bagGet_put_insertNodeUnchecked (hx : node.id ∉ l) (w : Nat) :
    Bag.get w (((bagOf l v).insertNodeUnchecked node s).1.put ((bagOf l v).insertNodeUnchecked node s).2) =
      if v = w then bagView (l ++ [node.id]) v else Bag.get w s := by
  rw [insertNodeUnchecked_bag hx, bagGet_put_bagOf, bagGet_insertNodeUnchecked]

/-- **Appending to a bag** (`insert_node_unchecked` and `put`): the id joins
the end of the bag `v`. -/
theorem Holds.append (h : Holds s c) (hx : ∀ u, node.id ∉ c u) (v : Nat) :
    Holds (((bagOf (c v) v).insertNodeUnchecked node s).1.put ((bagOf (c v) v).insertNodeUnchecked node s).2)
      (Function.update c v (c v ++ [node.id])) := by
  have hnodup : (c v ++ [node.id]).Nodup := (h.nodup v).append (List.nodup_singleton _)
    (List.disjoint_singleton.mpr (hx v))
  have hget := get_put_insertNodeUnchecked (h.nodup v) (h.linked v) (hx v)
  set s' := ((bagOf (c v) v).insertNodeUnchecked node s).1.put ((bagOf (c v) v).insertNodeUnchecked node s).2
  have hnodes : Nodes s' (Function.update c v (c v ++ [node.id])) := by
    refine h.update [v] (fun w hw => Function.update_of_ne (by simpa using hw) _ _) ?_ ?_ ?_ ?_ ?_
    · simpa using hnodup
    · refine disjoint_update h.disjoint v _ fun a ha w hw haw => ?_
      rcases List.mem_append.mp ha with ha | ha
      · exact hw (h.disjoint w v a haw ha)
      · exact hx w (List.mem_singleton.mp ha ▸ haw)
    · simp only [List.mem_singleton, forall_eq, Function.update_self]
      intro b hb
      rw [hget, if_pos hb]
    · intro b hb
      simp only [List.mem_singleton, forall_eq, Function.update_self] at hb
      rw [hget, if_neg hb.2]
    · intro b w hw hb hgone
      simp only [List.mem_singleton] at hw
      subst hw
      exact absurd (by simp [hb]) (hgone w)
  refine { hnodes with bags := fun w => ?_ }
  rw [bagGet_put_insertNodeUnchecked (hx v)]
  by_cases hw : v = w
  · subst hw
    simp
  · rw [if_neg hw, Function.update_of_ne (Ne.symm hw), h.bags w]

theorem Holds.append_size (h : Holds s c) (hx : ∀ u, node.id ∉ c u) (v : Nat) :
    (((bagOf (c v) v).insertNodeUnchecked node s).1.put
      ((bagOf (c v) v).insertNodeUnchecked node s).2).listNodes.size = s.listNodes.size + 1 :=
  h.size_of_mem_iff_add (h.append hx v).toNodes hx (exists_mem_update_append v _) node

/-- **`List::insert`**: a new id goes last in the bag of its weight, one node
more, and the counter counts it up to `u32::MAX`. -/
theorem insert_holds {thresholds : List Nat} {w : Nat} (h : Holds s c)
    (hs : insert thresholds id w s = .ok s') :
    (∀ u, id ∉ c u) ∧
      Holds s' (Function.update c (notionalBagFor thresholds w) (c (notionalBagFor thresholds w) ++ [id])) ∧
      s'.listNodes.size = s.listNodes.size + 1 ∧
      s'.counterForListNodes = min (s.counterForListNodes + 1) u32Max := by
  unfold insert at hs
  split at hs
  · cases hs
  · rename_i hcon
    have hx : ∀ u, id ∉ c u := fun u hu => hcon ((h.contains_iff id).mpr ⟨u, hu⟩)
    simp only [getOrMake_of_get (h.bags _), Bag.insertUnchecked, Except.ok.injEq] at hs
    subst hs
    have hx' : ∀ u, (⟨id, none, none, 0⟩ : Node A).id ∉ c u := hx
    refine ⟨hx, holds_setCounter (h.append hx' _) _, ?_, ?_⟩
    · exact h.append_size hx' _
    · simp only [put_counter, insertNodeUnchecked_counter]

end Append

/-! ## Taking an id out: `remove_many` -/

section Remove

variable {s : Storage A} {c : Nat → List A}

@[simp] theorem excise_counter (n : Node A) (s : Storage A) :
    (n.excise s).counterForListNodes = s.counterForListNodes := by
  unfold Node.excise
  dsimp only
  split <;> split <;> rfl

theorem exists_mem_update_erase (h : Nodes s c) (ha : a ∈ c u) (b : A) :
    (∃ w, b ∈ Function.update c u ((c u).erase a) w) ↔ (∃ w, b ∈ c w) ∧ b ≠ a := by
  rw [exists_mem_update, (h.nodup u).mem_erase_iff]
  constructor
  · rintro (⟨hba, hb⟩ | ⟨w, hw, hb⟩)
    · exact ⟨⟨u, hb⟩, hba⟩
    · exact ⟨⟨w, hb⟩, fun hba => hw (h.disjoint w u a (hba ▸ hb) ha)⟩
  · rintro ⟨⟨w, hb⟩, hba⟩
    by_cases hw : w = u
    · exact .inl ⟨hba, hw ▸ hb⟩
    · exact .inr ⟨w, hw, hb⟩

/-- **Removing a node** (`excise` and `remove_from_storage_unchecked`): its
bag loses it, and storage one node. -/
theorem Nodes.remove (h : Nodes s c) (ha : a ∈ c u) :
    Nodes ((nodeAt (c u) u a).removeFromStorageUnchecked ((nodeAt (c u) u a).excise s))
      (Function.update c u ((c u).erase a)) := by
  have hget : ∀ b, Node.get b ((nodeAt (c u) u a).removeFromStorageUnchecked ((nodeAt (c u) u a).excise s)) =
      if a = b then none else if b ∈ c u ∧ b ≠ a then some (nodeAt ((c u).erase a) u b) else Node.get b s := by
    intro b
    rw [Node.get_removeFromStorageUnchecked, nodeAt_id, get_excise (h.nodup u) (h.linked u)]
  have hmem : ∀ b, b ∈ (c u).erase a ↔ b ≠ a ∧ b ∈ c u := fun b => (h.nodup u).mem_erase_iff
  refine h.update [u] (fun w hw => Function.update_of_ne (by simpa using hw) _ _) ?_ ?_ ?_ ?_ ?_
  · simpa using (h.nodup u).erase a
  · exact disjoint_update h.disjoint u _ fun b hb w hw hbw =>
      hw (h.disjoint w u b hbw (List.mem_of_mem_erase hb))
  · simp only [List.mem_singleton, forall_eq, Function.update_self]
    intro b hb
    rw [hmem] at hb
    rw [hget, if_neg (Ne.symm hb.1), if_pos ⟨hb.2, hb.1⟩]
  · intro b hb
    simp only [List.mem_singleton, forall_eq] at hb
    have hba : a ≠ b := fun hab => hb.1 (hab ▸ ha)
    rw [hget, if_neg hba, if_neg fun hb' => hb.1 hb'.1]
  · intro b w hw hb hgone
    simp only [List.mem_singleton] at hw
    subst hw
    by_cases hba : b = a
    · rw [hget, if_pos hba.symm]
    · exact absurd (by simp [hmem, hba, hb]) (hgone w)

theorem Nodes.remove_size (h : Nodes s c) (ha : a ∈ c u) :
    ((nodeAt (c u) u a).removeFromStorageUnchecked ((nodeAt (c u) u a).excise s)).listNodes.size + 1 =
      s.listNodes.size :=
  h.size_of_mem_iff_sub (h.remove ha) ha (exists_mem_update_erase h ha)

theorem bagOf_erase_of_not_isTerminal (hl : l.Nodup) (ha : a ∈ l) (u : Nat)
    (hterm : (nodeAt l u a).isTerminal = false) : l.erase a ≠ [] ∧ bagOf (l.erase a) u = bagOf l u := by
  have hends : ¬(l.head? = some a ∨ l.getLast? = some a) := by
    rw [← nodeAt_isTerminal hl ha u, hterm]
    exact Bool.false_ne_true
  rw [not_or] at hends
  have hbag : bagOf (l.erase a) u = bagOf l u := by
    rw [bagOf, bagOf, head?_erase, getLast?_erase hl, if_neg hends.1, if_neg hends.2]
  refine ⟨fun he => ?_, hbag⟩
  have hhead : (l.erase a).head? = l.head? := congrArg Bag.head hbag
  rw [he] at hhead
  exact hends.1 (by cases l with
    | nil => cases ha
    | cons => cases hhead)

/-- `remove_many`'s loop: the bags it has cached are the true bags, and
`ListBags` still holds the others. -/
structure ManyInv (bags : OrdMap Nat (Bag A)) (s : Storage A) (c : Nat → List A) : Prop extends Nodes s c where
  cached : ∀ u b, bags.get? u = some b → b = bagOf (c u) u
  uncached : ∀ u, bags.get? u = none → Bag.get u s = bagView (c u) u

theorem Holds.manyInv (h : Holds s c) : ManyInv OrdMap.empty s c where
  toNodes := h.toNodes
  cached _ _ hb := by cases hb
  uncached u _ := h.bags u

theorem update_erase_eq_filter (h : Nodes s c) (ha : a ∈ c u) :
    Function.update c u ((c u).erase a) = fun w => (c w).filter (· != a) := by
  funext w
  by_cases hw : w = u
  · subst hw
    rw [Function.update_self, (h.nodup w).erase_eq_filter]
  · rw [Function.update_of_ne hw, eq_comm, List.filter_eq_self]
    intro b hb
    rw [bne_iff_ne]
    rintro rfl
    exact hw (h.disjoint w u b hb ha)

theorem bag_of_cache (h : ManyInv bags s c) (u : Nat) :
    (bags.get? u).getD (Bag.getOrMake u s) = bagOf (c u) u := by
  cases hb : bags.get? u with
  | none => exact getOrMake_of_get (h.uncached u hb)
  | some b => exact h.cached u b hb

/-- **One id of `remove_many`**: its node leaves storage and its bag, the
cached copy of the bag included. -/
theorem ManyInv.step (h : ManyInv bags s c) (count : Nat) (id : A) :
    ManyInv (removeManyStep (bags, count, s) id).1 (removeManyStep (bags, count, s) id).2.2
        (fun w => (c w).filter (· != id)) ∧
      (removeManyStep (bags, count, s) id).2.2.listNodes.size + (removeManyStep (bags, count, s) id).2.1 =
        s.listNodes.size + count ∧
      (removeManyStep (bags, count, s) id).2.2.counterForListNodes = s.counterForListNodes := by
  cases hg : Node.get id s with
  | none =>
    -- an id not in the list is skipped
    have hout := h.not_mem_of_get_eq_none hg
    have hc : (fun w => (c w).filter (· != id)) = c := funext fun w => List.filter_eq_self.mpr fun b hb => by
      rw [bne_iff_ne]
      rintro rfl
      exact hout w hb
    have hstep : removeManyStep (bags, count, s) id = (bags, count, s) := by simp only [removeManyStep, hg]
    rw [hstep, hc]
    exact ⟨h, rfl, rfl⟩
  | some n =>
    obtain ⟨u, hid, rfl⟩ := h.exists_of_get_eq_some hg
    rw [← update_erase_eq_filter h.toNodes hid]
    have hnodes := h.remove hid
    have hsize := h.remove_size hid
    have hbags : ∀ w, Bag.get w ((nodeAt (c u) u id).removeFromStorageUnchecked ((nodeAt (c u) u id).excise s)) =
        Bag.get w s := fun w => by rw [Bag.get_removeFromStorageUnchecked, bagGet_excise]
    cases ht : (nodeAt (c u) u id).isTerminal
    · -- inside its bag: the ends stay, cached or not
      obtain ⟨hne, hbag⟩ := bagOf_erase_of_not_isTerminal (h.nodup u) hid u ht
      have hview : bagView ((c u).erase id) u = bagView (c u) u := by
        rw [bagView, bagView, if_neg hne, if_neg (List.ne_nil_of_mem hid), hbag]
      have hupd : ∀ w, bagOf (Function.update c u ((c u).erase id) w) w = bagOf (c w) w ∧
          bagView (Function.update c u ((c u).erase id) w) w = bagView (c w) w := fun w => by
        rw [Function.update_apply]
        split_ifs with hw
        · subst hw
          exact ⟨hbag, hview⟩
        · exact ⟨rfl, rfl⟩
      simp only [removeManyStep, hg, ht, Bool.not_false, if_true]
      exact ⟨⟨hnodes, fun w b hb => (h.cached w b hb).trans (hupd w).1.symm,
        fun w hb => (hbags w).trans ((h.uncached w hb).trans (hupd w).2.symm)⟩, by omega, excise_counter _ _⟩
    · -- a head or a tail: its bag, now cached, moves its ends
      simp only [removeManyStep, hg, ht, Bool.not_true, Bool.false_eq_true, ite_false, nodeAt_bagUpper,
        bag_of_cache h, removeNodeUnchecked_bag (h.nodup u), removeNodeUnchecked_snd]
      refine ⟨⟨hnodes, fun w b hb => ?_, fun w hb => ?_⟩, by omega, excise_counter _ _⟩
      · rw [OrdMap.get?_insert] at hb
        split_ifs at hb with hw
        · subst hw
          cases hb
          rw [Function.update_self]
        · rw [Function.update_of_ne (Ne.symm hw)]
          exact h.cached w b hb
      · rw [OrdMap.get?_insert] at hb
        have hw : u ≠ w := fun huw => by rw [if_pos huw] at hb; cases hb
        rw [if_neg hw] at hb
        rw [hbags, Function.update_of_ne (Ne.symm hw)]
        exact h.uncached w hb

/-- **`remove_many`'s loop**: the ids it is given leave their bags, and each
one found takes one node out of storage. -/
theorem ManyInv.foldl (ids : List A) (count : Nat) (h : ManyInv bags s c) :
    ManyInv (ids.foldl removeManyStep (bags, count, s)).1 (ids.foldl removeManyStep (bags, count, s)).2.2
        (fun w => (c w).filter (· ∉ ids)) ∧
      (ids.foldl removeManyStep (bags, count, s)).2.2.listNodes.size +
          (ids.foldl removeManyStep (bags, count, s)).2.1 = s.listNodes.size + count ∧
      (ids.foldl removeManyStep (bags, count, s)).2.2.counterForListNodes = s.counterForListNodes := by
  induction ids generalizing bags count s c with
  | nil => simpa using h
  | cons id ids ih =>
    obtain ⟨h₁, hsize₁, hcount₁⟩ := h.step count id
    rw [List.foldl_cons]
    generalize removeManyStep (bags, count, s) id = r at h₁ hsize₁ hcount₁ ⊢
    obtain ⟨bags', count', s'⟩ := r
    simp only at h₁ hsize₁ hcount₁
    obtain ⟨h₂, hsize₂, hcount₂⟩ := ih count' h₁
    refine ⟨?_, by omega, hcount₂.trans hcount₁⟩
    -- the ids removed so far, one filter
    have hc : (fun w => ((c w).filter (· != id)).filter (· ∉ ids)) = fun w => (c w).filter (· ∉ id :: ids) := by
      funext w
      rw [List.filter_filter]
      congr 1
      funext b
      by_cases hb : b = id <;> simp [hb]
    rw [← hc]
    exact h₂

end Remove

/-! ## Writing the cached bags back -/

section PutBags

variable {c : Nat → List A}

@[simp] theorem foldl_put_listNodes (L : List (Nat × Bag A)) (s : Storage A) :
    (L.foldl (fun s e => e.2.put s) s).listNodes = s.listNodes := by
  induction L generalizing s with
  | nil => rfl
  | cons e L ih => rw [List.foldl_cons, ih, put_listNodes]

@[simp] theorem foldl_put_counter (L : List (Nat × Bag A)) (s : Storage A) :
    (L.foldl (fun s e => e.2.put s) s).counterForListNodes = s.counterForListNodes := by
  induction L generalizing s with
  | nil => rfl
  | cons e L ih => rw [List.foldl_cons, ih, put_counter]

theorem bagGet_foldl_put (L : List (Nat × Bag A)) (hL : ∀ e ∈ L, e.2 = bagOf (c e.1) e.1) (s : Storage A)
    (w : Nat) :
    Bag.get w (L.foldl (fun s e => e.2.put s) s) = if w ∈ L.map Prod.fst then bagView (c w) w else Bag.get w s := by
  induction L generalizing s with
  | nil => rfl
  | cons e L ih =>
    rw [List.foldl_cons, ih (fun e he => hL e (List.mem_cons_of_mem _ he)), hL e List.mem_cons_self,
      bagGet_put_bagOf]
    by_cases hw : e.1 = w
    · subst hw
      simp
    · by_cases hwL : w ∈ L.map Prod.fst <;> simp [hwL, hw, Ne.symm hw]

/-- **`List::remove_many`**: the ids leave their bags, and the counter goes
down by the number of them found, which storage has lost. -/
theorem removeMany_holds (h : Holds s c) (ids : List A) :
    Holds (removeMany ids s).2 (fun w => (c w).filter (· ∉ ids)) ∧
      (removeMany ids s).2.listNodes.size + (removeMany ids s).1 = s.listNodes.size ∧
      (removeMany ids s).2.counterForListNodes = s.counterForListNodes - (removeMany ids s).1 := by
  obtain ⟨hm, hsize, hcount⟩ := ManyInv.foldl ids 0 h.manyInv
  unfold removeMany
  generalize ids.foldl removeManyStep (OrdMap.empty, 0, s) = r at hm hsize hcount ⊢
  obtain ⟨bags, count, s'⟩ := r
  simp only at hm hsize hcount
  have hL : ∀ e ∈ bags.toList, e.2 = bagOf ((fun w => (c w).filter (· ∉ ids)) e.1) e.1 :=
    fun e he => hm.cached e.1 e.2 (OrdMap.get?_of_mem_toList he)
  refine ⟨⟨hm.toNodes.of_get_eq fun a => ?_, fun w => ?_⟩, by simpa using hsize, by simp [hcount]⟩
  · show Node.get a (bags.toList.foldl (fun s e => e.2.put s) s') = Node.get a s'
    simp [Node.get]
  · show Bag.get w (bags.toList.foldl (fun s e => e.2.put s) s') = _
    rw [bagGet_foldl_put (c := fun w => (c w).filter (· ∉ ids)) _ hL]
    split_ifs with hw
    · rfl
    · apply hm.uncached
      rw [← Option.not_isSome_iff_eq_none, ← OrdMap.contains, ← OrdMap.mem_keys]
      exact hw

end PutBags

/-! ## Moving an id between bags: `update_position_for` -/

section Move

variable {s : Storage A} {c : Nat → List A}

/-- **A move**: once the id has left bag `u` (in `s₁`, where its stale node is
still stored), appending it to bag `v` gives the list with both bags moved. -/
theorem Holds.move (h : Holds s c) {u v : Nat} (hid : id ∈ c u) (hv : v ≠ u) {s₁ : Storage A}
    (hget₁ : ∀ b, Node.get b s₁ = if b ∈ c u ∧ b ≠ id then some (nodeAt ((c u).erase id) u b) else Node.get b s)
    (hbag₁ : ∀ w, Bag.get w s₁ = if w = u then bagView ((c u).erase id) u else Bag.get w s)
    (hnode : node.id = id) :
    Holds (((bagOf (c v) v).insertNodeUnchecked node s₁).1.put ((bagOf (c v) v).insertNodeUnchecked node s₁).2)
      (Function.update (Function.update c u ((c u).erase id)) v (c v ++ [id])) := by
  subst hnode
  have hmem : ∀ b, b ∈ (c u).erase node.id ↔ b ≠ node.id ∧ b ∈ c u := fun b => (h.nodup u).mem_erase_iff
  have hout : ∀ b, b ∈ c v → b ∉ c u := fun b hbv hbu => hv (h.disjoint v u b hbv hbu)
  have hx : node.id ∉ c v := fun hx => hout _ hx hid
  have hL₁ : Linked s₁ v (c v) := fun b hb => by
    rw [hget₁, if_neg fun hb' => hout b hb hb'.1]
    exact h.linked v b hb
  have hget := get_put_insertNodeUnchecked (h.nodup v) hL₁ hx
  set s₂ := ((bagOf (c v) v).insertNodeUnchecked node s₁).1.put ((bagOf (c v) v).insertNodeUnchecked node s₁).2
  have hc₂u : Function.update (Function.update c u ((c u).erase node.id)) v (c v ++ [node.id]) u =
      (c u).erase node.id := by
    rw [Function.update_of_ne hv.symm, Function.update_self]
  have hc₂v : Function.update (Function.update c u ((c u).erase node.id)) v (c v ++ [node.id]) v =
      c v ++ [node.id] := Function.update_self ..
  have hnodes : Nodes s₂ (Function.update (Function.update c u ((c u).erase node.id)) v (c v ++ [node.id])) := by
    refine h.update [u, v] (fun w hw => ?_) (fun w hw => ?_) ?_ (fun w hw => ?_) (fun b hb => ?_) ?_
    · simp only [List.mem_cons, List.not_mem_nil, or_false, not_or] at hw
      rw [Function.update_of_ne hw.2, Function.update_of_ne hw.1]
    · simp only [List.mem_cons, List.not_mem_nil, or_false] at hw
      rcases hw with rfl | rfl
      · rw [hc₂u]
        exact (h.nodup w).erase _
      · rw [hc₂v]
        exact (h.nodup w).append (List.nodup_singleton _) (List.disjoint_singleton.mpr hx)
    · -- both rewrites keep the bags disjoint
      have hd₁ := disjoint_update h.disjoint u ((c u).erase node.id) fun b hb w hw hbw =>
        hw (h.disjoint w u b hbw (List.mem_of_mem_erase hb))
      refine disjoint_update hd₁ v _ fun b hb w hw hbw => ?_
      rw [Function.update_apply] at hbw
      split_ifs at hbw with hwu
      · rcases List.mem_append.mp hb with hb | hb
        · exact hout b hb (List.mem_of_mem_erase hbw)
        · exact ((hmem b).mp hbw).1 (List.mem_singleton.mp hb)
      · rcases List.mem_append.mp hb with hb | hb
        · exact hw (h.disjoint w v b hbw hb)
        · exact hwu (h.disjoint w u b hbw (List.mem_singleton.mp hb ▸ hid))
    · simp only [List.mem_cons, List.not_mem_nil, or_false] at hw
      rcases hw with rfl | rfl
      · rw [hc₂u]
        intro b hb
        rw [hmem] at hb
        rw [hget, if_neg fun hb' => (List.mem_append.mp hb').elim (hout b · hb.2) fun h' => hb.1 (List.mem_singleton.mp h'),
          hget₁, if_pos ⟨hb.2, hb.1⟩]
      · rw [hc₂v]
        intro b hb
        rw [hget, if_pos hb]
    · simp only [List.mem_cons, List.not_mem_nil, or_false, forall_eq_or_imp, forall_eq, hc₂u, hc₂v] at hb
      rw [hget, if_neg hb.2.2, hget₁, if_neg fun hb' => hb.1.1 hb'.1]
    · intro b w hw hb hgone
      simp only [List.mem_cons, List.not_mem_nil, or_false] at hw
      -- every id of the two bags is still in one of them
      rcases hw with rfl | rfl
      · by_cases hbid : b = node.id
        · refine absurd ?_ (hgone v)
          rw [hc₂v]
          exact List.mem_append_right _ (List.mem_singleton.mpr hbid)
        · refine absurd ?_ (hgone w)
          rw [hc₂u]
          exact (hmem b).mpr ⟨hbid, hb⟩
      · refine absurd ?_ (hgone w)
        rw [hc₂v]
        exact List.mem_append_left _ hb
  refine { hnodes with bags := fun w => ?_ }
  rw [bagGet_put_insertNodeUnchecked hx, hbag₁]
  by_cases hwv : v = w
  · subst hwv
    rw [if_pos rfl, hc₂v]
  · rw [if_neg hwv]
    by_cases hwu : w = u
    · subst hwu
      rw [if_pos rfl, hc₂u]
    · rw [if_neg hwu, Function.update_of_ne (Ne.symm hwv), Function.update_of_ne hwu, h.bags w]

theorem exists_mem_move (h : Nodes s c) (hid : id ∈ c u) (v : Nat) (b : A) :
    (∃ w, b ∈ Function.update (Function.update c u ((c u).erase id)) v (c v ++ [id]) w) ↔ ∃ w, b ∈ c w := by
  rw [exists_mem_update, List.mem_append, List.mem_singleton]
  constructor
  · rintro ((hb | rfl) | ⟨w, -, hb⟩)
    · exact ⟨v, hb⟩
    · exact ⟨u, hid⟩
    · rw [Function.update_apply] at hb
      split_ifs at hb
      · exact ⟨u, List.mem_of_mem_erase hb⟩
      · exact ⟨w, hb⟩
  · rintro ⟨w, hb⟩
    by_cases hwv : w = v
    · exact .inl (.inl (hwv ▸ hb))
    · by_cases hbid : b = id
      · exact .inl (.inr hbid)
      · refine .inr ⟨w, hwv, ?_⟩
        rw [Function.update_apply]
        split_ifs with hwu
        · exact (h.nodup u).mem_erase_iff.mpr ⟨hbid, hwu ▸ hb⟩
        · exact hb

end Move

/-! ## Weights -/

section Placed

variable {thresholds : List Nat} {wt : A → Nat} {c c' : Nat → List A}

omit [LinearOrder A] in
theorem Placed.mono (hp : Placed thresholds wt c) (hc : ∀ x a, a ∈ c' x → a ∈ c x) : Placed thresholds wt c' :=
  fun x a ha => hp x a (hc x a ha)

/-- Only the id whose weight changes may change bags, into the bag of its new
weight. -/
theorem Placed.update (hp : Placed thresholds wt c) (id : A) (w : Nat) (hc : ∀ x a, a ∈ c' x → a ≠ id → a ∈ c x)
    (hid : ∀ x, id ∈ c' x → x = notionalBagFor thresholds w) : Placed thresholds (Function.update wt id w) c' := by
  intro x a ha
  by_cases hai : a = id
  · subst hai
    rw [Function.update_self]
    exact hid x ha
  · rw [Function.update_of_ne hai]
    exact hp x a (hc x a ha hai)

/-- A new id appended to the bag of its weight. -/
theorem Placed.append (hp : Placed thresholds wt c) (hx : ∀ u, id ∉ c u) (w : Nat) :
    Placed thresholds (Function.update wt id w)
      (Function.update c (notionalBagFor thresholds w) (c (notionalBagFor thresholds w) ++ [id])) := by
  refine hp.update id w (fun x a ha hai => ?_) fun x hx' => ?_
  · by_cases hxv : x = notionalBagFor thresholds w
    · subst hxv
      rw [Function.update_self, List.mem_append, List.mem_singleton] at ha
      exact ha.resolve_right hai
    · rwa [Function.update_of_ne hxv] at ha
  · by_cases hxv : x = notionalBagFor thresholds w
    · exact hxv
    · rw [Function.update_of_ne hxv] at hx'
      exact absurd hx' (hx x)

end Placed

/-! ## `do_rebag` -/

section Rebag

variable {s : Storage A} {c : Nat → List A} {thresholds : List Nat} {wt : A → Nat}

theorem Holds.rebag_of_detached (h : Holds s c) (hp : Placed thresholds wt c) (hid : id ∈ c u)
    (w : Nat) (hv : notionalBagFor thresholds w ≠ u) {s₁ : Storage A}
    (hget₁ : ∀ b, Node.get b s₁ = if b ∈ c u ∧ b ≠ id then some (nodeAt ((c u).erase id) u b) else Node.get b s)
    (hbag₁ : ∀ x, Bag.get x s₁ = if x = u then bagView ((c u).erase id) u else Bag.get x s)
    (hcount₁ : s₁.counterForListNodes = s.counterForListNodes) {s₂ : Storage A}
    (hs₂ : s₂ = ((Bag.getOrMake (notionalBagFor thresholds w) s₁).insertNodeUnchecked (nodeAt (c u) u id) s₁).1.put
      ((Bag.getOrMake (notionalBagFor thresholds w) s₁).insertNodeUnchecked (nodeAt (c u) u id) s₁).2) :
    ∃ c', Holds s₂ c' ∧ Placed thresholds (Function.update wt id w) c' ∧ s₂.listNodes.size = s.listNodes.size ∧
      s₂.counterForListNodes = s.counterForListNodes := by
  subst hs₂
  set v := notionalBagFor thresholds w
  have hgm : Bag.getOrMake v s₁ = bagOf (c v) v := getOrMake_of_get (by rw [hbag₁, if_neg hv, h.bags])
  rw [hgm]
  have hh := h.move hid hv hget₁ hbag₁ (show (nodeAt (c u) u id).id = id from rfl)
  refine ⟨_, hh, hp.update id w (fun x a ha hai => ?_) (fun x hx => ?_),
    h.toNodes.size_of_mem_iff hh.toNodes (exists_mem_move h.toNodes hid v), by simp [hcount₁]⟩
  · -- an id other than the moved one keeps its bag
    rw [Function.update_apply, Function.update_apply] at ha
    split_ifs at ha with hxv hxu
    · rw [hxv]
      exact (List.mem_append.mp ha).resolve_right fun h' => hai (List.mem_singleton.mp h')
    · rw [hxu]
      exact List.mem_of_mem_erase ha
    · exact ha
  · -- the moved id is only in its new bag
    rw [Function.update_apply, Function.update_apply] at hx
    split_ifs at hx with hxv hxu
    · exact hxv
    · exact absurd rfl ((h.nodup u).mem_erase_iff.mp hx).1
    · exact absurd (h.disjoint x u id hx hid) hxu

/-- **`do_rebag`**: a stored id whose new weight names another bag is moved
to the end of that bag, and the list keeps its nodes and counter. -/
theorem doRebag_holds (h : Holds s c) (hp : Placed thresholds wt c) (id : A) (w : Nat) :
    ∃ c', Holds (doRebag thresholds id w s).2 c' ∧ Placed thresholds (Function.update wt id w) c' ∧
      (doRebag thresholds id w s).2.listNodes.size = s.listNodes.size ∧
      (doRebag thresholds id w s).2.counterForListNodes = s.counterForListNodes := by
  unfold doRebag
  cases hg : Node.get id s with
  | none =>
    exact ⟨c, h, hp.update id w (fun _ _ ha _ => ha) fun x hx => absurd hx (h.not_mem_of_get_eq_none hg x), rfl, rfl⟩
  | some n =>
    obtain ⟨u, hid, rfl⟩ := h.exists_of_get_eq_some hg
    unfold updatePositionFor
    dsimp only
    by_cases hmis : (nodeAt (c u) u id).isMisplaced thresholds w = true
    · have hv : notionalBagFor thresholds w ≠ u := by simpa [Node.isMisplaced] using hmis
      rw [if_pos hmis]
      cases ht : (nodeAt (c u) u id).isTerminal
      · -- inside its bag: excised, the bag's ends stay
        obtain ⟨hne, hbag⟩ := bagOf_erase_of_not_isTerminal (h.nodup u) hid u ht
        rw [Bool.not_false, if_pos rfl]
        refine h.rebag_of_detached hp hid w hv (get_excise (h.nodup u) (h.linked u) id) (fun x => ?_)
          (excise_counter _ _) rfl
        rw [bagGet_excise]
        split_ifs with hx
        · subst hx
          rw [h.bags, bagView, bagView, if_neg hne, if_neg (List.ne_nil_of_mem hid), hbag]
        · rfl
      · -- a head or a tail: its bag is rewritten
        rw [Bool.not_true, if_neg Bool.false_ne_true, nodeAt_bagUpper, h.bags u, bagView,
          if_neg (List.ne_nil_of_mem hid)]
        dsimp only
        rw [removeNodeUnchecked_bag (h.nodup u), removeNodeUnchecked_snd]
        refine h.rebag_of_detached hp hid w hv (fun b => ?_) (fun x => ?_) ?_ rfl
        · rw [Bag.nodeGet_put, get_excise (h.nodup u) (h.linked u)]
        · rw [bagGet_put_bagOf, bagGet_excise]
          by_cases hx : x = u
          · rw [if_pos hx.symm, if_pos hx]
          · rw [if_neg (Ne.symm hx), if_neg hx]
        · rw [put_counter, excise_counter]
    · -- already in the bag of its weight: nothing moves
      rw [if_neg hmis]
      have hu : notionalBagFor thresholds w = u := by simpa [Node.isMisplaced] using hmis
      exact ⟨c, h, hp.update id w (fun _ _ ha _ => ha) fun x hx => (h.disjoint x u id hx hid).trans hu.symm,
        rfl, rfl⟩

end Rebag

/-! ## `insert_many` and `regenerate` -/

section InsertMany

variable {thresholds : List Nat} {weightOf : A → Nat}

theorem contains_of_insert_error {w : Nat} {e : Error}
    (hs : insert thresholds id w s = .error e) : s.listNodes.contains id = true := by
  unfold insert at hs
  split at hs
  · assumption
  · cases hs

/-- One id of `insert_many`: inserted and counted, unless `insert` refuses it. -/
def insertManyStep (thresholds : List Nat) (weightOf : A → Nat) (acc : Nat × Storage A) (v : A) : Nat × Storage A :=
  match insert thresholds v (weightOf v) acc.2 with
  | .ok s => (acc.1 + 1, s)
  | .error _ => acc

/-- **`insert_many`**: each id not yet in the list is inserted with its
weight, and below `u32::MAX` ids the counter counts them. -/
theorem insertMany_foldl_holds (ids : List A) (acc : Nat × Storage A) {c : Nat → List A} (h : Holds acc.2 c)
    (hp : Placed thresholds weightOf c) (hcount : acc.2.counterForListNodes = min acc.2.listNodes.size u32Max) :
    ∃ c', Holds (ids.foldl (insertManyStep thresholds weightOf) acc).2 c' ∧ Placed thresholds weightOf c' ∧
      (ids.foldl (insertManyStep thresholds weightOf) acc).2.counterForListNodes =
        min (ids.foldl (insertManyStep thresholds weightOf) acc).2.listNodes.size u32Max ∧
      ∀ b, (∃ u, b ∈ c' u) ↔ (∃ u, b ∈ c u) ∨ b ∈ ids := by
  induction ids generalizing acc c with
  | nil => exact ⟨c, h, hp, hcount, fun b => by simp⟩
  | cons v ids ih =>
    rw [List.foldl_cons, insertManyStep]
    cases hs : insert thresholds v (weightOf v) acc.2 with
    | error e =>
      -- a duplicate: nothing changes, and `v` was already there
      obtain ⟨c', h', hp', hcount', hmem'⟩ := ih acc h hp hcount
      refine ⟨c', h', hp', hcount', fun b => ?_⟩
      obtain ⟨u, hu⟩ := (h.contains_iff v).mp (contains_of_insert_error hs)
      rw [hmem', List.mem_cons]
      constructor
      · rintro (hb | hb)
        · exact .inl hb
        · exact .inr (.inr hb)
      · rintro (hb | rfl | hb)
        · exact .inl hb
        · exact .inl ⟨u, hu⟩
        · exact .inr hb
    | ok s' =>
      obtain ⟨hx, h₁, hsize₁, hcount₁⟩ := insert_holds h hs
      have hp₁ := hp.append hx (weightOf v)
      rw [Function.update_eq_self] at hp₁
      obtain ⟨c', h', hp', hcount', hmem'⟩ := ih (acc.1 + 1, s') h₁ hp₁
        (by simp only; rw [hcount₁, hsize₁, hcount]; omega)
      refine ⟨c', h', hp', hcount', fun b => ?_⟩
      rw [hmem', exists_mem_update_append, List.mem_cons, or_assoc]

/-- **`List::regenerate`**: the list is cleared and the given ids inserted,
each in the bag of its weight. -/
theorem regenerate_holds (thresholds : List Nat) (all : List A) (weightOf : A → Nat) (s : Storage A) :
    ∃ c, Holds (regenerate thresholds all weightOf s).2 c ∧ Placed thresholds weightOf c ∧
      (regenerate thresholds all weightOf s).2.counterForListNodes =
        min (regenerate thresholds all weightOf s).2.listNodes.size u32Max ∧
      ∀ b, (∃ u, b ∈ c u) ↔ b ∈ all := by
  obtain ⟨c, h, hp, hcount, hmem⟩ := insertMany_foldl_holds all (0, .empty) holds_empty
    (placed_empty thresholds weightOf) rfl
  exact ⟨c, h, hp, hcount, fun b => by simpa using hmem b⟩

end InsertMany

end BagsList
