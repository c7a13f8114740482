import Mathlib
import CherryNode.ForkTree.Atomic

/-!
# The blocks a call leaves in the fork tree

What the iterators yield of a tree, `(hash, number, data)` for each node, is
taken here as a multiset, its `items`.  Each call changes it in one way:
`import` adds the block (`items_import`), `rebalance` keeps it
(`items_rebalance`), and `prune` splits it between the tree and what its
`RemovedIterator` yields (`items_prune`).  An `import` refused as a duplicate
has met a node with the hash (`import_duplicate_mem`).  The `expect` of
`prune` never fires: the path the search returns leads to a node
(`detach_isSome`), which is how the model may leave that branch out.
-/

set_option linter.dupNamespace false

namespace ForkTree

open EStateRun

variable {H N V E : Type} {nodes : List (Node H N V)} {tree t' : ForkTree H N V}

namespace Node

/-- The items of a list of subtrees. -/
def itemsOf (nodes : List (Node H N V)) : Multiset (H × N × V) := ((preorderOf nodes).map item : Multiset _)

/-- The items of a subtree. -/
def items (node : Node H N V) : Multiset (H × N × V) := ((preorder node).map item : Multiset _)

@[simp] theorem itemsOf_nil : itemsOf ([] : List (Node H N V)) = 0 := by
  simp [itemsOf]

@[simp] theorem itemsOf_cons (node : Node H N V) (nodes : List (Node H N V)) :
    itemsOf (node :: nodes) = node.items + itemsOf nodes := by
  simp [itemsOf, items]

@[simp] theorem itemsOf_append (nodes nodes' : List (Node H N V)) :
    itemsOf (nodes ++ nodes') = itemsOf nodes + itemsOf nodes' := by
  simp [itemsOf]

theorem items_mk (hash : H) (number : N) (data : V) (children : List (Node H N V)) :
    items ⟨hash, number, data, children⟩ = (hash, number, data) ::ₘ itemsOf children := by
  simp [items, itemsOf, item]

theorem items_eq_add (node : Node H N V) : node.items = {node.item} + itemsOf node.children := by
  cases node
  simp [items_mk, item]

theorem itemsOf_perm {nodes nodes' : List (Node H N V)} (h : nodes.Perm nodes') :
    itemsOf nodes = itemsOf nodes' :=
  Multiset.coe_eq_coe.mpr ((Perm.preorderOf h).map item)

theorem itemsOf_eq_sum (nodes : List (Node H N V)) : itemsOf nodes = (nodes.map items).sum := by
  induction nodes with
  | nil => simp
  | cons node nodes ih => simp [ih]

/-! ## `rebalance` -/

theorem itemsOf_map {f : Node H N V → Node H N V}
    (hf : ∀ node ∈ nodes, (f node).items = node.items) : itemsOf (nodes.map f) = itemsOf nodes := by
  rw [itemsOf_eq_sum, itemsOf_eq_sum, List.map_map]
  exact congrArg List.sum (List.map_congr_left fun node hnode => hf node hnode)

theorem items_rebalance (node : Node H N V) : node.rebalance.items = node.items := by
  induction node using Node.induction with
  | mk hash number data children ih =>
    rw [rebalance_mk, items_mk, items_mk,
      itemsOf_map fun c hc => ih c ((sortByDepth_perm children).subset hc),
      itemsOf_perm (sortByDepth_perm children)]

/-! ## `import` -/

variable [DecidableEq H] [LinearOrder N] {hash : H} {number : N} {data : V}
  {isDescendentOf : H → H → Except E Bool}

theorem itemsOf_importChildren :
    ∀ {nodes nodes' : List (Node H N V)},
      (∀ c ∈ nodes, ∀ c', c.import hash number data isDescendentOf = .ok (.inserted c') →
        c'.items = c.items + {(hash, number, data)}) →
      importChildren hash number data isDescendentOf nodes = .ok (.inserted nodes') →
        itemsOf nodes' = itemsOf nodes + {(hash, number, data)}
  | [], _, _, h => by simp [importChildren] at h
  | node :: nodes, nodes', hstep, h => by
    rw [importChildren] at h
    split at h
    · cases h
    · -- this child took the block
      rename_i node' hnode
      cases h
      rw [itemsOf_cons, itemsOf_cons, hstep node (by simp) node' hnode]
      abel
    · split at h
      · cases h
      · rename_i rest' hrest
        cases h
        rw [itemsOf_cons, itemsOf_cons, itemsOf_importChildren (fun c hc => hstep c (by simp [hc])) hrest]
        abel
      · cases h

/-- `Node::import`, when it takes the block, adds it to the subtree's items. -/
theorem items_import (node : Node H N V) :
    ∀ {node' : Node H N V}, node.import hash number data isDescendentOf = .ok (.inserted node') →
      node'.items = node.items + {(hash, number, data)} := by
  induction node using Node.induction with
  | mk h n d children ih =>
    intro node' himport
    rw [Node.«import»] at himport
    by_cases hdup : h = hash
    · simp [hdup] at himport
    by_cases hle : number ≤ n
    · simp [hdup, hle] at himport
    simp only [hdup, hle, if_false] at himport
    split at himport
    · cases himport
    · -- a child took it
      rename_i children' hchildren
      cases himport
      rw [items_mk, items_mk, itemsOf_importChildren (fun c hc c' => ih c hc) hchildren]
      simp
    · -- this node took it, as its last child
      split at himport
      · cases himport
      · cases himport
        rw [items_mk, items_mk, itemsOf_append, itemsOf_cons, items_mk]
        simp
      · cases himport

/-- `Node::import` refused the block as a duplicate: a node of the subtree has
its hash. -/
theorem import_duplicate_mem (node : Node H N V) :
    node.import hash number data isDescendentOf = .error .duplicate →
      ∃ x ∈ preorder node, x.hash = hash := by
  induction node using Node.induction with
  | mk h n d children ih =>
    intro himport
    rw [Node.«import»] at himport
    by_cases hdup : h = hash
    · exact ⟨_, self_mem_preorder _, hdup⟩
    by_cases hle : number ≤ n
    · simp [hdup, hle] at himport
    simp only [hdup, hle, if_false] at himport
    split at himport
    · -- a child refused it
      rename_i e hchildren
      cases himport
      obtain ⟨c, hc, hdupc⟩ := importChildren_duplicate ih hchildren
      obtain ⟨x, hx, hxhash⟩ := ih c hc hdupc
      exact ⟨x, mem_preorder_mk.mpr (.inr (mem_preorderOf.mpr ⟨c, hc, hx⟩)), hxhash⟩
    · cases himport
    · -- the oracle's errors are `Error::Client`
      split at himport
      · rename_i hask
        cases himport
        cases hr : isDescendentOf h hash <;> simp [hr] at hask
      · cases himport
      · cases himport
where
  importChildren_duplicate {nodes : List (Node H N V)}
      (_ : ∀ c ∈ nodes, c.import hash number data isDescendentOf = .error .duplicate →
        ∃ x ∈ preorder c, x.hash = hash) :
      importChildren hash number data isDescendentOf nodes = .error .duplicate →
        ∃ c ∈ nodes, c.import hash number data isDescendentOf = .error .duplicate := by
    induction nodes with
    | nil => simp [importChildren]
    | cons c nodes ihl =>
      intro h
      rw [importChildren] at h
      split at h
      · rename_i e hc
        cases h
        exact ⟨c, by simp, hc⟩
      · cases h
      · split at h
        · cases h
          obtain ⟨c', hc', hdup'⟩ := ihl (fun c hc => by simp_all) ‹_›
          exact ⟨c', by simp [hc'], hdup'⟩
        · cases h
        · cases h

/-! ## The path `find_node_index_where` returns -/

variable {predicate : V → Bool}

omit [DecidableEq H] in
theorem findInChildren_found :
    ∀ {k : Nat} {nodes : List (Node H N V)} {y : List Nat},
      findInChildren hash number isDescendentOf predicate k nodes = .ok (.found y) →
        ∃ j x, ∃ hj : j < nodes.length, y = x ++ [k + j] ∧
          nodes[j].findNodeIndexWhere hash number isDescendentOf predicate = .ok (.found x)
  | _, [], _, h => by simp [findInChildren] at h
  | k, node :: nodes, y, h => by
    rw [findInChildren] at h
    split at h
    · cases h
    · cases h
    · -- found below the first child
      rename_i x hx
      cases h
      exact ⟨0, x, by simp, by simp, hx⟩
    · cases h
    · obtain ⟨j, x, hj, rfl, hx⟩ := findInChildren_found h
      exact ⟨j + 1, x, by simpa using hj, by simp [Nat.add_assoc, Nat.add_comm 1 j], by simpa using hx⟩

omit [DecidableEq H] in
theorem detach_isSome_of_found (node : Node H N V) :
    ∀ {x : List Nat}, node.findNodeIndexWhere hash number isDescendentOf predicate = .ok (.found x) →
      ∀ {nodes : List (Node H N V)} {i : Nat} (hi : i < nodes.length), nodes[i] = node →
        (ForkTree.detach (i :: x.reverse) nodes).isSome := by
  induction node using Node.induction with
  | mk h n d children ih =>
    intro x hfind nodes i hi hnode
    rw [findNodeIndexWhere] at hfind
    split_ifs at hfind with hlt
    · cases hfind
    split at hfind
    · cases hfind
    · cases hfind
    · -- the path goes on into child `j`
      rename_i y hy
      cases hfind
      obtain ⟨j, x, hj, rfl, hx⟩ := findInChildren_found hy
      have hchildren : nodes[i].children = children := by rw [hnode]
      have hj' : j < nodes[i].children.length := hchildren ▸ hj
      have hbelow := ih children[j] (List.getElem_mem hj) hx hj' (by simp [hchildren])
      simpa [ForkTree.detach, hi] using hbelow
    · -- the path ends at this node
      split at hfind
      · cases hfind
      · split_ifs at hfind
        · cases hfind
          simp [ForkTree.detach, hi]
        · cases hfind

omit [DecidableEq H] in
theorem findNodeIndexWhere_ne_error (htotal : ∀ a b, ∃ r, isDescendentOf a b = .ok r)
    (node : Node H N V) : ∀ e, node.findNodeIndexWhere hash number isDescendentOf predicate ≠ .error e := by
  induction node using Node.induction with
  | mk h n d children ih =>
    intro e hfind
    rw [findNodeIndexWhere] at hfind
    by_cases hlt : number < n
    · simp [hlt] at hfind
    simp only [hlt, if_false] at hfind
    split at hfind
    · rename_i e' hchildren
      exact findInChildren_ne_error ih 0 e' hchildren
    · cases hfind
    · cases hfind
    · split at hfind
      · -- the oracle, asked only when no child was a descendant
        rename_i e' hask
        obtain ⟨r, hr⟩ := htotal h hash
        split_ifs at hask
        simp [hr] at hask
      · split_ifs at hfind
where
  findInChildren_ne_error {nodes : List (Node H N V)}
      (hnodes : ∀ c ∈ nodes, ∀ e, c.findNodeIndexWhere hash number isDescendentOf predicate ≠ .error e) :
      ∀ k e, findInChildren hash number isDescendentOf predicate k nodes ≠ .error e := by
    induction nodes with
    | nil => simp [findInChildren]
    | cons c nodes ihl =>
      intro k e h
      rw [findInChildren] at h
      split at h
      · rename_i e' hc
        exact hnodes c (by simp) e' hc
      · cases h
      · cases h
      · cases h
      · exact ihl (fun c' hc' => hnodes c' (by simp [hc'])) (k + 1) e h

end Node

/-! ## The tree -/

namespace ForkTree

/-- The items of the tree: what `iter` yields, as a multiset. -/
def items (tree : ForkTree H N V) : Multiset (H × N × V) := Node.itemsOf tree.roots

variable {tree : ForkTree H N V}

theorem mem_iter {x : H × N × V} : x ∈ tree.iter ↔ x ∈ tree.items := by
  simp [iter, items, nodeIter, Node.itemsOf]

theorem items_rebalance (tree : ForkTree H N V) : tree.rebalance.items = tree.items := by
  simp only [items, rebalance]
  rw [Node.itemsOf_map fun c _ => Node.items_rebalance c, Node.itemsOf_perm (Node.sortByDepth_perm _)]

variable [DecidableEq H] [LinearOrder N] {hash : H} {number : N} {data : V}
  {isDescendentOf : H → H → Except E Bool}

/-- `ForkTree::import`, when it succeeds, adds the block to the items. -/
theorem items_import {isRoot : Bool}
    (h : ForkTree.«import» hash number data isDescendentOf tree = .ok isRoot t') :
    t'.items = tree.items + {(hash, number, data)} := by
  simp only [ForkTree.«import», bind_apply, get_apply] at h
  split at h
  · simp at h
  · rw [importRoots_eq_importChildren] at h
    cases himport : Node.importChildren hash number data isDescendentOf tree.roots with
    | error e => simp [himport] at h
    | ok r =>
      cases r with
      | inserted roots =>
        simp only [himport, bind_apply, set_apply, modify_apply, pure_apply, EStateM.Result.ok.injEq] at h
        obtain ⟨-, rfl⟩ := h
        rw [items_rebalance]
        exact Node.itemsOf_importChildren (fun c _ c' => Node.items_import c) himport
      | declined =>
        simp only [himport, bind_apply, set_apply, modify_apply, pure_apply, EStateM.Result.ok.injEq] at h
        obtain ⟨-, rfl⟩ := h
        rw [items_rebalance]
        simp [items, Node.items_mk]

/-- An `import` refused as a duplicate: the hash is in the tree. -/
theorem import_duplicate_mem
    (h : ForkTree.«import» hash number data isDescendentOf tree = .error .duplicate t') :
    ∃ x ∈ tree.nodeIter, x.hash = hash := by
  simp only [ForkTree.«import», bind_apply, get_apply] at h
  split at h
  · simp at h
  · rw [importRoots_eq_importChildren] at h
    cases himport : Node.importChildren hash number data isDescendentOf tree.roots with
    | error e =>
      simp only [himport, throw_apply, EStateM.Result.error.injEq] at h
      obtain ⟨rfl, -⟩ := h
      obtain ⟨c, hc, hdup⟩ :=
        Node.import_duplicate_mem.importChildren_duplicate (fun c _ => Node.import_duplicate_mem c) himport
      obtain ⟨x, hx, hxhash⟩ := Node.import_duplicate_mem c hdup
      exact ⟨x, Node.mem_preorderOf.mpr ⟨c, hc, hx⟩, hxhash⟩
    | ok r => cases r <;> simp [himport] at h

/-! ## `prune` -/

variable {predicate : V → Bool}

omit [DecidableEq H] in
theorem findRootIndexWhere_found :
    ∀ {k : Nat} {roots : List (Node H N V)} {p : List Nat},
      findRootIndexWhere hash number isDescendentOf predicate k roots = .ok (some p) →
        ∃ j x, ∃ hj : j < roots.length, p = x ++ [k + j] ∧
          roots[j].findNodeIndexWhere hash number isDescendentOf predicate = .ok (.found x)
  | _, [], _, h => by simp [findRootIndexWhere] at h
  | k, root :: roots, p, h => by
    rw [findRootIndexWhere] at h
    split at h
    · cases h
    · rename_i x hx
      cases h
      exact ⟨0, x, by simp, by simp, hx⟩
    · obtain ⟨j, x, hj, rfl, hx⟩ := findRootIndexWhere_found h
      exact ⟨j + 1, x, by simpa using hj, by simp [Nat.add_assoc, Nat.add_comm 1 j], by simpa using hx⟩

omit [DecidableEq H] in
/-- The `expect` of `prune` never fires: the path the search returns leads to
a node. -/
theorem detach_isSome {p : List Nat}
    (h : tree.findNodeIndexWhere hash number isDescendentOf predicate = .ok (some p)) :
    (detach p.reverse tree.roots).isSome := by
  obtain ⟨j, x, hj, rfl, hx⟩ := findRootIndexWhere_found h
  simpa using Node.detach_isSome_of_found _ hx hj rfl

omit [DecidableEq H] [LinearOrder N] in
theorem itemsOf_set {i : Nat} (hi : i < nodes.length) (node : Node H N V) :
    Node.itemsOf (nodes.set i node) + nodes[i].items = Node.itemsOf nodes + node.items := by
  conv_rhs => rw [← List.take_append_drop i nodes, List.drop_eq_getElem_cons hi]
  rw [List.set_eq_take_cons_drop node hi]
  simp only [Node.itemsOf_append, Node.itemsOf_cons]
  abel

omit [DecidableEq H] [LinearOrder N] in
theorem itemsOf_detach : ∀ {path : List Nat} {nodes : List (Node H N V)} {root : Node H N V}
    {rest : List (Node H N V)}, detach path nodes = some (root, rest) →
      Node.itemsOf nodes = root.items + Node.itemsOf rest
  | [], _, _, _, h => by simp [detach] at h
  | [i], nodes, root, rest, h => by
    simp only [detach] at h
    split_ifs at h with hi
    cases h
    rw [Node.itemsOf_perm (List.getElem_cons_eraseIdx_perm hi).symm, Node.itemsOf_cons]
  | i :: j :: path, nodes, root, rest, h => by
    simp only [detach] at h
    split_ifs at h with hi
    obtain ⟨⟨root', children⟩, hdetach, heq⟩ := Option.map_eq_some_iff.mp h
    cases heq
    -- the `i`-th node loses the detached subtree from its children
    have hbelow := itemsOf_detach hdetach
    have hset := itemsOf_set hi { nodes[i] with children }
    dsimp only at hset ⊢
    rw [Node.items_mk, Node.items_eq_add nodes[i], hbelow] at hset
    apply add_right_cancel (b := (nodes[i].hash, nodes[i].number, nodes[i].data) ::ₘ Node.itemsOf children)
    rw [← hset]
    simp only [Node.item, ← Multiset.singleton_add]
    abel

theorem itemsOf_pruneChildren :
    ∀ {children : List (Node H N V)} {isFirst : Bool} {kept removed kept' removed' : List (Node H N V)},
      pruneChildren hash number isDescendentOf children isFirst kept removed = .ok (kept', removed') →
        Node.itemsOf kept' + Node.itemsOf removed' =
          Node.itemsOf kept + Node.itemsOf removed + Node.itemsOf children
  | [], _, kept, _, _, _, h => by
    simp only [pruneChildren, Except.ok.injEq, Prod.mk.injEq] at h
    obtain ⟨rfl, rfl⟩ := h
    simp
  | child :: children, isFirst, kept, removed, kept', removed', h => by
    rw [pruneChildren] at h
    cases hstays : childStays hash number isDescendentOf isFirst child with
    | error e => simp [hstays, bind, Except.bind] at h
    | ok stays =>
      cases stays with
      | false =>
        simp only [hstays, bind, Except.bind, Bool.false_eq_true, if_false] at h
        rw [itemsOf_pruneChildren h]
        simp only [Node.itemsOf_append, Node.itemsOf_cons, Node.itemsOf_nil]
        abel
      | true =>
        simp only [hstays, bind, Except.bind, if_true] at h
        rw [itemsOf_pruneChildren h]
        simp only [Node.itemsOf_append, Node.itemsOf_cons, Node.itemsOf_nil]
        abel

omit [DecidableEq H] [LinearOrder N] in
theorem removedItems_coe (removed : List (Node H N V)) :
    (removedItems removed : Multiset (H × N × V)) = Node.itemsOf removed := by
  rw [removedItems]
  exact Multiset.coe_eq_coe.mpr ((Node.Perm.preorderOf (List.reverse_perm removed)).map Node.item)

omit [DecidableEq H] in
theorem findRootIndexWhere_ne_error (htotal : ∀ a b, ∃ r, isDescendentOf a b = .ok r) :
    ∀ (k : Nat) (roots : List (Node H N V)) (e : Error E),
      findRootIndexWhere hash number isDescendentOf predicate k roots ≠ .error e
  | _, [], _, h => by simp [findRootIndexWhere] at h
  | k, root :: roots, e, h => by
    rw [findRootIndexWhere] at h
    split at h
    · rename_i e' hroot
      exact Node.findNodeIndexWhere_ne_error htotal root e' hroot
    · cases h
    · exact findRootIndexWhere_ne_error htotal (k + 1) roots e h

theorem pruneChildren_ne_error (htotal : ∀ a b, ∃ r, isDescendentOf a b = .ok r) :
    ∀ (children : List (Node H N V)) (isFirst : Bool) (kept removed : List (Node H N V)) (e : Error E),
      pruneChildren hash number isDescendentOf children isFirst kept removed ≠ .error e
  | [], _, _, _, _, h => by simp [pruneChildren] at h
  | child :: children, isFirst, kept, removed, e, h => by
    rw [pruneChildren] at h
    cases hstays : childStays hash number isDescendentOf isFirst child with
    | error e' =>
      -- `childStays` asks the oracle at most once, and it answers
      obtain ⟨r, hr⟩ := htotal child.hash hash
      simp only [childStays] at hstays
      split_ifs at hstays <;> simp_all [pure, Except.pure]
    | ok stays =>
      cases stays with
      | false =>
        simp only [hstays, bind, Except.bind, Bool.false_eq_true, if_false] at h
        exact pruneChildren_ne_error htotal children isFirst kept _ e h
      | true =>
        simp only [hstays, bind, Except.bind, if_true] at h
        exact pruneChildren_ne_error htotal children false _ removed e h

/-- With an oracle that never fails, `prune` succeeds. -/
theorem prune_ne_error (htotal : ∀ a b, ∃ r, isDescendentOf a b = .ok r) (tree : ForkTree H N V)
    (e : Error E) (t' : ForkTree H N V) : prune hash number isDescendentOf predicate tree ≠ .error e t' := by
  intro h
  simp only [prune, bind_apply, get_apply] at h
  cases hfind : tree.findNodeIndexWhere hash number isDescendentOf predicate with
  | error e' => exact findRootIndexWhere_ne_error htotal 0 tree.roots e' hfind
  | ok newRootIndex =>
    cases newRootIndex with
    | none => simp [hfind] at h
    | some rootIndex =>
      simp only [hfind, ofExcept_ok, bind_apply, set_apply] at h
      cases hdetach : detach rootIndex.reverse tree.roots with
      | none => simp [hdetach] at h
      | some detached =>
        obtain ⟨root, rest⟩ := detached
        simp only [hdetach, bind_apply] at h
        cases hprune : pruneChildren hash number isDescendentOf root.children true [] rest with
        | error e' => exact pruneChildren_ne_error htotal _ _ _ _ e' hprune
        | ok result => simp [hprune] at h

/-- `prune`, when it succeeds, splits the items between the tree it leaves and
what its `RemovedIterator` yields. -/
theorem items_prune {removed : List (Node H N V)}
    (h : prune hash number isDescendentOf predicate tree = .ok removed t') :
    t'.items + removedItems removed = tree.items := by
  simp only [prune, bind_apply, get_apply] at h
  cases hfind : tree.findNodeIndexWhere hash number isDescendentOf predicate with
  | error e => simp [hfind] at h
  | ok newRootIndex =>
    cases newRootIndex with
    | none =>
      simp only [hfind, ofExcept_ok, bind_apply, pure_apply, modify_apply, EStateM.Result.ok.injEq] at h
      obtain ⟨rfl, rfl⟩ := h
      simp [items_rebalance, removedItems]
    | some rootIndex =>
      simp only [hfind, ofExcept_ok, bind_apply, set_apply] at h
      -- the walk finds the new root
      obtain ⟨⟨root, rest⟩, hdetach⟩ := Option.isSome_iff_exists.mp (detach_isSome hfind)
      simp only [hdetach, bind_apply] at h
      cases hprune : pruneChildren hash number isDescendentOf root.children true [] rest with
      | error e => simp [hprune] at h
      | ok result =>
        obtain ⟨children, removed'⟩ := result
        simp only [hprune, ofExcept_ok, set_apply, pure_apply, modify_apply, EStateM.Result.ok.injEq] at h
        obtain ⟨rfl, rfl⟩ := h
        have hsplit := itemsOf_pruneChildren hprune
        rw [items_rebalance, removedItems_coe]
        simp only [items, Node.itemsOf_cons, Node.itemsOf_nil, add_zero, itemsOf_detach hdetach,
          Node.items_eq_add root, Node.items_eq_add { root with children }]
        simp only [Node.itemsOf_nil, zero_add] at hsplit
        rw [add_assoc, hsplit]
        simp only [Node.item]
        abel

end ForkTree

end ForkTree
