import CherryNode.Lib.BlockTree
import CherryNode.Lib.Run
import CherryNode.ForkTree.Atomic

/-!
# The fork tree stays a tree of its blocks

With `is_descendent_of` exact for a block tree `B` (`exactOracle`) and each
block imported with its number before its descendants (`ImportsInOrder`),
every node is the block-descendant of its tree parent with the number `B`
gives it, and siblings, roots among them, are on different forks (`ForestWF`).
Hashes are then distinct (`ForestWF.nodup`): tree ancestors are block
ancestors, and two block ancestors of one block are never on different forks.

Every call keeps `ForestWF`: `import` inserts below the one child that is an
ancestor of the block, or under the node itself; the finalizing calls and
`prune` keep roots or children re-rooted at a node of the tree, and open a root
into its children, on forks different from the other roots
(`BlockTree.Independent.anc_right`).  Only `import` needs the oracle exact.
-/

set_option linter.dupNamespace false

namespace ForkTree

open EStateRun

variable {H N V E : Type} [LinearOrder N] (B : BlockTree H N)
variable {node : Node H N V} {nodes nodes' : List (Node H N V)} {tree : ForkTree H N V}

/-- `is_descendent_of` answering for the block tree `B`, without failing. -/
def exactOracle (base target : H) : Except E Bool := .ok (decide (B.anc base target))

/-- A node of the tree: it has its block's number, its children are
descendants of its block on pairwise different forks, and they are such nodes. -/
inductive NodeWF : Node H N V → Prop
  | mk {hash : H} {number : N} {data : V} {children : List (Node H N V)} :
      number = B.num hash →
      (∀ child ∈ children, B.anc hash child.hash) →
      children.Pairwise (fun a b => B.Independent a.hash b.hash) →
      (∀ child ∈ children, NodeWF child) →
      NodeWF ⟨hash, number, data, children⟩

/-- A forest of such nodes, on pairwise different forks. -/
structure ForestWF (nodes : List (Node H N V)) : Prop where
  nodes_wf : ∀ node ∈ nodes, NodeWF B node
  independent : nodes.Pairwise (fun a b => B.Independent a.hash b.hash)

variable {B}

namespace NodeWF

theorem number_eq (h : NodeWF B node) : node.number = B.num node.hash := by
  cases h with
  | mk hnum _ _ _ => exact hnum

theorem anc_child {node child : Node H N V} (h : NodeWF B node) (hchild : child ∈ node.children) :
    B.anc node.hash child.hash := by
  cases h with
  | mk _ hanc _ _ => exact hanc child hchild

theorem forest (h : NodeWF B node) : ForestWF B node.children := by
  cases h with
  | mk _ _ hpair hchildren => exact ⟨hchildren, hpair⟩

theorem of_hashes_perm {hash : H} {number : N} {data : V} {children children' : List (Node H N V)}
    (h : NodeWF B ⟨hash, number, data, children⟩)
    (hperm : (children'.map Node.hash).Perm (children.map Node.hash))
    (hwf : ∀ child ∈ children', NodeWF B child) : NodeWF B ⟨hash, number, data, children'⟩ := by
  cases h with
  | mk hnum hanc hpair _ =>
    refine .mk hnum ?_ ?_ hwf
    · intro child hchild
      obtain ⟨c, hc, hceq⟩ := List.mem_map.mp (hperm.subset (List.mem_map_of_mem hchild))
      exact hceq ▸ hanc c hc
    · rw [← List.pairwise_map] at hpair ⊢
      exact (hperm.pairwise_iff BlockTree.Independent.symm).mpr hpair

end NodeWF

namespace ForestWF

theorem nil : ForestWF B ([] : List (Node H N V)) := ⟨by simp, List.Pairwise.nil⟩

theorem sublist (h : ForestWF B nodes) (hsub : nodes'.Sublist nodes) :
    ForestWF B nodes' :=
  ⟨fun node hnode => h.nodes_wf node (hsub.subset hnode), h.independent.sublist hsub⟩

theorem singleton (h : NodeWF B node) : ForestWF B [node] :=
  ⟨by simpa using h, List.pairwise_singleton _ _⟩

theorem of_hashes_perm (h : ForestWF B nodes)
    (hperm : (nodes'.map Node.hash).Perm (nodes.map Node.hash))
    (hwf : ∀ node ∈ nodes', NodeWF B node) : ForestWF B nodes' := by
  refine ⟨hwf, ?_⟩
  have hpair := h.independent
  rw [← List.pairwise_map] at hpair ⊢
  exact (hperm.pairwise_iff BlockTree.Independent.symm).mpr hpair

theorem append (h : ForestWF B nodes) (h' : ForestWF B nodes')
    (hind : ∀ a ∈ nodes, ∀ b ∈ nodes', B.Independent a.hash b.hash) : ForestWF B (nodes ++ nodes') := by
  refine ⟨?_, List.pairwise_append.mpr ⟨h.independent, h'.independent, hind⟩⟩
  intro node hnode
  rcases List.mem_append.mp hnode with hnode | hnode
  · exact h.nodes_wf node hnode
  · exact h'.nodes_wf node hnode

end ForestWF

/-! ## The nodes of a subtree -/

namespace NodeWF

theorem of_mem_preorder (h : NodeWF B node) :
    ∀ x ∈ Node.preorder node, NodeWF B x ∧ B.AncOrSelf node.hash x.hash := by
  induction h with
  | @mk hash number data children hnum hanc hpair hchildren ih =>
    intro x hx
    rcases Node.mem_preorder_mk.mp hx with rfl | hx
    · exact ⟨.mk hnum hanc hpair hchildren, .refl _⟩
    · -- `x` lies below a child, itself below this node
      obtain ⟨child, hchild, hx⟩ := Node.mem_preorderOf.mp hx
      obtain ⟨hwf, hrel⟩ := ih child hchild x hx
      exact ⟨hwf, .inr (BlockTree.AncOrSelf.anc_trans (hanc child hchild) hrel)⟩

end NodeWF

theorem nodup_preorderOf
    (hind : nodes.Pairwise (fun a b => B.Independent a.hash b.hash))
    (hrel : ∀ node ∈ nodes, ∀ x ∈ Node.preorder node, B.AncOrSelf node.hash x.hash)
    (hnodup : ∀ node ∈ nodes, ((Node.preorder node).map Node.hash).Nodup) :
    ((Node.preorderOf nodes).map Node.hash).Nodup := by
  induction nodes with
  | nil => simp
  | cons node nodes ih =>
    rw [List.pairwise_cons] at hind
    rw [Node.preorderOf_cons, List.map_append, List.nodup_append]
    refine ⟨hnodup node (by simp), ih hind.2 (fun n hn => hrel n (by simp [hn]))
      (fun n hn => hnodup n (by simp [hn])), ?_⟩
    -- a block of this tree and one of a later tree: both below roots on different forks
    intro a ha b hb hab
    obtain ⟨x, hx, rfl⟩ := List.mem_map.mp ha
    obtain ⟨y, hy, rfl⟩ := List.mem_map.mp hb
    obtain ⟨node', hnode', hy⟩ := Node.mem_preorderOf.mp hy
    have hx' := hrel node (by simp) x hx
    have hy' := hrel node' (by simp [hnode']) y hy
    rw [← hab] at hy'
    exact BlockTree.not_independent_of_ancOrSelf hx' hy' (hind.1 node' hnode')

theorem NodeWF.nodup (h : NodeWF B node) : ((Node.preorder node).map Node.hash).Nodup := by
  induction h with
  | @mk hash number data children hnum hanc hpair hchildren ih =>
    rw [Node.preorder_mk, List.map_cons, List.nodup_cons]
    constructor
    · -- the nodes below are strict descendants of this block
      intro hmem
      obtain ⟨x, hx, hxeq⟩ := List.mem_map.mp hmem
      obtain ⟨child, hchild, hx⟩ := Node.mem_preorderOf.mp hx
      have hrel := ((hchildren child hchild).of_mem_preorder x hx).2
      exact B.ne_of_anc (BlockTree.AncOrSelf.anc_trans (hanc child hchild) hrel) hxeq.symm
    · exact nodup_preorderOf hpair (fun child hchild => fun x hx => ((hchildren child hchild).of_mem_preorder x hx).2) ih

namespace ForestWF

theorem of_mem_preorderOf (h : ForestWF B nodes) {x : Node H N V}
    (hx : x ∈ Node.preorderOf nodes) : NodeWF B x := by
  obtain ⟨node, hnode, hx⟩ := Node.mem_preorderOf.mp hx
  exact ((h.nodes_wf node hnode).of_mem_preorder x hx).1

/-- Hashes are distinct over the whole forest. -/
theorem nodup (h : ForestWF B nodes) :
    ((Node.preorderOf nodes).map Node.hash).Nodup :=
  nodup_preorderOf h.independent (fun node hnode => ((h.nodes_wf node hnode).of_mem_preorder · ·|>.2))
    (fun node hnode => (h.nodes_wf node hnode).nodup)

end ForestWF

/-! ## `rebalance` -/

/-- Rebalancing a subtree reorders children only. -/
theorem NodeWF.rebalance (h : NodeWF B node) :
    NodeWF B node.rebalance ∧ node.rebalance.hash = node.hash := by
  induction h with
  | @mk hash number data children hnum hanc hpair hchildren ih =>
    rw [Node.rebalance_mk]
    have hmem : ∀ c ∈ Node.sortByDepth children, c ∈ children :=
      fun c hc => (Node.sortByDepth_perm children).subset hc
    refine ⟨NodeWF.of_hashes_perm (.mk hnum hanc hpair hchildren) ?_ ?_, rfl⟩
    · -- the blocks of the sorted children, each kept by its own rebalance
      have hhash : ((Node.sortByDepth children).map Node.rebalance).map Node.hash =
          (Node.sortByDepth children).map Node.hash := by
        rw [List.map_map]
        exact List.map_congr_left fun c hc => (ih c (hmem c hc)).2
      rw [hhash]
      exact (Node.sortByDepth_perm children).map Node.hash
    · intro c hc
      obtain ⟨c0, hc0, rfl⟩ := List.mem_map.mp hc
      exact (ih c0 (hmem c0 hc0)).1

theorem ForestWF.rebalance (h : ForestWF B tree.roots) :
    ForestWF B tree.rebalance.roots := by
  have hmem : ∀ c ∈ Node.sortByDepth tree.roots, c ∈ tree.roots :=
    fun c hc => (Node.sortByDepth_perm tree.roots).subset hc
  refine h.of_hashes_perm ?_ ?_
  · have hhash : ((Node.sortByDepth tree.roots).map Node.rebalance).map Node.hash =
        (Node.sortByDepth tree.roots).map Node.hash := by
      rw [List.map_map]
      exact List.map_congr_left fun c hc => ((h.nodes_wf c (hmem c hc)).rebalance).2
    simp only [ForkTree.rebalance]
    rw [hhash]
    exact (Node.sortByDepth_perm tree.roots).map Node.hash
  · intro c hc
    obtain ⟨c0, hc0, rfl⟩ := List.mem_map.mp hc
    exact ((h.nodes_wf c0 (hmem c0 hc0)).rebalance).1

/-! ## `import` -/

section Import

variable [DecidableEq H] {hash : H} {number : N} {data : V}

theorem import_ne_declined (hnum : node.number = B.num node.hash)
    (hnumber : number = B.num hash) (hrel : B.AncOrSelf node.hash hash) :
    node.import hash number data (exactOracle (E := E) B) ≠ .ok .declined := by
  obtain ⟨h, n, d, children⟩ := node
  rcases hrel with rfl | hanc
  · simp [Node.«import»]
  · have hne : h ≠ hash := B.ne_of_anc hanc
    have hlt : ¬ number ≤ n := by
      simp only at hnum
      rw [hnum, hnumber]
      exact not_le.mpr (B.num_lt hanc)
    rw [Node.«import»]
    simp only [hne, hlt, if_false]
    split <;> simp [exactOracle, hanc]

theorem importChildren_declined {isDescendentOf : H → H → Except E Bool} :
    ∀ {nodes : List (Node H N V)},
      Node.importChildren hash number data isDescendentOf nodes = .ok .declined →
        ∀ node ∈ nodes, node.import hash number data isDescendentOf = .ok .declined
  | [], _ => by simp
  | node :: nodes, h => by
    rw [Node.importChildren] at h
    split at h
    · cases h
    · cases h
    · rename_i hnode
      split at h
      · cases h
      · cases h
      · rename_i hnodes
        intro n hn
        rcases List.mem_cons.mp hn with rfl | hn
        · exact hnode
        · exact importChildren_declined hnodes n hn

theorem importChildren_inserted {isDescendentOf : H → H → Except E Bool} :
    ∀ {nodes nodes' : List (Node H N V)},
      (∀ c ∈ nodes, ∀ c', c.import hash number data isDescendentOf = .ok (.inserted c') →
        NodeWF B c' ∧ c'.hash = c.hash) →
      (∀ c ∈ nodes, NodeWF B c) →
      Node.importChildren hash number data isDescendentOf nodes = .ok (.inserted nodes') →
        nodes'.map Node.hash = nodes.map Node.hash ∧ ∀ c' ∈ nodes', NodeWF B c'
  | [], _, _, _, h => by simp [Node.importChildren] at h
  | node :: nodes, nodes', hstep, hwf, h => by
    rw [Node.importChildren] at h
    split at h
    · cases h
    · -- this child took the block
      rename_i node' hnode
      cases h
      obtain ⟨hwf', hhash⟩ := hstep node (by simp) node' hnode
      refine ⟨by simp [hhash], ?_⟩
      intro c hc
      rcases List.mem_cons.mp hc with rfl | hc
      · exact hwf'
      · exact hwf c (by simp [hc])
    · -- a later child did
      split at h
      · cases h
      · rename_i rest' hrest
        cases h
        obtain ⟨hmap, hwf'⟩ := importChildren_inserted (fun c hc => hstep c (by simp [hc]))
          (fun c hc => hwf c (by simp [hc])) hrest
        refine ⟨by simp [hmap], ?_⟩
        intro c hc
        rcases List.mem_cons.mp hc with rfl | hc
        · exact hwf c (by simp)
        · exact hwf' c hc
      · cases h

theorem ForestWF.push_leaf (h : ForestWF B nodes)
    (hnumber : number = B.num hash) (hguard : ∀ x ∈ Node.preorderOf nodes, ¬ B.anc hash x.hash)
    (hdecl : ∀ node ∈ nodes, node.import hash number data (exactOracle (E := E) B) = .ok .declined) :
    ForestWF B (nodes ++ [⟨hash, number, data, []⟩]) := by
  refine h.append (.singleton (.mk hnumber (by simp) List.Pairwise.nil (by simp))) ?_
  intro node hnode leaf hleaf
  rw [List.mem_singleton] at hleaf
  subst hleaf
  have hnot : ¬ B.AncOrSelf node.hash hash := fun hrel =>
    import_ne_declined (h.nodes_wf node hnode).number_eq hnumber hrel (hdecl node hnode)
  refine ⟨fun heq => hnot (.inl heq), fun hanc => hnot (.inr hanc), ?_⟩
  exact hguard node (Node.mem_preorderOf.mpr ⟨node, hnode, Node.self_mem_preorder node⟩)

/-- `Node::import` keeps a subtree well formed, and its root. -/
theorem NodeWF.import (hnumber : number = B.num hash) (h : NodeWF B node) :
    (∀ x ∈ Node.preorder node, ¬ B.anc hash x.hash) →
      ∀ {node' : Node H N V}, node.import hash number data (exactOracle (E := E) B) = .ok (.inserted node') →
        NodeWF B node' ∧ node'.hash = node.hash := by
  induction h with
  | @mk h n d children hnum hanc hpair hchildren ih =>
    intro hguard node' himport
    have hguard' : ∀ x ∈ Node.preorderOf children, ¬ B.anc hash x.hash :=
      fun x hx => hguard x (Node.mem_preorder_mk.mpr (.inr hx))
    have hwf : NodeWF B ⟨h, n, d, children⟩ := .mk hnum hanc hpair hchildren
    rw [Node.«import»] at himport
    by_cases hdup : h = hash
    · simp [hdup] at himport
    by_cases hle : number ≤ n
    · simp [hdup, hle] at himport
    simp only [hdup, hle, if_false] at himport
    split at himport
    · cases himport
    · -- a child took the block: the same children's blocks
      rename_i children' hchildren'
      cases himport
      obtain ⟨hmap, hwf'⟩ := importChildren_inserted
        (fun c hc c' => ih c hc fun x hx => hguard' x (Node.mem_preorderOf.mpr ⟨c, hc, hx⟩))
        hchildren hchildren'
      exact ⟨hwf.of_hashes_perm (hmap ▸ List.Perm.refl _) hwf', rfl⟩
    · -- no child did, and this node is an ancestor of the block: a new leaf
      rename_i hdecl
      by_cases hanc' : B.anc h hash
      · simp only [exactOracle, ask_ok, hanc', decide_true] at himport
        cases himport
        have hforest := hwf.forest.push_leaf hnumber hguard' (importChildren_declined hdecl)
        refine ⟨.mk hnum ?_ hforest.independent hforest.nodes_wf, rfl⟩
        intro c hc
        rcases List.mem_append.mp hc with hc | hc
        · exact hanc c hc
        · rw [List.mem_singleton] at hc
          subst hc
          exact hanc'
      · simp [exactOracle, hanc'] at himport

/-- `ForkTree::import` keeps the tree well formed, whether it succeeds or not. -/
theorem ForestWF.import (h : ForestWF B tree.roots) (hnumber : number = B.num hash)
    (hguard : ∀ x ∈ tree.nodeIter, ¬ B.anc hash x.hash) :
    ForestWF B (stateOf (ForkTree.«import» hash number data (exactOracle (E := E) B) tree)).roots := by
  simp only [ForkTree.«import», bind_apply, get_apply]
  split
  · simp [h]
  · rw [ForkTree.importRoots_eq_importChildren]
    cases himport : Node.importChildren hash number data (exactOracle (E := E) B) tree.roots with
    | error e => simpa using h
    | ok r =>
      cases r with
      | inserted roots =>
        obtain ⟨hmap, hwf⟩ := importChildren_inserted
          (fun c hc c' => (h.nodes_wf c hc).import hnumber
            fun x hx => hguard x (Node.mem_preorderOf.mpr ⟨c, hc, hx⟩))
          h.nodes_wf himport
        simp only [bind_apply, set_apply, modify_apply, pure_apply, stateOf_ok]
        have hroots : ForestWF B ({ tree with roots } : ForkTree H N V).roots :=
          h.of_hashes_perm (hmap ▸ List.Perm.refl _) hwf
        exact ForestWF.rebalance hroots
      | declined =>
        simp only [bind_apply, set_apply, modify_apply, pure_apply, stateOf_ok]
        exact ForestWF.rebalance (B := B) (h.push_leaf hnumber hguard (importChildren_declined himport))

end Import

/-! ## The finalizing calls and `prune`

None of these asks `B`: whatever the oracle answers, they keep roots or
children they were given, re-root at a node of the tree or open a root. -/

theorem NodeWF.of_sublist {hash : H} {number : N} {data : V} {children children' : List (Node H N V)}
    (h : NodeWF B ⟨hash, number, data, children⟩) (hsub : children'.Sublist children) :
    NodeWF B ⟨hash, number, data, children'⟩ := by
  cases h with
  | mk hnum hanc hpair hchildren =>
    exact .mk hnum (fun c hc => hanc c (hsub.subset hc)) (hpair.sublist hsub)
      fun c hc => hchildren c (hsub.subset hc)

namespace ForestWF

theorem children_of_mem (h : ForestWF B nodes)
    (hnode : node ∈ nodes) : ForestWF B node.children :=
  (h.nodes_wf node hnode).forest

theorem swapRemove (h : ForestWF B nodes) {i : Nat} (hi : i < nodes.length) :
    ForestWF B (nodes.swapRemove i) :=
  ⟨fun node hnode => h.nodes_wf node (List.mem_of_mem_swapRemove hi hnode),
    h.independent.swapRemove BlockTree.Independent.symm hi⟩

/-- A root opened into its children: they descend from it, so they are on
other forks than the roots it was on another fork from. -/
theorem openRoot (h : ForestWF B nodes) {i : Nat} (hi : i < nodes.length) :
    ForestWF B (nodes.swapRemove i ++ nodes[i].children) := by
  have hroot := h.nodes_wf _ (List.getElem_mem hi)
  refine (h.swapRemove hi).append hroot.forest ?_
  intro a ha c hc
  exact (h.independent.rel_of_mem_swapRemove BlockTree.Independent.symm hi ha).anc_right (hroot.anc_child hc)

theorem finalizeRoot {ε : Type} [DecidableEq H] (h : ForestWF B tree.roots) (hash : H) :
    ForestWF B (stateOf ((ForkTree.finalizeRoot hash : EStateM ε (ForkTree H N V) (Option V)) tree)).roots := by
  rw [ForkTree.finalizeRoot_apply]
  cases hfind : tree.roots.find? (·.hash = hash) with
  | none => simpa using h
  | some node => simpa using h.children_of_mem (List.mem_of_find?_eq_some hfind)

end ForestWF

omit [LinearOrder N] in
theorem retainRoots_stateOf (retains : Node H N V → Except (Error E) Bool) :
    ∀ (roots : List (Node H N V)) (changed : Bool) (tree : ForkTree H N V),
      ∃ kept, stateOf (ForkTree.retainRoots retains roots changed tree) =
        { tree with roots := tree.roots ++ kept } ∧ kept.Sublist roots
  | [], _, tree => ⟨[], by simp [ForkTree.retainRoots], List.nil_sublist _⟩
  | root :: roots, changed, tree => by
    simp only [ForkTree.retainRoots, bind_apply]
    cases hr : retains root with
    | error e => exact ⟨[], by simp, List.nil_sublist _⟩
    | ok stays =>
      cases stays with
      | false =>
        obtain ⟨kept, hkept, hsub⟩ := retainRoots_stateOf retains roots true tree
        exact ⟨kept, by simpa using hkept, hsub.cons root⟩
      | true =>
        obtain ⟨kept, hkept, hsub⟩ :=
          retainRoots_stateOf retains roots changed { tree with roots := tree.roots ++ [root] }
        exact ⟨root :: kept, by simpa using hkept, hsub.cons_cons root⟩

omit [LinearOrder N] in
theorem retainTail_roots (retains : Node H N V → Except (Error E) Bool) (roots : List (Node H N V))
    (tree : ForkTree H N V) (number : N) (result : Bool → FinalizationResult V) :
    ∃ kept, kept.Sublist roots ∧ (stateOf ((do
      let changed ← ForkTree.retainRoots retains roots false
      modify fun tree : ForkTree H N V => { tree with bestFinalizedNumber := some number }
      pure (result changed) : TreeM H N V E (FinalizationResult V)) { tree with roots := [] })).roots = kept := by
  obtain ⟨kept, hkept, hsub⟩ := retainRoots_stateOf retains roots false { tree with roots := [] }
  refine ⟨kept, hsub, ?_⟩
  simp only [bind_apply]
  revert hkept
  cases ForkTree.retainRoots retains roots false { tree with roots := [] } with
  | ok changed t' =>
    intro hkept
    simp only [stateOf_ok] at hkept
    subst hkept
    simp
  | error e t' =>
    intro hkept
    simp only [stateOf_error] at hkept
    subst hkept
    simp

theorem ForestWF.retainTail {roots : List (Node H N V)} (h : ForestWF B roots)
    (retains : Node H N V → Except (Error E) Bool) (tree : ForkTree H N V) (number : N)
    (result : Bool → FinalizationResult V) :
    ForestWF B (stateOf ((do
      let changed ← ForkTree.retainRoots retains roots false
      modify fun tree : ForkTree H N V => { tree with bestFinalizedNumber := some number }
      pure (result changed) : TreeM H N V E (FinalizationResult V)) { tree with roots := [] })).roots := by
  obtain ⟨kept, hsub, hroots⟩ := retainTail_roots retains roots tree number result
  rw [hroots]
  exact h.sublist hsub

section Finalize

variable [DecidableEq H] {hash : H} {number : N} {isDescendentOf : H → H → Except E Bool}

theorem ForestWF.finalize (h : ForestWF B tree.roots) :
    ForestWF B (stateOf (ForkTree.finalize hash number isDescendentOf tree)).roots := by
  simp only [ForkTree.finalize, bind_apply, get_apply]
  split
  · simpa using h
  · simp only [bind_apply]
    rw [ForkTree.finalizeRoot_apply]
    cases hfind : tree.roots.find? (·.hash = hash) with
    | some node => simpa using h.children_of_mem (List.mem_of_find?_eq_some hfind)
    | none =>
      simp only [get_apply, bind_apply, set_apply]
      cases ForkTree.checkUnfinalized (· < number) hash isDescendentOf tree.roots with
      | error e => simpa using h
      | ok u => exact h.retainTail _ tree number _

theorem ForestWF.finalizeWithAncestorsLoop (idx : Nat) (changed : Bool) (tree : ForkTree H N V)
    (h : ForestWF B tree.roots) :
    ForestWF B (stateOf (ForkTree.finalizeWithAncestorsLoop hash number isDescendentOf idx changed tree)).roots := by
  fun_induction ForkTree.finalizeWithAncestorsLoop hash number isDescendentOf idx changed tree with
  | case1 idx changed tree hidx root hfinal =>
    -- the finalized root: its children become the roots
    simpa [ForkTree.finalizeRootAt] using h.children_of_mem (List.getElem_mem hidx)
  | case2 idx changed tree hidx root hfinal e hancestry => simpa using h
  | case3 idx changed tree hidx root hfinal isAncestor hancestry ih => exact ih h
  | case4 idx changed tree hidx root hfinal isDescendant hnotDescendant hancestry ih =>
    exact ih (h.openRoot hidx)
  | case5 idx changed tree hidx root hfinal isDescendant isAncestor hancestry hnotDescendant hnotAncestor ih =>
    exact ih (h.swapRemove hidx)
  | case6 idx changed tree hidx => simpa using h

theorem ForestWF.finalizeWithAncestors (h : ForestWF B tree.roots) :
    ForestWF B (stateOf (ForkTree.finalizeWithAncestors hash number isDescendentOf tree)).roots := by
  simp only [ForkTree.finalizeWithAncestors, bind_apply, get_apply]
  split
  · simpa using h
  · simp only [bind_apply]
    rw [ForkTree.finalizeRoot_apply]
    cases hfind : tree.roots.find? (·.hash = hash) with
    | some node => simpa using h.children_of_mem (List.mem_of_find?_eq_some hfind)
    | none => exact h.finalizeWithAncestorsLoop 0 false tree

theorem findFinalizedRoot_mem {predicate : V → Bool} :
    ∀ {roots : List (Node H N V)} {node : Node H N V},
      ForkTree.findFinalizedRoot hash number isDescendentOf predicate roots = .ok (some node) → node ∈ roots
  | [], _, h => by simp [ForkTree.findFinalizedRoot] at h
  | root :: roots, node, h => by
    rw [ForkTree.findFinalizedRoot] at h
    cases hhit : ForkTree.finalizesAt hash isDescendentOf predicate root with
    | error e => simp [hhit, bind, Except.bind] at h
    | ok hit =>
      cases hit with
      | false =>
        simp only [hhit, bind, Except.bind, Bool.false_eq_true, if_false] at h
        exact List.mem_cons_of_mem _ (findFinalizedRoot_mem h)
      | true =>
        -- this root, unless a child is an unfinalized ancestor
        cases hcheck : ForkTree.checkUnfinalized (· ≤ number) hash isDescendentOf root.children with
        | error e => simp [hhit, hcheck, bind, Except.bind] at h
        | ok u =>
          simp only [hhit, hcheck, bind, Except.bind, if_true, pure, Except.pure, Except.ok.injEq,
            Option.some.injEq] at h
          subst h
          exact List.mem_cons_self

theorem ForestWF.finalizeWithDescendentIf (h : ForestWF B tree.roots)
    (predicate : V → Bool) :
    ForestWF B (stateOf (ForkTree.finalizeWithDescendentIf hash number isDescendentOf predicate tree)).roots := by
  simp only [ForkTree.finalizeWithDescendentIf, bind_apply, get_apply]
  split
  · simpa using h
  · cases hfind : ForkTree.findFinalizedRoot hash number isDescendentOf predicate tree.roots with
    | error e => simpa using h
    | ok position =>
      cases position with
      | none => exact h.retainTail _ tree number _
      | some node =>
        simp only [ofExcept_ok, ForkTree.finalizeRootAt, bind_apply, map_apply, set_apply, pure_apply,
          get_apply]
        exact (h.children_of_mem (findFinalizedRoot_mem hfind)).retainTail _ ⟨node.children, some node.number⟩ number _

omit [LinearOrder N] [DecidableEq H] in
theorem detach_mem : ∀ {path : List Nat} {nodes : List (Node H N V)} {root : Node H N V}
    {rest : List (Node H N V)}, ForkTree.detach path nodes = some (root, rest) → root ∈ Node.preorderOf nodes
  | [], _, _, _, h => by simp [ForkTree.detach] at h
  | [i], nodes, root, rest, h => by
    simp only [ForkTree.detach] at h
    split_ifs at h with hi
    cases h
    exact Node.mem_preorderOf.mpr ⟨_, List.getElem_mem hi, Node.self_mem_preorder _⟩
  | i :: j :: path, nodes, root, rest, h => by
    simp only [ForkTree.detach] at h
    split_ifs at h with hi
    obtain ⟨⟨root', children⟩, hdetach, heq⟩ := Option.map_eq_some_iff.mp h
    cases heq
    -- found below the `i`-th node
    have hbelow := detach_mem hdetach
    refine Node.mem_preorderOf.mpr ⟨_, List.getElem_mem hi, ?_⟩
    rw [Node.preorder_eq_cons]
    exact List.mem_cons_of_mem _ hbelow

theorem pruneChildren_kept :
    ∀ {children : List (Node H N V)} {isFirst : Bool} {kept removed kept' removed' : List (Node H N V)},
      ForkTree.pruneChildren hash number isDescendentOf children isFirst kept removed = .ok (kept', removed') →
        ∃ stay, kept' = kept ++ stay ∧ stay.Sublist children
  | [], _, kept, _, _, _, h => by
    simp only [ForkTree.pruneChildren, Except.ok.injEq, Prod.mk.injEq] at h
    exact ⟨[], by simp [h.1], List.nil_sublist _⟩
  | child :: children, isFirst, kept, removed, kept', removed', h => by
    rw [ForkTree.pruneChildren] at h
    cases hstays : ForkTree.childStays hash number isDescendentOf isFirst child with
    | error e => simp [hstays, bind, Except.bind] at h
    | ok stays =>
      cases stays with
      | false =>
        simp only [hstays, bind, Except.bind, Bool.false_eq_true, if_false] at h
        obtain ⟨stay, rfl, hsub⟩ := pruneChildren_kept h
        exact ⟨stay, rfl, hsub.cons child⟩
      | true =>
        simp only [hstays, bind, Except.bind, if_true] at h
        obtain ⟨stay, rfl, hsub⟩ := pruneChildren_kept h
        exact ⟨child :: stay, by simp, hsub.cons_cons child⟩

theorem ForestWF.prune (h : ForestWF B tree.roots) (predicate : V → Bool) :
    ForestWF B (stateOf (ForkTree.prune hash number isDescendentOf predicate tree)).roots := by
  simp only [ForkTree.prune, bind_apply, get_apply]
  cases tree.findNodeIndexWhere hash number isDescendentOf predicate with
  | error e => simpa using h
  | ok newRootIndex =>
    cases newRootIndex with
    | none => simpa using h.rebalance
    | some rootIndex =>
      simp only [ofExcept_ok, bind_apply, set_apply]
      cases hdetach : ForkTree.detach rootIndex.reverse tree.roots with
      | none =>
        simp only [bind_apply, modify_apply, pure_apply, stateOf_ok]
        exact ForestWF.rebalance ForestWF.nil
      | some detached =>
        obtain ⟨root, removed⟩ := detached
        have hroot := h.of_mem_preorderOf (detach_mem hdetach)
        simp only [bind_apply]
        cases hprune : ForkTree.pruneChildren hash number isDescendentOf root.children true [] removed with
        | error e =>
          simp only [ofExcept_error, stateOf_error]
          exact ForestWF.nil
        | ok result =>
          obtain ⟨children, removed'⟩ := result
          obtain ⟨stay, hstay, hsub⟩ := pruneChildren_kept hprune
          have hchildren : children.Sublist root.children := by
            rw [hstay]
            simpa using hsub
          -- the new root keeps a sublist of its children
          have hnew : NodeWF B { root with children } := by
            obtain ⟨h', n, d, cs⟩ := root
            exact hroot.of_sublist hchildren
          simp only [ofExcept_ok]
          exact ForestWF.rebalance (.singleton hnew)

end Finalize

/-! ## Runs -/

/-- No block is imported after one of its descendants is in the tree, and
each with its number. -/
def ImportsInOrder (B : BlockTree H N) (tree : ForkTree H N V) : Op H N V → Prop
  | .«import» hash number _ => number = B.num hash ∧ ∀ x ∈ tree.nodeIter, ¬ B.anc hash x.hash
  | _ => True

/-- One call keeps the tree well formed, when an `import` keeps to the order. -/
theorem ForestWF.apply [DecidableEq H] (h : ForestWF B tree.roots) {op : Op H N V}
    (hop : ImportsInOrder B tree op) : ForestWF B (Op.apply (exactOracle (E := E) B) tree op).roots := by
  cases op with
  | «import» hash number data => exact h.import hop.1 hop.2
  | finalizeRoot hash => exact h.finalizeRoot hash
  | finalize hash number => exact h.finalize
  | finalizeWithAncestors hash number => exact h.finalizeWithAncestors
  | finalizeWithDescendentIf hash number predicate => exact h.finalizeWithDescendentIf predicate
  | prune hash number predicate => exact h.prune predicate
  | rebalance => exact h.rebalance

theorem ForestWF.run [DecidableEq H] (ops : List (Op H N V))
    (hguard : StepRun.Guarded (Op.apply (exactOracle (E := E) B)) (ImportsInOrder B) ForkTree.new ops) :
    ForestWF B (ops.foldl (Op.apply (exactOracle (E := E) B)) ForkTree.new).roots :=
  StepRun.foldl_invariant (fun tree : ForkTree H N V => ForestWF B tree.roots) (ImportsInOrder B)
    (fun _ _ h hop => h.apply hop) ops ForkTree.new ForestWF.nil hguard

/-! ## The shape of every tree of a run -/

/-- The tree of blocks the fork tree is meant to be: hashes are distinct,
each child is a block-descendant of its parent with a larger number, and
neither two siblings nor two roots are block-ancestor-related. -/
def IsBlockForest (B : BlockTree H N) (tree : ForkTree H N V) : Prop :=
  (tree.iter.map (·.1)).Nodup ∧
    (∀ node ∈ tree.nodeIter, ∀ child ∈ node.children,
      B.anc node.hash child.hash ∧ node.number < child.number) ∧
    (∀ node ∈ tree.nodeIter,
      node.children.Pairwise fun a b => ¬ B.anc a.hash b.hash ∧ ¬ B.anc b.hash a.hash) ∧
    tree.roots.Pairwise fun a b => ¬ B.anc a.hash b.hash ∧ ¬ B.anc b.hash a.hash

theorem ForestWF.isBlockForest (h : ForestWF B tree.roots) : IsBlockForest B tree := by
  have hnodes : ∀ node ∈ tree.nodeIter, NodeWF B node := fun node hnode => h.of_mem_preorderOf hnode
  refine ⟨?_, ?_, ?_, ?_⟩
  · -- the first components of `iter` are the hashes of the nodes
    have hfst : tree.iter.map (·.1) = tree.nodeIter.map Node.hash := by
      simp [ForkTree.iter, Node.item, Function.comp_def]
    rw [hfst]
    exact h.nodup
  · intro node hnode child hchild
    have hwf := hnodes node hnode
    have hchildwf := hwf.forest.nodes_wf child hchild
    have hanc := hwf.anc_child hchild
    refine ⟨hanc, ?_⟩
    rw [hwf.number_eq, hchildwf.number_eq]
    exact B.num_lt hanc
  · intro node hnode
    exact (hnodes node hnode).forest.independent.imp fun hind => ⟨hind.2.1, hind.2.2⟩
  · exact h.independent.imp fun hind => ⟨hind.2.1, hind.2.2⟩

theorem imports_in_order_keep_block_forest [DecidableEq H] (B : BlockTree H N) (ops : List (Op H N V))
    (hguard : StepRun.Guarded (Op.apply (exactOracle (E := E) B)) (ImportsInOrder B) ForkTree.new ops) :
    IsBlockForest B (ops.foldl (Op.apply (exactOracle (E := E) B)) ForkTree.new) :=
  (ForestWF.run ops hguard).isBlockForest

/-- One branch of blocks `0, 1, 2, …`, each numbered by itself. -/
def natBranch : BlockTree Nat Nat where
  anc a b := a < b
  num a := a
  anc_trans := Nat.lt_trans
  num_lt h := h
  chain := by
    intro a b c _ _
    omega

theorem imports_in_order_keep_block_forest_two_blocks :
    StepRun.Guarded (Op.apply (exactOracle (E := Unit) natBranch)) (ImportsInOrder natBranch) ForkTree.new
        [.«import» 1 1 (), .«import» 2 2 ()] ∧
      IsBlockForest natBranch
        ([.«import» 1 1 (), .«import» 2 2 ()].foldl (Op.apply (exactOracle (E := Unit) natBranch))
          (ForkTree.new : ForkTree Nat Nat Unit)) := by
  have hguard : StepRun.Guarded (Op.apply (exactOracle (E := Unit) natBranch)) (ImportsInOrder natBranch)
      ForkTree.new [.«import» 1 1 (), .«import» 2 2 ()] := by
    simp [StepRun.Guarded, ImportsInOrder, Op.apply, ForkTree.«import», ForkTree.importRoots, ForkTree.reverts,
      ForkTree.new, ForkTree.rebalance, Node.sortByDepth, Node.rebalance_mk, ForkTree.nodeIter, natBranch]
  exact ⟨hguard, imports_in_order_keep_block_forest natBranch _ hguard⟩

end ForkTree
