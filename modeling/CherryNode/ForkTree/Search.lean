import Mathlib
import CherryNode.ForkTree.WellFormed
import CherryNode.ForkTree.Items

/-!
# The deepest ancestor: `find_node_where` and `prune`

`find_node_index_where` searches depth first for the block `hash`: it skips a
subtree rooted above the block's number, stops at the first child that is an
ancestor of the block (`Failure(true)`: its siblings are on other forks), and
otherwise tests the node itself.  In a well-formed tree with an exact
`is_descendent_of` it finds the node of largest number among the block's strict
ancestors that pass the predicate (`deepestWhere`), and its path leads there
(`nodeAt`).

A block's strict ancestors lie on one branch, so at most one child of a node
holds any, the one that is itself an ancestor; the node above is an ancestor of
the deepest passing one below (`IsDeepestWhere`), and since ancestors have
distinct numbers that node is the `argmax`.  `prune` re-roots the tree there
and keeps only the child that is the block or its ancestor.
-/

namespace List

theorem argmax_eq_some_of_dominates {α β : Type} [LinearOrder β] {f : α → β} {l : List α} {m : α}
    (hm : m ∈ l) (hdom : ∀ a ∈ l, a ≠ m → f a < f m) : l.argmax f = some m := by
  classical
  rw [argmax_eq_some_iff]
  refine ⟨hm, fun a ha => ?_, fun a ha hle => ?_⟩
  · by_cases hne : a = m
    · rw [hne]
    · exact le_of_lt (hdom a ha hne)
  · by_cases hne : a = m
    · rw [hne]
    · exact absurd hle (not_le.mpr (hdom a ha hne))

end List

set_option linter.dupNamespace false

namespace ForkTree

variable {H N V E : Type} [LinearOrder N] {B : BlockTree H N}
variable {nodes children : List (Node H N V)} {x node : Node H N V}

/-! ## What the search is for -/

/-- The nodes among `nodes` that are strict block-ancestors of `hash` and pass
`predicate`. -/
def ancestorsWhere (B : BlockTree H N) (hash : H) (predicate : V → Bool) (nodes : List (Node H N V)) :
    List (Node H N V) :=
  nodes.filter fun x => decide (B.anc x.hash hash) && predicate x.data

/-- The one of them with the largest number. -/
def deepestWhere (B : BlockTree H N) (hash : H) (predicate : V → Bool) (nodes : List (Node H N V)) :
    Option (Node H N V) :=
  (ancestorsWhere B hash predicate nodes).argmax (·.number)

/-- `x` is one of them, and each of them is `x` or an ancestor of it. -/
def IsDeepestWhere (B : BlockTree H N) (hash : H) (predicate : V → Bool) (nodes : List (Node H N V))
    (x : Node H N V) : Prop :=
  x ∈ ancestorsWhere B hash predicate nodes ∧
    ∀ y ∈ ancestorsWhere B hash predicate nodes, B.AncOrSelf y.hash x.hash

namespace ForkTree

/-- The node an index path of `find_node_index_where` leads to: the root at
its last index, then a child at each index before it, innermost first. -/
def nodeAt (tree : ForkTree H N V) (path : List Nat) : Option (Node H N V) :=
  match path.reverse with
  | [] => none
  | i :: indexes => tree.roots[i]?.bind (·.descend indexes)

end ForkTree

variable {hash : H} {predicate : V → Bool}

theorem mem_ancestorsWhere :
    x ∈ ancestorsWhere B hash predicate nodes ↔ x ∈ nodes ∧ B.anc x.hash hash ∧ predicate x.data = true := by
  simp [ancestorsWhere]

@[simp] theorem ancestorsWhere_append (nodes nodes' : List (Node H N V)) :
    ancestorsWhere B hash predicate (nodes ++ nodes') =
      ancestorsWhere B hash predicate nodes ++ ancestorsWhere B hash predicate nodes' :=
  List.filter_append _ _

theorem ancestorsWhere_eq_nil (h : ∀ x ∈ nodes, ¬ B.anc x.hash hash) :
    ancestorsWhere B hash predicate nodes = [] := by
  rw [ancestorsWhere, List.filter_eq_nil_iff]
  intro x hx
  simp [h x hx]

theorem ancestorsWhere_preorder_mk (h : H) (n : N) (d : V) (children : List (Node H N V)) :
    ancestorsWhere B hash predicate (Node.preorder ⟨h, n, d, children⟩) =
      (if B.anc h hash ∧ predicate d = true then [⟨h, n, d, children⟩] else []) ++
        ancestorsWhere B hash predicate (Node.preorderOf children) := by
  rw [Node.preorder_mk, ancestorsWhere, List.filter_cons]
  by_cases hself : B.anc h hash ∧ predicate d = true <;> simp [hself, ancestorsWhere]

theorem IsDeepestWhere.of_ancestorsWhere_eq {nodes nodes' : List (Node H N V)}
    (hx : IsDeepestWhere B hash predicate nodes x)
    (h : ancestorsWhere B hash predicate nodes' = ancestorsWhere B hash predicate nodes) :
    IsDeepestWhere B hash predicate nodes' x := by
  unfold IsDeepestWhere
  rw [h]
  exact hx

theorem deepestWhere_eq_none (h : ancestorsWhere B hash predicate nodes = []) :
    deepestWhere B hash predicate nodes = none := by
  rw [deepestWhere, h, List.argmax_nil]

theorem IsDeepestWhere.deepestWhere_eq (h : ForestWF B nodes)
    (hx : IsDeepestWhere B hash predicate (Node.preorderOf nodes) x) :
    deepestWhere B hash predicate (Node.preorderOf nodes) = some x := by
  refine List.argmax_eq_some_of_dominates hx.1 fun y hy hne => ?_
  have hxmem := (mem_ancestorsWhere.mp hx.1).1
  have hymem := (mem_ancestorsWhere.mp hy).1
  rw [(h.of_mem_preorderOf hymem).number_eq, (h.of_mem_preorderOf hxmem).number_eq]
  rcases hx.2 y hy with heq | hanc
  · -- one hash is one node: hashes are distinct over the forest
    exact absurd (List.inj_on_of_nodup_map h.nodup hymem hxmem heq) hne
  · exact B.num_lt hanc

/-! ## Where the ancestors of a block are -/

theorem NodeWF.not_anc_of_independent (h : NodeWF B node) {a : H}
    (hind : B.Independent a node.hash) (ha : B.AncOrSelf a hash) :
    ∀ y ∈ Node.preorder node, ¬ B.anc y.hash hash := by
  intro y hy hanc
  have hrel : B.AncOrSelf node.hash hash := (h.of_mem_preorder y hy).2.trans (.inr hanc)
  exact BlockTree.not_independent_of_ancOrSelf ha hrel hind

theorem NodeWF.not_anc_of_lt (h : NodeWF B node) (hlt : B.num hash < node.number) :
    ∀ y ∈ Node.preorder node, ¬ B.anc y.hash hash := by
  intro y hy hanc
  have hle := (h.of_mem_preorder y hy).2.num_le
  rw [← h.number_eq] at hle
  exact lt_irrefl _ (lt_trans (lt_of_le_of_lt hle (B.num_lt hanc)) hlt)

theorem not_anc_of_pairwise {c : Node H N V}
    (hind : ∀ c' ∈ nodes, B.Independent c.hash c'.hash) (hwf : ∀ c' ∈ nodes, NodeWF B c')
    (hc : B.AncOrSelf c.hash hash) : ∀ y ∈ Node.preorderOf nodes, ¬ B.anc y.hash hash := by
  intro y hy
  obtain ⟨c', hc', hy⟩ := Node.mem_preorderOf.mp hy
  exact (hwf c' hc').not_anc_of_independent (hind c' hc') hc y hy

theorem NodeWF.isDeepestWhere_of_children {h : H} {n : N} {d : V}
    (hwf : NodeWF B ⟨h, n, d, children⟩)
    (hx : IsDeepestWhere B hash predicate (Node.preorderOf children) x) :
    IsDeepestWhere B hash predicate (Node.preorder ⟨h, n, d, children⟩) x := by
  rw [IsDeepestWhere, ancestorsWhere_preorder_mk]
  refine ⟨List.mem_append_right _ hx.1, fun y hy => ?_⟩
  rcases List.mem_append.mp hy with hy | hy
  · -- the node itself, above `x`
    split_ifs at hy
    · rw [List.mem_singleton.mp hy]
      obtain ⟨c, hc, hxc⟩ := Node.mem_preorderOf.mp (mem_ancestorsWhere.mp hx.1).1
      have hcwf := hwf.forest.nodes_wf c hc
      exact .inr (BlockTree.AncOrSelf.anc_trans (hwf.anc_child hc) (hcwf.of_mem_preorder x hxc).2)
    · cases hy
  · exact hx.2 y hy

/-! ## The search -/

section Search

variable {number : N}

/-- The search of `node` returns what it should: the path to the deepest
strict ancestor of the block below it that passes, or, when there is none,
`Failure` with whether `node` is an ancestor of the block. -/
def FindsDeepest (B : BlockTree H N) (hash : H) (predicate : V → Bool) (node : Node H N V)
    (r : Except (Error E) (FindOutcome (List Nat))) : Prop :=
  (∃ path x, r = .ok (.found path) ∧ node.descend path.reverse = some x ∧
      IsDeepestWhere B hash predicate (Node.preorder node) x) ∨
    (r = .ok (.failure (decide (B.anc node.hash hash))) ∧
      ancestorsWhere B hash predicate (Node.preorder node) = [])

/-- The loop over the children, when each child's search is right: the first
child that finds a node or is an ancestor of the block ends it, and no later
sibling holds an ancestor of the block. -/
theorem findInChildren_findsDeepest :
    ∀ {nodes : List (Node H N V)}, nodes.Pairwise (fun a b => B.Independent a.hash b.hash) →
      (∀ c ∈ nodes, NodeWF B c) →
      (∀ c ∈ nodes, FindsDeepest B hash predicate c
        (c.findNodeIndexWhere hash number (exactOracle (E := E) B) predicate)) →
      ∀ k, (∃ j path c x, Node.findInChildren hash number (exactOracle (E := E) B) predicate k nodes =
              .ok (.found (path ++ [k + j])) ∧ nodes[j]? = some c ∧ c.descend path.reverse = some x ∧
              IsDeepestWhere B hash predicate (Node.preorderOf nodes) x) ∨
        (∃ b, Node.findInChildren hash number (exactOracle (E := E) B) predicate k nodes = .ok (.failure b) ∧
          (b = true ↔ ∃ c ∈ nodes, B.anc c.hash hash) ∧
          ancestorsWhere B hash predicate (Node.preorderOf nodes) = [])
  | [], _, _, _, k => .inr ⟨false, by simp [Node.findInChildren], by simp, by simp [ancestorsWhere]⟩
  | c :: rest, hpair, hwf, hfinds, k => by
    rw [List.pairwise_cons] at hpair
    have hrest : B.AncOrSelf c.hash hash → ∀ y ∈ Node.preorderOf rest, ¬ B.anc y.hash hash :=
      not_anc_of_pairwise hpair.1 fun c' hc' => hwf c' (List.mem_cons_of_mem c hc')
    rw [Node.findInChildren, Node.preorderOf_cons]
    rcases hfinds c List.mem_cons_self with ⟨path, x, hfind, hx, hdeep⟩ | ⟨hfind, hnone⟩
    · -- found below the first child: its siblings hold no ancestor of the block
      have hcx : B.AncOrSelf c.hash hash :=
        ((hwf c List.mem_cons_self).of_mem_preorder x (mem_ancestorsWhere.mp hdeep.1).1).2.trans
          (.inr (mem_ancestorsWhere.mp hdeep.1).2.1)
      refine .inl ⟨0, path, c, x, by rw [hfind]; rfl, rfl, hx, hdeep.of_ancestorsWhere_eq ?_⟩
      rw [ancestorsWhere_append, ancestorsWhere_eq_nil (hrest hcx), List.append_nil]
    · rw [hfind]
      cases hanc : decide (B.anc c.hash hash) with
      | true =>
        -- `Failure(true)`: the loop breaks
        have hc : B.anc c.hash hash := of_decide_eq_true hanc
        refine .inr ⟨true, rfl, ⟨fun _ => ⟨c, List.mem_cons_self, hc⟩, fun _ => rfl⟩, ?_⟩
        rw [ancestorsWhere_append, hnone, ancestorsWhere_eq_nil (hrest (.inr hc)), List.append_nil]
      | false =>
        have hc : ¬ B.anc c.hash hash := of_decide_eq_false hanc
        rcases findInChildren_findsDeepest hpair.2 (fun c' hc' => hwf c' (List.mem_cons_of_mem c hc'))
            (fun c' hc' => hfinds c' (List.mem_cons_of_mem c hc')) (k + 1) with
          ⟨j, path, c', x, hfind', hc', hx, hdeep⟩ | ⟨b, hfind', hb, hnone'⟩
        · refine .inl ⟨j + 1, path, c', x, ?_, by simpa using hc', hx, ?_⟩
          · rw [hfind', Nat.add_assoc, Nat.add_comm 1 j]
          · exact hdeep.of_ancestorsWhere_eq (by rw [ancestorsWhere_append, hnone, List.nil_append])
        · refine .inr ⟨b, hfind', ?_, by rw [ancestorsWhere_append, hnone, hnone', List.append_nil]⟩
          rw [hb]
          constructor
          · rintro ⟨c', hc', hanc'⟩
            exact ⟨c', List.mem_cons_of_mem c hc', hanc'⟩
          · rintro ⟨c', hc', hanc'⟩
            rcases List.mem_cons.mp hc' with rfl | hc'
            · exact absurd hanc' hc
            · exact ⟨c', hc', hanc'⟩

/-- **Step of the search**, by induction over the subtree: the search of a
well-formed subtree is right. -/
theorem NodeWF.findsDeepest (hnumber : number = B.num hash) (h : NodeWF B node) :
    FindsDeepest B hash predicate node (node.findNodeIndexWhere hash number (exactOracle (E := E) B) predicate) := by
  induction h with
  | @mk h n d children hnum hanc hpair hchildren ih =>
    have hwf : NodeWF B ⟨h, n, d, children⟩ := .mk hnum hanc hpair hchildren
    rw [Node.findNodeIndexWhere]
    by_cases hlt : number < n
    · -- numbered above the block: nothing here is its ancestor
      have hnone := hwf.not_anc_of_lt (hnumber ▸ hlt)
      refine .inr ⟨?_, ancestorsWhere_eq_nil hnone⟩
      rw [if_pos hlt, decide_eq_false (hnone _ (Node.self_mem_preorder _))]
    rw [if_neg hlt]
    rcases findInChildren_findsDeepest hpair hchildren ih 0 with
      ⟨j, path, c, x, hfind, hc, hx, hdeep⟩ | ⟨b, hfind, hb, hnone⟩
    · -- found below child `j`
      refine .inl ⟨path ++ [j], x, by rw [hfind, Nat.zero_add], ?_, hwf.isDeepestWhere_of_children hdeep⟩
      simp [Node.descend, hc, hx]
    -- `known_descendent_of || is_descendent_of(..)?` is whether this node is an ancestor
    have hasked : (if b then .ok true else ask (exactOracle (E := E) B h hash)) =
        (.ok (decide (B.anc h hash)) : Except (Error E) Bool) := by
      cases b with
      | true =>
        obtain ⟨c, hc, hanc'⟩ := hb.mp rfl
        simp [B.anc_trans (hanc c hc) hanc']
      | false => simp [exactOracle]
    rw [hfind]
    simp only [hasked]
    by_cases hself : B.anc h hash ∧ predicate d = true
    · -- the node itself, with nothing below it
      refine .inl ⟨[], ⟨h, n, d, children⟩, by simp [hself], rfl, ?_⟩
      rw [IsDeepestWhere, ancestorsWhere_preorder_mk, if_pos hself, hnone, List.append_nil]
      exact ⟨List.mem_singleton_self _, fun y hy => List.mem_singleton.mp hy ▸ .refl _⟩
    · refine .inr ⟨?_, by rw [ancestorsWhere_preorder_mk, if_neg hself, hnone, List.append_nil]⟩
      have hfalse : (decide (B.anc h hash) && predicate d) = false := by
        simpa [Bool.and_eq_true, decide_eq_true_eq] using hself
      rw [hfalse]
      rfl

/-- The loops of `find_node_index_where` and of `find_node_where` over the
roots of a well-formed forest: both stop at the root that holds the deepest
passing ancestor of the block, the only root that can hold any. -/
theorem findRoots_deepest (hnumber : number = B.num hash) :
    ∀ {roots : List (Node H N V)}, ForestWF B roots → ∀ k,
      (∃ j path r x, ForkTree.findRootIndexWhere hash number (exactOracle (E := E) B) predicate k roots =
            .ok (some (path ++ [k + j])) ∧ roots[j]? = some r ∧ r.descend path.reverse = some x ∧
          ForkTree.findRootWhere hash number (exactOracle (E := E) B) predicate roots = some (.ok (some x)) ∧
          IsDeepestWhere B hash predicate (Node.preorderOf roots) x) ∨
        (ForkTree.findRootIndexWhere hash number (exactOracle (E := E) B) predicate k roots = .ok none ∧
          ForkTree.findRootWhere hash number (exactOracle (E := E) B) predicate roots = some (.ok none) ∧
          ancestorsWhere B hash predicate (Node.preorderOf roots) = [])
  | [], _, k => .inr ⟨by simp [ForkTree.findRootIndexWhere], by simp [ForkTree.findRootWhere],
      by simp [ancestorsWhere]⟩
  | r :: roots, hwf, k => by
    have hpair := List.pairwise_cons.mp hwf.independent
    have hrest : ForestWF B roots := hwf.sublist (List.sublist_cons_self r roots)
    have hfinds : FindsDeepest B hash predicate r
        (r.findNodeIndexWhere hash number (exactOracle (E := E) B) predicate) :=
      (hwf.nodes_wf r List.mem_cons_self).findsDeepest hnumber
    rw [ForkTree.findRootIndexWhere, ForkTree.findRootWhere, Node.preorderOf_cons]
    rcases hfinds with ⟨path, x, hfind, hx, hdeep⟩ | ⟨hfind, hnone⟩
    · -- this root holds it: the others are on other forks
      have hrx : B.AncOrSelf r.hash hash :=
        ((hwf.nodes_wf r List.mem_cons_self).of_mem_preorder x (mem_ancestorsWhere.mp hdeep.1).1).2.trans
          (.inr (mem_ancestorsWhere.mp hdeep.1).2.1)
      refine .inl ⟨0, path, r, x, by rw [hfind]; rfl, rfl, hx, by simp [Node.findNodeWhere, hfind, hx],
        hdeep.of_ancestorsWhere_eq ?_⟩
      rw [ancestorsWhere_append, ancestorsWhere_eq_nil (not_anc_of_pairwise hpair.1 hrest.nodes_wf hrx),
        List.append_nil]
    · rcases findRoots_deepest hnumber hrest (k + 1) with
        ⟨j, path, r', x, hfind', hr', hx, hfindw, hdeep⟩ | ⟨hfind', hfindw, hnone'⟩
      · refine .inl ⟨j + 1, path, r', x, ?_, by simpa using hr', hx, by simp [Node.findNodeWhere, hfind, hfindw],
          hdeep.of_ancestorsWhere_eq (by rw [ancestorsWhere_append, hnone, List.nil_append])⟩
        simp only [hfind, hfind', Nat.add_assoc, Nat.add_comm 1 j]
      · exact .inr ⟨by simp only [hfind, hfind'], by simp [Node.findNodeWhere, hfind, hfindw],
          by rw [ancestorsWhere_append, hnone, hnone', List.append_nil]⟩

/-- **`find_node_where` finds the deepest ancestor that passes**, and
`find_node_index_where` a path to that same node, innermost index first. -/
theorem findNodeWhere_deepest (tree : ForkTree H N V) (hwf : ForestWF B tree.roots)
    (hnumber : number = B.num hash) :
    tree.findNodeWhere hash number (exactOracle (E := E) B) predicate =
        some (.ok (deepestWhere B hash predicate tree.nodeIter)) ∧
      ∃ path?, tree.findNodeIndexWhere hash number (exactOracle (E := E) B) predicate = .ok path? ∧
        path?.bind tree.nodeAt = deepestWhere B hash predicate tree.nodeIter ∧
        path?.isSome = (deepestWhere B hash predicate tree.nodeIter).isSome := by
  rcases findRoots_deepest hnumber hwf 0 with ⟨j, path, r, x, hfind, hr, hx, hfindw, hdeep⟩ | ⟨hfind, hfindw, hnone⟩
  · have hx' : deepestWhere B hash predicate tree.nodeIter = some x := hdeep.deepestWhere_eq hwf
    refine ⟨by rw [ForkTree.findNodeWhere, hfindw, hx'], some (path ++ [j]),
      by rw [ForkTree.findNodeIndexWhere, hfind, Nat.zero_add], ?_, by rw [hx']; rfl⟩
    rw [hx']
    simp [ForkTree.nodeAt, hr, hx]
  · have hx' : deepestWhere B hash predicate tree.nodeIter = none := deepestWhere_eq_none hnone
    exact ⟨by rw [ForkTree.findNodeWhere, hfindw, hx'], none, hfind, by rw [hx']; rfl, by rw [hx']; rfl⟩

end Search

/-! ## `prune` -/

omit [LinearOrder N] in
/-- The walk of `prune` down a path reaches the node the walk of
`find_node_where` reaches. -/
theorem detach_map_fst : ∀ (i : Nat) (indexes : List Nat) (nodes : List (Node H N V)),
    (ForkTree.detach (i :: indexes) nodes).map Prod.fst = nodes[i]?.bind (·.descend indexes)
  | i, [], nodes => by
    by_cases hi : i < nodes.length
    · simp [ForkTree.detach, hi, Node.descend]
    · simp [ForkTree.detach, hi]
  | i, j :: indexes, nodes => by
    by_cases hi : i < nodes.length
    · have hbelow := detach_map_fst j indexes nodes[i].children
      simp only [ForkTree.detach, dif_pos hi, Option.map_map]
      simp [Function.comp_def, hi, Node.descend, ← hbelow]
    · simp [ForkTree.detach, hi]

section Prune

variable [DecidableEq H] {number : N} {isDescendentOf : H → H → Except E Bool}

/-- The siblings of a child that is the block or its ancestor are on other
forks: at most one child is. -/
theorem length_filter_ancOrSelf_le_one
    (hpair : children.Pairwise fun a b => B.Independent a.hash b.hash) :
    (children.filter fun c => decide (B.AncOrSelf c.hash hash)).length ≤ 1 := by
  have hnone : (children.filter fun c => decide (B.AncOrSelf c.hash hash)).Pairwise fun _ _ => False := by
    refine (hpair.filter _).imp_of_mem fun ha hb hind => ?_
    exact BlockTree.not_independent_of_ancOrSelf (of_decide_eq_true (List.mem_filter.mp ha).2)
      (of_decide_eq_true (List.mem_filter.mp hb).2) hind
  generalize children.filter (fun c => decide (B.AncOrSelf c.hash hash)) = kept at hnone ⊢
  match kept, hnone with
  | [], _ => simp
  | [_], _ => simp
  | _ :: _ :: _, hnone => exact (List.rel_of_pairwise_cons hnone List.mem_cons_self).elim

theorem pruneChildren_false (hash : H) (number : N) (isDescendentOf : H → H → Except E Bool) :
    ∀ (children kept removed : List (Node H N V)),
      ForkTree.pruneChildren hash number isDescendentOf children false kept removed = .ok (kept, removed ++ children)
  | [], kept, removed => by simp [ForkTree.pruneChildren]
  | child :: children, kept, removed => by
    rw [ForkTree.pruneChildren]
    have hstays : ForkTree.childStays hash number isDescendentOf false child = .ok false := rfl
    simp only [hstays, bind, Except.bind, Bool.false_eq_true, if_false]
    rw [pruneChildren_false hash number isDescendentOf children kept (removed ++ [child]), List.append_assoc,
      List.singleton_append]

/-- `prune`'s test for the first child to stay: whether the child is the block
or its ancestor. -/
theorem childStays_first (hnumber : number = B.num hash) {child : Node H N V} (h : NodeWF B child) :
    ForkTree.childStays hash number (exactOracle (E := E) B) true child =
      .ok (decide (B.AncOrSelf child.hash hash)) := by
  have hnum := h.number_eq
  unfold ForkTree.childStays
  rw [if_pos rfl]
  by_cases hself : child.hash = hash
  · -- the block itself, at its own number
    have hsame : child.number = number ∧ child.hash = hash := ⟨by rw [hnum, hself, hnumber], hself⟩
    rw [if_pos hsame, decide_eq_true (.inl hself)]
    rfl
  · rw [if_neg fun hsame => hself hsame.2]
    by_cases hanc : B.anc child.hash hash
    · have hlt : child.number < number := by
        rw [hnum, hnumber]
        exact B.num_lt hanc
      rw [if_pos hlt, decide_eq_true (.inr hanc)]
      simp [exactOracle, hanc]
    · have hnot : ¬ B.AncOrSelf child.hash hash := fun hrel => hrel.elim hself hanc
      rw [decide_eq_false hnot]
      split_ifs
      · simp [exactOracle, hanc]
      · rfl

/-- `prune`'s loop over the new root's children keeps the one that is the
block or its ancestor, and removes the others. -/
theorem pruneChildren_first (hnumber : number = B.num hash) :
    ∀ {children : List (Node H N V)}, children.Pairwise (fun a b => B.Independent a.hash b.hash) →
      (∀ c ∈ children, NodeWF B c) → ∀ kept removed,
        ForkTree.pruneChildren hash number (exactOracle (E := E) B) children true kept removed =
          .ok (kept ++ children.filter (fun c => decide (B.AncOrSelf c.hash hash)),
            removed ++ children.filter (fun c => !decide (B.AncOrSelf c.hash hash)))
  | [], _, _, kept, removed => by simp [ForkTree.pruneChildren]
  | c :: rest, hpair, hwf, kept, removed => by
    rw [List.pairwise_cons] at hpair
    rw [ForkTree.pruneChildren, childStays_first hnumber (hwf c List.mem_cons_self)]
    by_cases hc : B.AncOrSelf c.hash hash
    · -- it stays, and no sibling is on its branch
      have hrest : ∀ c' ∈ rest, ¬ B.AncOrSelf c'.hash hash := fun c' hc' hc'' =>
        BlockTree.not_independent_of_ancOrSelf hc hc'' (hpair.1 c' hc')
      simp only [decide_eq_true hc, bind, Except.bind, if_true]
      rw [pruneChildren_false, List.filter_cons_of_pos (by simpa using hc),
        List.filter_cons_of_neg (by simpa using hc), List.filter_eq_nil_iff.mpr (by simpa using hrest),
        List.filter_eq_self.mpr (by simpa using hrest)]
    · simp only [decide_eq_false hc, bind, Except.bind, Bool.false_eq_true, if_false]
      rw [pruneChildren_first hnumber hpair.2 (fun c' hc' => hwf c' (List.mem_cons_of_mem c hc')),
        List.filter_cons_of_neg (by simpa using hc), List.filter_cons_of_pos (by simpa using hc),
        List.append_assoc, List.singleton_append]

variable {tree : ForkTree H N V}

theorem prune_of_none {predicate : V → Bool}
    (hfind : tree.findNodeIndexWhere hash number isDescendentOf predicate = .ok none) :
    ForkTree.prune hash number isDescendentOf predicate tree = .ok [] tree.rebalance := by
  simp [ForkTree.prune, EStateRun.bind_apply, EStateRun.get_apply, hfind]

theorem prune_of_detach {predicate : V → Bool} {p : List Nat} {root : Node H N V}
    {rest kept removed : List (Node H N V)}
    (hfind : tree.findNodeIndexWhere hash number isDescendentOf predicate = .ok (some p))
    (hdetach : ForkTree.detach p.reverse tree.roots = some (root, rest))
    (hprune : ForkTree.pruneChildren hash number isDescendentOf root.children true [] rest = .ok (kept, removed)) :
    ForkTree.prune hash number isDescendentOf predicate tree =
      .ok removed (ForkTree.rebalance { tree with roots := [{ root with children := kept }] }) := by
  simp only [ForkTree.prune, EStateRun.bind_apply, EStateRun.get_apply, hfind, EStateRun.ofExcept_ok,
    EStateRun.set_apply, hdetach, hprune, EStateRun.pure_apply, EStateRun.modify_apply]

theorem prune_eq_deepest (tree : ForkTree H N V) (hwf : ForestWF B tree.roots) (hnumber : number = B.num hash)
    (predicate : V → Bool) :
    ∃ removed t', ForkTree.prune hash number (exactOracle (E := E) B) predicate tree = .ok removed t' ∧
      (∀ r, tree.findNodeWhere hash number (exactOracle (E := E) B) predicate = some (.ok (some r)) →
        ∃ kept, t' = ForkTree.rebalance { tree with roots := [{ r with children := kept }] } ∧
          kept.Sublist r.children ∧ kept.length ≤ 1 ∧ ∀ c ∈ r.children, c ∈ kept ↔ B.AncOrSelf c.hash hash) ∧
      (tree.findNodeWhere hash number (exactOracle (E := E) B) predicate = some (.ok none) →
        removed = [] ∧ t' = tree.rebalance) := by
  rcases findRoots_deepest (E := E) hnumber hwf 0 with
    ⟨j, path, r, x, hfind, hr, hx, hfindw, hdeep⟩ | ⟨hfind, hfindw, -⟩
  · have hxwf : NodeWF B x := hwf.of_mem_preorderOf (mem_ancestorsWhere.mp hdeep.1).1
    have hfind' : tree.findNodeIndexWhere hash number (exactOracle (E := E) B) predicate = .ok (some (path ++ [j])) := by
      rw [ForkTree.findNodeIndexWhere, hfind, Nat.zero_add]
    -- the walk of `prune` reaches the node the search found
    obtain ⟨rest, hdetach⟩ : ∃ rest, ForkTree.detach (path ++ [j]).reverse tree.roots = some (x, rest) := by
      have hwalk := detach_map_fst j path.reverse tree.roots
      rw [hr, Option.bind_some, hx, Option.map_eq_some_iff] at hwalk
      obtain ⟨⟨x', rest⟩, hdetach, hx'⟩ := hwalk
      cases hx'
      exact ⟨rest, by simpa using hdetach⟩
    have hkept := pruneChildren_first (E := E) hnumber hxwf.forest.independent hxwf.forest.nodes_wf [] rest
    refine ⟨_, _, prune_of_detach hfind' hdetach hkept, fun r hr' => ?_,
      fun hnone => by simp [ForkTree.findNodeWhere, hfindw] at hnone⟩
    simp only [ForkTree.findNodeWhere, hfindw, Option.some.injEq, Except.ok.injEq] at hr'
    subst hr'
    refine ⟨_, rfl, List.filter_sublist, length_filter_ancOrSelf_le_one hxwf.forest.independent, fun c hc => ?_⟩
    simp [List.nil_append, List.mem_filter, hc]
  · exact ⟨[], tree.rebalance, prune_of_none hfind,
      fun r hr' => by simp [ForkTree.findNodeWhere, hfindw] at hr', fun _ => ⟨rfl, rfl⟩⟩

end Prune

/-- **`prune` re-roots at the deepest ancestor and keeps every node once**:
what stays and what the `RemovedIterator` yields are the old items; the new
root, if any, is the deepest passing ancestor, with only its child toward the
block. -/
theorem prune_reroots_at_deepest [DecidableEq H] {number : N} (tree : ForkTree H N V)
    (hwf : ForestWF B tree.roots) (hnumber : number = B.num hash) :
    ∃ removed t', ForkTree.prune hash number (exactOracle (E := E) B) predicate tree = .ok removed t' ∧
      t'.items + ForkTree.removedItems removed = tree.items ∧
      (∀ r, tree.findNodeWhere hash number (exactOracle (E := E) B) predicate = some (.ok (some r)) →
        ∃ kept, t' = ForkTree.rebalance { tree with roots := [{ r with children := kept }] } ∧
          kept.Sublist r.children ∧ kept.length ≤ 1 ∧ ∀ c ∈ r.children, c ∈ kept ↔ B.AncOrSelf c.hash hash) ∧
      (tree.findNodeWhere hash number (exactOracle (E := E) B) predicate = some (.ok none) →
        removed = [] ∧ t' = tree.rebalance) := by
  obtain ⟨removed, t', hok, hsome, hnone⟩ := prune_eq_deepest tree hwf hnumber predicate
  exact ⟨removed, t', hok, ForkTree.items_prune hok, hsome, hnone⟩

/-- Block `1` with its child `2` below it, on the one branch `natBranch`. -/
def chainTree : ForkTree Nat Nat Nat := ⟨[⟨1, 1, 10, [⟨2, 2, 20, []⟩]⟩], none⟩

theorem chainTree_wf : ForestWF natBranch chainTree.roots := by
  refine ⟨?_, List.pairwise_singleton _ _⟩
  intro node hnode
  rw [chainTree, List.mem_singleton] at hnode
  subst hnode
  refine .mk rfl (by simp [natBranch]) (List.pairwise_singleton _ _) ?_
  intro c hc
  rw [List.mem_singleton] at hc
  subst hc
  exact .mk rfl (by simp) List.Pairwise.nil (by simp)

theorem prune_reroots_at_deepest_chain :
    ForestWF natBranch chainTree.roots ∧ (3 : Nat) = natBranch.num 3 ∧
      ∃ removed t', ForkTree.prune 3 3 (exactOracle (E := Unit) natBranch) (fun data => decide (data = 10))
          chainTree = .ok removed t' ∧
        t'.items + ForkTree.removedItems removed = chainTree.items ∧
        (∀ r, chainTree.findNodeWhere 3 3 (exactOracle (E := Unit) natBranch) (fun data => decide (data = 10)) =
            some (.ok (some r)) →
          ∃ kept, t' = ForkTree.rebalance { chainTree with roots := [{ r with children := kept }] } ∧
            kept.Sublist r.children ∧ kept.length ≤ 1 ∧
            ∀ c ∈ r.children, c ∈ kept ↔ natBranch.AncOrSelf c.hash 3) ∧
        (chainTree.findNodeWhere 3 3 (exactOracle (E := Unit) natBranch) (fun data => decide (data = 10)) =
            some (.ok none) →
          removed = [] ∧ t' = chainTree.rebalance) :=
  ⟨chainTree_wf, rfl, prune_reroots_at_deepest chainTree chainTree_wf rfl⟩

/-- Blocks `1` and `2` on two forks off the genesis block `0`, and block `3`
on the fork of `2`. -/
def forkBlocks : BlockTree Nat Nat where
  anc a b := (a = 0 ∧ b ≠ 0) ∨ (a = 2 ∧ b = 3)
  num b := if b = 0 then 0 else if b = 3 then 2 else 1
  anc_trans := by
    intro a b c hab hbc
    omega
  num_lt := by
    intro a b hab
    split_ifs <;> omega
  chain := by
    intro a b c hac hbc
    omega

/-- Roots `1` and `2 → 3`, the shallower first. -/
def forkTree : ForkTree Nat Nat Nat := ⟨[⟨1, 1, 10, []⟩, ⟨2, 1, 20, [⟨3, 2, 30, []⟩]⟩], none⟩

theorem forkTree_wf : ForestWF forkBlocks forkTree.roots := by
  have hleaf : ∀ (h : Nat) (d : Nat), forkBlocks.num h = (if h = 0 then 0 else if h = 3 then 2 else 1) →
      NodeWF forkBlocks (⟨h, forkBlocks.num h, d, []⟩ : Node Nat Nat Nat) :=
    fun h d _ => .mk rfl (by simp) List.Pairwise.nil (by simp)
  refine ⟨?_, by simp [forkTree, BlockTree.Independent, forkBlocks]⟩
  intro node hnode
  simp only [forkTree, List.mem_cons, List.not_mem_nil, or_false] at hnode
  rcases hnode with rfl | rfl
  · exact hleaf 1 10 rfl
  · refine .mk rfl (by simp [forkBlocks]) (List.pairwise_singleton _ _) ?_
    intro c hc
    rw [List.mem_singleton] at hc
    subst hc
    exact hleaf 3 30 rfl

/-- Block `4`, on the fork of `1` and `2`'s siblings, has no ancestor in
`forkTree`: `prune` removes nothing, and yet leaves another tree, its roots
sorted deepest first. -/
theorem prune_reorders_roots :
    ForestWF forkBlocks forkTree.roots ∧
      forkTree.findNodeWhere 4 1 (exactOracle (E := Unit) forkBlocks) (fun _ => true) = some (.ok none) ∧
      ForkTree.prune 4 1 (exactOracle (E := Unit) forkBlocks) (fun _ => true) forkTree = .ok [] forkTree.rebalance ∧
      forkTree.rebalance ≠ forkTree := by
  refine ⟨forkTree_wf, rfl, prune_of_none rfl, fun h => ?_⟩
  have hroots := congrArg (fun t : ForkTree Nat Nat Nat => t.roots.map Node.hash) h
  simp [forkTree, ForkTree.rebalance, Node.sortByDepth, List.mergeSort, Node.maxDepth, Node.maxDepthOf,
    Node.rebalance_mk] at hroots

theorem findNodeWhere_deepest_chain :
    ForestWF natBranch chainTree.roots ∧ (3 : Nat) = natBranch.num 3 ∧
      chainTree.findNodeWhere 3 3 (exactOracle (E := Unit) natBranch) (fun data => decide (data = 10)) =
          some (.ok (deepestWhere natBranch 3 (fun data => decide (data = 10)) chainTree.nodeIter)) ∧
        ∃ path?, chainTree.findNodeIndexWhere 3 3 (exactOracle (E := Unit) natBranch)
              (fun data => decide (data = 10)) = .ok path? ∧
          path?.bind chainTree.nodeAt = deepestWhere natBranch 3 (fun data => decide (data = 10)) chainTree.nodeIter ∧
          path?.isSome = (deepestWhere natBranch 3 (fun data => decide (data = 10)) chainTree.nodeIter).isSome :=
  ⟨chainTree_wf, rfl, findNodeWhere_deepest chainTree chainTree_wf rfl⟩

end ForkTree
