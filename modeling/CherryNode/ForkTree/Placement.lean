import CherryNode.ForkTree.Search

/-!
# Where `import` puts a block

`Node::import` hands the block back (`Ok(Some(..))`) from a node that is not
its ancestor, refuses it as `Duplicate` on its hash, and otherwise passes it to
the first child that takes it, or keeps it as a new leaf.  In a well-formed
tree with an exact `is_descendent_of` and the block's own number, this places
the block once, under its deepest strict ancestor or as a new root, changing no
other node or link (`import_places_under_deepest`).  Links are by hash
(`Node.edges`), so `rebalance`, which reorders siblings, keeps them.  The proof
is the search's argument: only the child that is an ancestor of the block can
hold the block or its ancestors.
-/

set_option linter.dupNamespace false

namespace ForkTree

variable {H N V E : Type}

namespace Node

/-- The links from a node to its children, by hash. -/
def links (node : Node H N V) : List (H × H) := node.children.map fun c => (node.hash, c.hash)

/-- The parent–child links of a subtree. -/
def edges (node : Node H N V) : List (H × H) := (preorder node).flatMap links

/-- The parent–child links of a forest. -/
def edgesOf (nodes : List (Node H N V)) : List (H × H) := (preorderOf nodes).flatMap links

@[simp] theorem edgesOf_nil : edgesOf ([] : List (Node H N V)) = [] := by
  simp [edgesOf]

@[simp] theorem edgesOf_cons (node : Node H N V) (nodes : List (Node H N V)) :
    edgesOf (node :: nodes) = node.edges ++ edgesOf nodes := by
  simp [edgesOf, edges]

@[simp] theorem edgesOf_append (nodes nodes' : List (Node H N V)) :
    edgesOf (nodes ++ nodes') = edgesOf nodes ++ edgesOf nodes' := by
  simp [edgesOf, preorderOf_append]

theorem edges_mk (hash : H) (number : N) (data : V) (children : List (Node H N V)) :
    edges ⟨hash, number, data, children⟩ = children.map (fun c => (hash, c.hash)) ++ edgesOf children := by
  simp [edges, edgesOf, links]

theorem edgesOf_perm {nodes nodes' : List (Node H N V)} (h : nodes.Perm nodes') :
    (edgesOf nodes).Perm (edgesOf nodes') :=
  (Perm.preorderOf h).flatMap_right links

theorem edgesOf_map_perm {f : Node H N V → Node H N V} :
    ∀ {nodes : List (Node H N V)}, (∀ x ∈ nodes, (f x).edges.Perm x.edges) →
      (edgesOf (nodes.map f)).Perm (edgesOf nodes)
  | [], _ => by simp
  | x :: nodes, h => by
    rw [List.map_cons, edgesOf_cons, edgesOf_cons]
    exact (h x List.mem_cons_self).append (edgesOf_map_perm fun y hy => h y (List.mem_cons_of_mem x hy))

@[simp] theorem hash_rebalance (node : Node H N V) : node.rebalance.hash = node.hash := by
  cases node
  rw [rebalance_mk]

/-- Rebalancing reorders siblings, and keeps every link. -/
theorem edges_rebalance (node : Node H N V) : node.rebalance.edges.Perm node.edges := by
  induction node using Node.induction with
  | mk hash number data children ih =>
    rw [rebalance_mk, edges_mk, edges_mk]
    have hsort := sortByDepth_perm children
    refine List.Perm.append ?_ ?_
    · -- the children's hashes, reordered
      rw [List.map_map]
      have hlink : ((fun c : Node H N V => (hash, c.hash)) ∘ rebalance) = fun c => (hash, c.hash) := by
        funext c
        simp
      rw [hlink]
      exact hsort.map _
    · exact (edgesOf_map_perm fun x hx => ih x (hsort.subset hx)).trans (edgesOf_perm hsort)

end Node

namespace ForkTree

/-- The parent–child links of the tree, by hash. -/
def edges (tree : ForkTree H N V) : List (H × H) := Node.edgesOf tree.roots

theorem edges_rebalance (tree : ForkTree H N V) : tree.rebalance.edges.Perm tree.edges := by
  simp only [edges, rebalance]
  exact (Node.edgesOf_map_perm fun x _ => Node.edges_rebalance x).trans
    (Node.edgesOf_perm (Node.sortByDepth_perm tree.roots))

theorem rootHashes_rebalance (tree : ForkTree H N V) :
    (tree.rebalance.roots.map Node.hash).Perm (tree.roots.map Node.hash) := by
  simp only [rebalance, List.map_map]
  have hhash : (Node.hash ∘ Node.rebalance : Node H N V → H) = Node.hash := by
    funext c
    simp
  rw [hhash]
  exact (Node.sortByDepth_perm tree.roots).map _

end ForkTree

/-! ## `Node::import` -/

section Import

variable [DecidableEq H] [LinearOrder N] {B : BlockTree H N} {hash : H} {number : N} {data : V}

/-- What `Node::import` of the block should return from `node`: the block is
handed back off its branch, refused as `Duplicate` when it is in the subtree,
and otherwise added as a leaf under its deepest ancestor there. -/
def PlacesBlock (B : BlockTree H N) (hash : H) (node : Node H N V)
    (r : Except (Error E) (Imported (Node H N V))) : Prop :=
  (¬ B.AncOrSelf node.hash hash → r = .ok .declined) ∧
    (hash ∈ (Node.preorder node).map Node.hash → r = .error .duplicate) ∧
    (B.anc node.hash hash → hash ∉ (Node.preorder node).map Node.hash →
      ∃ node' p, r = .ok (.inserted node') ∧ node'.hash = node.hash ∧
        IsDeepestWhere B hash (fun _ => true) (Node.preorder node) p ∧
        node'.edges.Perm (node.edges ++ [(p.hash, hash)]))

/-- The same for the loop over the children (or the roots). -/
def PlacesBlockIn (B : BlockTree H N) (hash : H) (nodes : List (Node H N V))
    (r : Except (Error E) (Imported (List (Node H N V)))) : Prop :=
  ((∀ c ∈ nodes, ¬ B.AncOrSelf c.hash hash) → r = .ok .declined) ∧
    (hash ∈ (Node.preorderOf nodes).map Node.hash → r = .error .duplicate) ∧
    ((∃ c ∈ nodes, B.anc c.hash hash) → hash ∉ (Node.preorderOf nodes).map Node.hash →
      ∃ nodes' p, r = .ok (.inserted nodes') ∧ nodes'.map Node.hash = nodes.map Node.hash ∧
        IsDeepestWhere B hash (fun _ => true) (Node.preorderOf nodes) p ∧
        (Node.edgesOf nodes').Perm (Node.edgesOf nodes ++ [(p.hash, hash)]))

variable {node : Node H N V} {tree : ForkTree H N V}

omit [DecidableEq H] in
theorem NodeWF.ancOrSelf_of_mem (h : NodeWF B node)
    (hmem : hash ∈ (Node.preorder node).map Node.hash) : B.AncOrSelf node.hash hash := by
  obtain ⟨y, hy, rfl⟩ := List.mem_map.mp hmem
  exact (h.of_mem_preorder y hy).2

omit [DecidableEq H] in
theorem perm_append_link {edges edges' rest : List (H × H)} {link : H × H}
    (h : edges'.Perm (edges ++ [link])) : (edges' ++ rest).Perm ((edges ++ rest) ++ [link]) := by
  refine (h.append_right rest).trans ?_
  rw [List.append_assoc, List.append_assoc]
  exact List.perm_append_comm.append_left edges

/-- The loop over the children, when each child's `import` is right: the
child on the block's branch decides, and its siblings hold neither the block
nor an ancestor of it. -/
theorem importChildren_placesBlock :
    ∀ {nodes : List (Node H N V)}, nodes.Pairwise (fun a b => B.Independent a.hash b.hash) →
      (∀ c ∈ nodes, NodeWF B c) →
      (∀ c ∈ nodes, PlacesBlock B hash c (c.import hash number data (exactOracle (E := E) B))) →
      PlacesBlockIn B hash nodes (Node.importChildren hash number data (exactOracle (E := E) B) nodes)
  | [], _, _, _ => by
    rw [PlacesBlockIn]
    exact ⟨fun _ => by rw [Node.importChildren], fun h => by simp at h, fun h => by simp at h⟩
  | c :: rest, hpair, hwf, hspec => by
    rw [List.pairwise_cons] at hpair
    have hcwf := hwf c List.mem_cons_self
    have hrestwf : ∀ c' ∈ rest, NodeWF B c' := fun c' hc' => hwf c' (List.mem_cons_of_mem c hc')
    obtain ⟨hdecl, hdup, hins⟩ := hspec c List.mem_cons_self
    rw [Node.importChildren, PlacesBlockIn, Node.preorderOf_cons, List.map_append]
    by_cases hc : B.AncOrSelf c.hash hash
    · -- the siblings of a child on the block's branch are off it
      have hrest : ∀ y ∈ Node.preorderOf rest, y.hash ≠ hash ∧ ¬ B.anc y.hash hash := by
        intro y hy
        obtain ⟨c', hc', hy'⟩ := Node.mem_preorderOf.mp hy
        have hrel := ((hrestwf c' hc').of_mem_preorder y hy').2
        refine ⟨fun heq => ?_, fun hanc => ?_⟩
        · exact BlockTree.not_independent_of_ancOrSelf hc (heq ▸ hrel) (hpair.1 c' hc')
        · exact BlockTree.not_independent_of_ancOrSelf hc (hrel.trans (.inr hanc)) (hpair.1 c' hc')
      have hnotin : hash ∉ (Node.preorderOf rest).map Node.hash := fun hmem => by
        obtain ⟨y, hy, hyh⟩ := List.mem_map.mp hmem
        exact (hrest y hy).1 hyh
      refine ⟨fun hall => absurd hc (hall c List.mem_cons_self), fun hmem => ?_, fun _ hnot => ?_⟩
      · -- the block is below this child
        rw [hdup ((List.mem_append.mp hmem).resolve_right hnotin)]
      · have hnot' : hash ∉ (Node.preorder c).map Node.hash := fun h' => hnot (List.mem_append_left _ h')
        have hanc : B.anc c.hash hash :=
          hc.resolve_left fun heq => hnot' (heq ▸ List.mem_map_of_mem (Node.self_mem_preorder c))
        obtain ⟨c', p, himp, hhash, hdeep, hedges⟩ := hins hanc hnot'
        refine ⟨c' :: rest, p, by rw [himp], by simp [hhash], hdeep.of_ancestorsWhere_eq ?_, ?_⟩
        · rw [ancestorsWhere_append, ancestorsWhere_eq_nil (fun y hy => (hrest y hy).2), List.append_nil]
        · rw [Node.edgesOf_cons, Node.edgesOf_cons]
          exact perm_append_link hedges
    · -- off the block's branch: this child hands it back and the loop goes on
      have hnone : ∀ y ∈ Node.preorder c, y.hash ≠ hash ∧ ¬ B.anc y.hash hash := fun y hy =>
        ⟨fun heq => hc (heq ▸ (hcwf.of_mem_preorder y hy).2),
          fun hanc => hc ((hcwf.of_mem_preorder y hy).2.trans (.inr hanc))⟩
      have hnotin : hash ∉ (Node.preorder c).map Node.hash := fun hmem => by
        obtain ⟨y, hy, hyh⟩ := List.mem_map.mp hmem
        exact (hnone y hy).1 hyh
      obtain ⟨hdecl', hdup', hins'⟩ :=
        importChildren_placesBlock hpair.2 hrestwf fun c' hc' => hspec c' (List.mem_cons_of_mem c hc')
      simp only [hdecl hc]
      refine ⟨fun hall => ?_, fun hmem => ?_, fun hex hnot => ?_⟩
      · simp only [hdecl' fun c' hc' => hall c' (List.mem_cons_of_mem c hc')]
      · simp only [hdup' ((List.mem_append.mp hmem).resolve_left hnotin)]
      · obtain ⟨c', hc', hanc'⟩ := hex
        have hc'' : c' ∈ rest := (List.mem_cons.mp hc').resolve_left fun heq => hc (heq ▸ .inr hanc')
        obtain ⟨rest', p, himp, hhash, hdeep, hedges⟩ :=
          hins' ⟨c', hc'', hanc'⟩ fun h' => hnot (List.mem_append_right _ h')
        refine ⟨c :: rest', p, by simp only [himp], by simp [hhash], hdeep.of_ancestorsWhere_eq ?_, ?_⟩
        · rw [ancestorsWhere_append, ancestorsWhere_eq_nil (fun y hy => (hnone y hy).2), List.nil_append]
        · rw [Node.edgesOf_cons, Node.edgesOf_cons, List.append_assoc]
          exact hedges.append_left c.edges

/-- **Step of `import`**, by induction over the subtree: `Node::import` of a
well-formed subtree places the block as `PlacesBlock` says. -/
theorem NodeWF.placesBlock (hnumber : number = B.num hash) (h : NodeWF B node) :
    PlacesBlock B hash node (node.import hash number data (exactOracle (E := E) B)) := by
  induction h with
  | @mk h n d children hnum hanc hpair hchildren ih =>
    have hwf : NodeWF B ⟨h, n, d, children⟩ := .mk hnum hanc hpair hchildren
    have hloop : PlacesBlockIn B hash children
        (Node.importChildren hash number data (exactOracle (E := E) B) children) :=
      importChildren_placesBlock hpair hchildren ih
    rw [Node.«import», PlacesBlock]
    by_cases hself : h = hash
    · -- the block itself
      subst hself
      exact ⟨fun hnot => absurd (.inl rfl) hnot, fun _ => by rw [if_pos rfl],
        fun hanc' _ => absurd hanc' (B.anc_irrefl _)⟩
    rw [if_neg hself]
    by_cases hle : number ≤ n
    · -- numbered at or above the block: not on its branch
      have hnot : ¬ B.AncOrSelf h hash := by
        rintro (heq | hanc')
        · exact hself heq
        · rw [hnum, hnumber] at hle
          exact absurd (B.num_lt hanc') (not_lt.mpr hle)
      exact ⟨fun _ => by rw [if_pos hle], fun hmem => absurd (hwf.ancOrSelf_of_mem hmem) hnot,
        fun hanc' _ => absurd (.inr hanc') hnot⟩
    rw [if_neg hle]
    obtain ⟨hdecl, hdup, hins⟩ := hloop
    have hbelow : ∀ c ∈ children, B.AncOrSelf c.hash hash → B.anc h hash := fun c hc hrel =>
      BlockTree.AncOrSelf.anc_trans (hanc c hc) hrel
    refine ⟨fun hnot => ?_, fun hmem => ?_, fun hanc' hnotin => ?_⟩
    · -- off the branch: no child takes the block, nor does this node
      have hnanc : ¬ B.anc h hash := fun ha => hnot (.inr ha)
      simp only [hdecl fun c hc hrel => hnanc (hbelow c hc hrel), exactOracle, ask_ok, decide_eq_false hnanc]
    · -- the block is below a child
      rw [Node.preorder_mk, List.map_cons] at hmem
      simp only [hdup ((List.mem_cons.mp hmem).resolve_left fun heq => hself heq.symm)]
    · have hnotin' : hash ∉ (Node.preorderOf children).map Node.hash := fun h' =>
        hnotin (by rw [Node.preorder_mk, List.map_cons]; exact List.mem_cons_of_mem _ h')
      by_cases hchild : ∃ c ∈ children, B.anc c.hash hash
      · -- a child on the branch takes it
        obtain ⟨children', p, himp, hhash, hdeep, hedges⟩ := hins hchild hnotin'
        refine ⟨⟨h, n, d, children'⟩, p, by simp only [himp], rfl, hwf.isDeepestWhere_of_children hdeep, ?_⟩
        have hlinks : children'.map (fun c => (h, c.hash)) = children.map (fun c => (h, c.hash)) := by
          have hmap := congrArg (List.map fun x => (h, x)) hhash
          simpa [List.map_map, Function.comp_def] using hmap
        rw [Node.edges_mk, Node.edges_mk, hlinks, List.append_assoc]
        exact hedges.append_left _
      · -- no child is on it: a new leaf under this node
        have hall : ∀ c ∈ children, ¬ B.AncOrSelf c.hash hash := by
          rintro c hc (heq | hanc'')
          · exact hnotin' (heq ▸ List.mem_map_of_mem (Node.mem_preorderOf.mpr ⟨c, hc, Node.self_mem_preorder c⟩))
          · exact hchild ⟨c, hc, hanc''⟩
        have hnone : ∀ y ∈ Node.preorderOf children, ¬ B.anc y.hash hash := by
          intro y hy hanc''
          obtain ⟨c, hc, hy'⟩ := Node.mem_preorderOf.mp hy
          exact hall c hc (((hchildren c hc).of_mem_preorder y hy').2.trans (.inr hanc''))
        refine ⟨⟨h, n, d, children ++ [⟨hash, number, data, []⟩]⟩, ⟨h, n, d, children⟩,
          by simp only [hdecl hall, exactOracle, ask_ok, decide_eq_true hanc'], rfl, ?_, ?_⟩
        · -- this node is the deepest ancestor: none is below it
          rw [IsDeepestWhere, ancestorsWhere_preorder_mk, if_pos ⟨hanc', rfl⟩, ancestorsWhere_eq_nil hnone,
            List.append_nil]
          exact ⟨List.mem_singleton_self _, fun y hy => List.mem_singleton.mp hy ▸ .refl _⟩
        · rw [Node.edges_mk, Node.edges_mk, List.map_append, Node.edgesOf_append, Node.edgesOf_cons,
            Node.edges_mk]
          simp only [List.map_cons, List.map_nil, Node.edgesOf_nil, List.append_nil]
          rw [List.append_assoc, List.append_assoc]
          exact List.perm_append_comm.append_left _

/-! ## `ForkTree::import` -/

theorem import_of_reverts (hash : H) (data : V) (isDescendentOf : H → H → Except E Bool)
    (h : tree.reverts number = true) :
    ForkTree.«import» hash number data isDescendentOf tree = .error .revert tree := by
  simp [ForkTree.«import», EStateRun.bind_apply, EStateRun.get_apply, h, EStateRun.throw_apply]

theorem import_of_not_reverts (hash : H) (data : V)
    (isDescendentOf : H → H → Except E Bool) (h : tree.reverts number = false) :
    ForkTree.«import» hash number data isDescendentOf tree =
      match Node.importChildren hash number data isDescendentOf tree.roots with
      | .error e => .error e tree
      | .ok (.inserted roots) => .ok false ({ tree with roots } : ForkTree H N V).rebalance
      | .ok .declined =>
        .ok true ({ tree with roots := tree.roots ++ [⟨hash, number, data, []⟩] } : ForkTree H N V).rebalance := by
  simp only [ForkTree.«import», EStateRun.bind_apply, EStateRun.get_apply, h, Bool.false_eq_true, if_false,
    ForkTree.importRoots_eq_importChildren]
  cases Node.importChildren hash number data isDescendentOf tree.roots with
  | error e => rfl
  | ok r =>
    cases r <;> simp [EStateRun.bind_apply, EStateRun.set_apply, EStateRun.modify_apply, EStateRun.map_apply]

end Import

/-- **`import` places a block under its deepest ancestor.**  With an exact
`is_descendent_of`, `import` refuses with `Revert` at or below the best
finalized number and with `Duplicate` for a hash in the tree, and otherwise
adds the one item `(h, n, v)`: under the deepest strict ancestor of `h`, or as
a new root when there is none. -/
theorem import_places_under_deepest [DecidableEq H] [LinearOrder N] {B : BlockTree H N} {hash : H} {number : N}
    (data : V) (tree : ForkTree H N V) (hwf : ForestWF B tree.roots) (hnumber : number = B.num hash) :
    ((∃ t', ForkTree.«import» hash number data (exactOracle (E := E) B) tree = .error .revert t') ↔
        tree.reverts number = true) ∧
      ((∃ t', ForkTree.«import» hash number data (exactOracle (E := E) B) tree = .error .duplicate t') ↔
        tree.reverts number = false ∧ hash ∈ tree.nodeIter.map Node.hash) ∧
      (tree.reverts number = false → hash ∉ tree.nodeIter.map Node.hash →
        ∃ isRoot t', ForkTree.«import» hash number data (exactOracle (E := E) B) tree = .ok isRoot t' ∧
          t'.items = tree.items + {(hash, number, data)} ∧ t'.bestFinalizedNumber = tree.bestFinalizedNumber ∧
          (isRoot = true ↔ deepestWhere B hash (fun _ => true) tree.nodeIter = none) ∧
          (∀ p, deepestWhere B hash (fun _ => true) tree.nodeIter = some p →
            (t'.roots.map Node.hash).Perm (tree.roots.map Node.hash) ∧
              t'.edges.Perm (tree.edges ++ [(p.hash, hash)])) ∧
          (deepestWhere B hash (fun _ => true) tree.nodeIter = none →
            (t'.roots.map Node.hash).Perm (tree.roots.map Node.hash ++ [hash]) ∧ t'.edges.Perm tree.edges)) := by
  obtain ⟨hdecl, hdup, hins⟩ : PlacesBlockIn B hash tree.roots
      (Node.importChildren hash number data (exactOracle (E := E) B) tree.roots) :=
    importChildren_placesBlock hwf.independent hwf.nodes_wf fun c hc => (hwf.nodes_wf c hc).placesBlock hnumber
  cases hrev : tree.reverts number with
  | true =>
    have himport : ForkTree.«import» hash number data (exactOracle (E := E) B) tree = .error .revert tree :=
      import_of_reverts hash data _ hrev
    simp [himport]
  | false =>
    have himport := import_of_not_reverts hash data (exactOracle (E := E) B) hrev
    by_cases hmem : hash ∈ tree.nodeIter.map Node.hash
    · -- met on the block's branch: `Duplicate`
      rw [hdup hmem] at himport
      simp [himport, hmem]
    have hmem' : hash ∉ (Node.preorderOf tree.roots).map Node.hash := hmem
    by_cases hroot : ∃ c ∈ tree.roots, B.anc c.hash hash
    · -- the root on the block's branch takes it
      obtain ⟨roots', p, hok, hhash, hdeep, hedges⟩ := hins hroot hmem'
      rw [hok] at himport
      have hp : deepestWhere B hash (fun _ => true) tree.nodeIter = some p := hdeep.deepestWhere_eq hwf
      refine ⟨by simp [himport], ⟨fun ⟨_, h'⟩ => by simp [himport] at h', fun h' => absurd h'.2 hmem⟩,
        fun _ _ => ⟨false, _, himport, ForkTree.items_import himport, rfl,
        by simp [hp], fun p' hp' => ?_, fun hnone => by simp [hp] at hnone⟩⟩
      rw [hp, Option.some.injEq] at hp'
      subst hp'
      exact ⟨(ForkTree.rootHashes_rebalance _).trans (by simp [hhash]), (ForkTree.edges_rebalance _).trans hedges⟩
    · -- no root is on it: the block is a new root
      have hall : ∀ c ∈ tree.roots, ¬ B.AncOrSelf c.hash hash := by
        rintro c hc (heq | hanc)
        · exact hmem' (heq ▸ List.mem_map_of_mem (Node.mem_preorderOf.mpr ⟨c, hc, Node.self_mem_preorder c⟩))
        · exact hroot ⟨c, hc, hanc⟩
      have hnone : deepestWhere B hash (fun _ => true) tree.nodeIter = none := by
        refine deepestWhere_eq_none (ancestorsWhere_eq_nil fun y hy hanc => ?_)
        obtain ⟨c, hc, hy'⟩ := Node.mem_preorderOf.mp hy
        exact hall c hc (((hwf.nodes_wf c hc).of_mem_preorder y hy').2.trans (.inr hanc))
      rw [hdecl hall] at himport
      refine ⟨by simp [himport], ⟨fun ⟨_, h'⟩ => by simp [himport] at h', fun h' => absurd h'.2 hmem⟩,
        fun _ _ => ⟨true, _, himport, ForkTree.items_import himport, rfl,
        by simp [hnone], fun p hp => by simp [hnone] at hp, fun _ => ⟨?_, ?_⟩⟩⟩
      · exact (ForkTree.rootHashes_rebalance _).trans (by simp)
      · refine (ForkTree.edges_rebalance _).trans ?_
        simp [ForkTree.edges, Node.edges_mk]

theorem import_places_under_deepest_chain :
    ForestWF natBranch chainTree.roots ∧ (3 : Nat) = natBranch.num 3 ∧
      (((∃ t', ForkTree.«import» 3 3 30 (exactOracle (E := Unit) natBranch) chainTree = .error .revert t') ↔
          chainTree.reverts 3 = true) ∧
        ((∃ t', ForkTree.«import» 3 3 30 (exactOracle (E := Unit) natBranch) chainTree = .error .duplicate t') ↔
          chainTree.reverts 3 = false ∧ 3 ∈ chainTree.nodeIter.map Node.hash) ∧
        (chainTree.reverts 3 = false → 3 ∉ chainTree.nodeIter.map Node.hash →
          ∃ isRoot t', ForkTree.«import» 3 3 30 (exactOracle (E := Unit) natBranch) chainTree = .ok isRoot t' ∧
            t'.items = chainTree.items + {(3, 3, 30)} ∧ t'.bestFinalizedNumber = chainTree.bestFinalizedNumber ∧
            (isRoot = true ↔ deepestWhere natBranch 3 (fun _ => true) chainTree.nodeIter = none) ∧
            (∀ p, deepestWhere natBranch 3 (fun _ => true) chainTree.nodeIter = some p →
              (t'.roots.map Node.hash).Perm (chainTree.roots.map Node.hash) ∧
                t'.edges.Perm (chainTree.edges ++ [(p.hash, 3)])) ∧
            (deepestWhere natBranch 3 (fun _ => true) chainTree.nodeIter = none →
              (t'.roots.map Node.hash).Perm (chainTree.roots.map Node.hash ++ [3]) ∧
                t'.edges.Perm chainTree.edges))) :=
  ⟨chainTree_wf, rfl, import_places_under_deepest 30 chainTree chainTree_wf rfl⟩

end ForkTree
