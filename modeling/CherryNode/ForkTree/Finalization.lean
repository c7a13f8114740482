import CherryNode.ForkTree.Placement

/-!
# What finalization keeps

Finalizing the block `hash` should leave exactly its strict descendants, each
with its subtree (`descendantsOf`).  In a well-formed tree, with an exact
`is_descendent_of` and the block's own number:

* `finalize` re-roots at the block when it is a root; otherwise it refuses
  (`UnfinalizedAncestor`) when a root is an ancestor of the block, and keeps
  the roots that are its descendants (`finalize_eq`);
* `finalize_with_ancestors` walks the roots, keeping descendants, opening
  ancestors into their children and dropping the rest, until it meets the
  block; its loop invariant (`AncestorsLoopInv`) fixes what it ends with;
* the dry run `finalizes_any_with_descendent_if` searches all nodes in
  pre-order where `finalize_with_descendent_if` searches the roots; they stop
  at the same node when it is a root, which in pre-order comes before
  everything below the other roots.

A subtree off the block's branch holds no strict descendant
(`NodeWF.descendantsOf_of_off`).
-/

set_option linter.dupNamespace false

namespace ForkTree

open EStateRun

variable {H N V E : Type} [LinearOrder N] {B : BlockTree H N}
variable {root node : Node H N V} {roots : List (Node H N V)} {tree : ForkTree H N V}

/-- The nodes among `nodes` that are strict block-descendants of `hash`. -/
def descendantsOf (B : BlockTree H N) (hash : H) (nodes : List (Node H N V)) : List (Node H N V) :=
  nodes.filter fun x => decide (B.anc hash x.hash)

/-! ## The rebuild loop -/

omit [LinearOrder N] in
theorem retainRoots_ok (retains : Node H N V → Except (Error E) Bool) (stays : Node H N V → Bool) :
    ∀ (roots : List (Node H N V)), (∀ r ∈ roots, retains r = .ok (stays r)) → ∀ (changed : Bool) tree,
      ForkTree.retainRoots retains roots changed tree =
        .ok (changed || roots.any fun r => !stays r) { tree with roots := tree.roots ++ roots.filter stays }
  | [], _, changed, tree => by
    cases tree
    simp [ForkTree.retainRoots]
  | root :: roots, hret, changed, tree => by
    have hrest := retainRoots_ok retains stays roots fun r hr => hret r (List.mem_cons_of_mem root hr)
    simp only [ForkTree.retainRoots, bind_apply, hret root List.mem_cons_self, ofExcept_ok]
    cases hs : stays root with
    | true =>
      simp only [if_true, bind_apply, modify_apply, hrest]
      simp [hs]
    | false =>
      simp only [Bool.false_eq_true, if_false, hrest]
      simp [hs]

/-! ## The tests, with an exact `is_descendent_of` -/

section Tests

variable {hash : H} {number : N}

/-- The check of `finalize` and of `finalize_with_descendent_if` refuses
exactly when one of the nodes numbered `below` is a strict ancestor of the
block. -/
theorem checkUnfinalized_exact (below : N → Bool) :
    ∀ nodes : List (Node H N V), ForkTree.checkUnfinalized below hash (exactOracle (E := E) B) nodes =
      if ∃ node ∈ nodes, below node.number = true ∧ B.anc node.hash hash then .error .unfinalizedAncestor
      else .ok ()
  | [] => by simp [ForkTree.checkUnfinalized]
  | node :: nodes => by
    rw [ForkTree.checkUnfinalized, checkUnfinalized_exact below nodes]
    by_cases hnode : below node.number = true ∧ B.anc node.hash hash
    · simp [hnode, exactOracle, bind, Except.bind, throw, throwThe, MonadExceptOf.throw]
    · -- the test is skipped, or asked and answered `false`
      cases hb : below node.number
      · simp [hnode, bind, Except.bind, pure, Except.pure]
      · have ha : ¬ B.anc node.hash hash := fun ha => hnode ⟨hb, ha⟩
        simp [exactOracle, ha, bind, Except.bind]

/-- `finalize`'s test for a root to stay: whether it is a strict descendant of
the block, the number test being implied by the tree's numbers. -/
theorem finalizeRetains_exact (hnumber : number = B.num hash)
    (hnum : root.number = B.num root.hash) :
    ForkTree.finalizeRetains hash number (exactOracle (E := E) B) root = .ok (decide (B.anc hash root.hash)) := by
  unfold ForkTree.finalizeRetains
  by_cases hlt : number < root.number
  · simp [hlt, exactOracle]
  · have hdesc : ¬ B.anc hash root.hash := fun ha => hlt (by rw [hnum, hnumber]; exact B.num_lt ha)
    simp [hlt, hdesc]

theorem rootAncestry_exact (hnumber : number = B.num hash)
    (hnum : root.number = B.num root.hash) :
    ForkTree.rootAncestry hash number (exactOracle (E := E) B) root =
      .ok (decide (B.anc hash root.hash), decide (B.anc root.hash hash)) := by
  unfold ForkTree.rootAncestry
  by_cases hdesc : B.anc hash root.hash
  · have hlt : number < root.number := by
      rw [hnum, hnumber]
      exact B.num_lt hdesc
    simp [hlt, hdesc, exactOracle, B.not_anc_of_anc hdesc, bind, Except.bind, pure, Except.pure]
  · by_cases hanc : B.anc root.hash hash
    · -- the second question is asked, the numbers allowing it
      have hlt : root.number < number := by
        rw [hnum, hnumber]
        exact B.num_lt hanc
      simp [hlt, hdesc, hanc, exactOracle, not_lt.mpr hlt.le, bind, Except.bind, pure, Except.pure]
    · simp [hdesc, hanc, exactOracle, bind, Except.bind, pure, Except.pure]

end Tests

/-! ## The strict descendants of the block -/

section Descendants

variable {hash : H}

theorem descendantsOf_append (nodes nodes' : List (Node H N V)) :
    descendantsOf B hash (nodes ++ nodes') = descendantsOf B hash nodes ++ descendantsOf B hash nodes' :=
  List.filter_append _ _

theorem descendantsOf_perm {nodes nodes' : List (Node H N V)} (h : nodes.Perm nodes') :
    (descendantsOf B hash nodes).Perm (descendantsOf B hash nodes') :=
  h.filter _

theorem NodeWF.descendantsOf_self (h : NodeWF B node) (hself : node.hash = hash) :
    descendantsOf B hash (Node.preorder node) = Node.preorderOf node.children := by
  obtain ⟨h0, n0, d0, children⟩ := node
  subst hself
  rw [Node.preorder_mk, descendantsOf, List.filter_cons_of_neg (by simpa using B.anc_irrefl h0),
    List.filter_eq_self]
  intro y hy
  obtain ⟨c, hc, hy'⟩ := Node.mem_preorderOf.mp hy
  have hcwf := h.forest.nodes_wf c hc
  simpa using BlockTree.AncOrSelf.anc_trans (h.anc_child hc) (hcwf.of_mem_preorder y hy').2

theorem NodeWF.descendantsOf_of_desc (h : NodeWF B node) (hdesc : B.anc hash node.hash) :
    descendantsOf B hash (Node.preorder node) = Node.preorder node := by
  rw [descendantsOf, List.filter_eq_self]
  intro y hy
  simpa using BlockTree.AncOrSelf.anc_trans hdesc (h.of_mem_preorder y hy).2

/-- Below a node off the block's branch, none is. -/
theorem NodeWF.descendantsOf_of_off (h : NodeWF B node) (hoff : ¬ B.AncOrSelf node.hash hash)
    (hdesc : ¬ B.anc hash node.hash) : descendantsOf B hash (Node.preorder node) = [] := by
  rw [descendantsOf, List.filter_eq_nil_iff]
  intro y hy hanc
  simp only [decide_eq_true_eq] at hanc
  rcases (h.of_mem_preorder y hy).2 with heq | hbelow
  · exact hdesc (heq ▸ hanc)
  · -- two ancestors of `y`: the node and the block are related
    rcases B.chain hbelow hanc with heq | hab | hba
    · exact hoff (.inl heq)
    · exact hoff (.inr hab)
    · exact hdesc hba

theorem NodeWF.descendantsOf_of_ancestor (hanc : B.anc node.hash hash) :
    descendantsOf B hash (Node.preorder node) = descendantsOf B hash (Node.preorderOf node.children) := by
  obtain ⟨h0, n0, d0, children⟩ := node
  rw [Node.preorder_mk, descendantsOf, List.filter_cons_of_neg (by simpa using B.not_anc_of_anc hanc)]
  rfl

theorem descendantsOf_preorderOf_of_forall :
    ∀ {roots : List (Node H N V)}, (∀ r ∈ roots, NodeWF B r) →
      (∀ r ∈ roots, B.anc hash r.hash ∨ (¬ B.AncOrSelf r.hash hash ∧ ¬ B.anc hash r.hash)) →
      descendantsOf B hash (Node.preorderOf roots) =
        Node.preorderOf (roots.filter fun r => decide (B.anc hash r.hash))
  | [], _, _ => by simp [descendantsOf]
  | r :: roots, hwf, hroots => by
    have hrest := descendantsOf_preorderOf_of_forall (fun r' hr' => hwf r' (List.mem_cons_of_mem r hr'))
      fun r' hr' => hroots r' (List.mem_cons_of_mem r hr')
    rw [Node.preorderOf_cons, descendantsOf_append, hrest]
    rcases hroots r List.mem_cons_self with hdesc | ⟨hoff, hdesc⟩
    · rw [(hwf r List.mem_cons_self).descendantsOf_of_desc hdesc, List.filter_cons_of_pos (by simpa using hdesc),
        Node.preorderOf_cons]
    · rw [(hwf r List.mem_cons_self).descendantsOf_of_off hoff hdesc, List.filter_cons_of_neg (by simpa using hdesc),
        List.nil_append]

theorem ForestWF.descendantsOf_of_mem (hwf : ForestWF B roots)
    (hroot : root ∈ roots) (hrel : B.AncOrSelf root.hash hash) :
    descendantsOf B hash (Node.preorderOf roots) = descendantsOf B hash (Node.preorder root) := by
  induction roots with
  | nil => cases hroot
  | cons r rs ih =>
    have hrs : ForestWF B rs := hwf.sublist (List.sublist_cons_self r rs)
    rw [Node.preorderOf_cons, descendantsOf_append]
    rcases List.mem_cons.mp hroot with rfl | hroot
    · -- the other roots are on forks other than the root's
      have hoff : ∀ r' ∈ rs, B.anc hash r'.hash ∨ (¬ B.AncOrSelf r'.hash hash ∧ ¬ B.anc hash r'.hash) :=
        fun r' hr' => .inr ((List.rel_of_pairwise_cons hwf.independent hr').off_branch hrel)
      have hnone : rs.filter (fun r' => decide (B.anc hash r'.hash)) = [] :=
        List.filter_eq_nil_iff.mpr fun r' hr' => by simpa using ((hoff r' hr').resolve_left
          fun hd => (((List.rel_of_pairwise_cons hwf.independent hr').off_branch hrel).2 hd)).2
      rw [descendantsOf_preorderOf_of_forall hrs.nodes_wf hoff, hnone, Node.preorderOf_nil, List.append_nil]
    · -- `r` is on another fork than the root
      have hind : B.Independent root.hash r.hash := (List.rel_of_pairwise_cons hwf.independent hroot).symm
      obtain ⟨hoff, hdesc⟩ := hind.off_branch hrel
      rw [(hwf.nodes_wf r List.mem_cons_self).descendantsOf_of_off hoff hdesc, List.nil_append, ih hrs hroot]

theorem descendantsOf_preorderOf_of_desc (hwf : ∀ r ∈ roots, NodeWF B r)
    (hdesc : ∀ r ∈ roots, B.anc hash r.hash) :
    descendantsOf B hash (Node.preorderOf roots) = Node.preorderOf roots := by
  rw [descendantsOf_preorderOf_of_forall hwf fun r hr => .inl (hdesc r hr),
    List.filter_eq_self.mpr fun r hr => decide_eq_true (hdesc r hr)]

end Descendants

/-! ## Removing a root -/

variable {idx : Nat}

omit [LinearOrder N] in
theorem preorderOf_perm_swapRemove (hidx : idx < roots.length) :
    (Node.preorderOf roots).Perm (Node.preorder roots[idx] ++ Node.preorderOf (roots.swapRemove idx)) :=
  -- through the root put first before the others, in their order
  (Node.Perm.preorderOf (List.getElem_cons_eraseIdx_perm hidx).symm).trans <| by
    rw [Node.preorderOf_cons]
    exact (Node.Perm.preorderOf (List.swapRemove_perm_eraseIdx roots hidx).symm).append_left _

omit [LinearOrder N] in
theorem mem_preorderOf_iff_swapRemove (hidx : idx < roots.length)
    {x : Node H N V} :
    x ∈ Node.preorderOf roots ↔ x ∈ Node.preorder roots[idx] ∨ x ∈ Node.preorderOf (roots.swapRemove idx) := by
  rw [(preorderOf_perm_swapRemove hidx).mem_iff, List.mem_append]

/-! ## What a finalization should leave -/

/-- What finalizing the block `hash` at `number` should leave of the nodes
`nodes`: their strict descendants of the block, each with its subtree, in some
order; `number` as the best finalized number; and the block's data reported
exactly when the block is among `among`. -/
structure FinalizesTo (B : BlockTree H N) (hash : H) (number : N) (nodes among : List (Node H N V))
    (r : FinalizationResult V) (tree : ForkTree H N V) : Prop where
  nodes_perm : tree.nodeIter.Perm (descendantsOf B hash nodes)
  best : tree.bestFinalizedNumber = some number
  changed_some : ∀ v, r = .changed (some v) ↔ ∃ x ∈ among, x.hash = hash ∧ x.data = v

section Reroot

variable {hash : H} {number : N}

theorem finalizesTo_reroot (hnumber : number = B.num hash) {roots nodes among : List (Node H N V)}
    (hwf : ForestWF B roots) (hroot : root ∈ roots) (hhash : root.hash = hash)
    (hdesc : (descendantsOf B hash (Node.preorderOf roots)).Perm (descendantsOf B hash nodes))
    (hmem : root ∈ among) (huniq : ∀ x ∈ among, x.hash = hash → x = root) :
    FinalizesTo B hash number nodes among (.changed (some root.data)) ⟨root.children, some root.number⟩ where
  nodes_perm := by
    have hroot_wf := hwf.nodes_wf root hroot
    show (Node.preorderOf root.children).Perm (descendantsOf B hash nodes)
    rw [← hroot_wf.descendantsOf_self hhash, ← hwf.descendantsOf_of_mem hroot (.inl hhash)]
    exact hdesc
  best := by
    show some root.number = some number
    rw [(hwf.nodes_wf root hroot).number_eq, hhash, hnumber]
  changed_some v := by
    constructor
    · intro h
      exact ⟨root, hmem, hhash, Option.some.inj (FinalizationResult.changed.inj h)⟩
    · rintro ⟨x, hx, hxhash, rfl⟩
      rw [huniq x hx hxhash]

end Reroot

/-! ## `finalize` -/

section Finalize

variable [DecidableEq H] {hash : H} {number : N}

/-- `finalize` in a well-formed tree, with an exact `is_descendent_of` and the
block's number: the block re-rooted if it is a root; otherwise a refusal if a
root is its ancestor; otherwise the roots that descend from it. -/
theorem finalize_eq (hnumber : number = B.num hash) (hwf : ForestWF B tree.roots) :
    ForkTree.finalize hash number (exactOracle (E := E) B) tree =
      if tree.reverts number then .error .revert tree
      else match tree.roots.find? (·.hash = hash) with
        | some root => .ok (.changed (some root.data)) ⟨root.children, some root.number⟩
        | none =>
          if ∃ root ∈ tree.roots, B.anc root.hash hash then .error .unfinalizedAncestor tree
          else .ok (if tree.roots.any (fun r => !decide (B.anc hash r.hash)) then .changed none else .unchanged)
            ⟨tree.roots.filter fun r => decide (B.anc hash r.hash), some number⟩ := by
  simp only [ForkTree.finalize, bind_apply, get_apply]
  cases hrev : tree.reverts number with
  | true => rfl
  | false =>
    simp only [Bool.false_eq_true, if_false, bind_apply, ForkTree.finalizeRoot_apply]
    cases hfind : tree.roots.find? (·.hash = hash) with
    | some root => rfl
    | none =>
      -- a root numbered below the block is its ancestor exactly when it is an ancestor
      have hcheck : (∃ r ∈ tree.roots, decide (r.number < number) = true ∧ B.anc r.hash hash) ↔
          ∃ r ∈ tree.roots, B.anc r.hash hash := by
        refine ⟨fun ⟨r, hr, _, hanc⟩ => ⟨r, hr, hanc⟩, fun ⟨r, hr, hanc⟩ => ⟨r, hr, ?_, hanc⟩⟩
        rw [(hwf.nodes_wf r hr).number_eq, hnumber]
        exact decide_eq_true (B.num_lt hanc)
      simp only [get_apply, bind_apply, set_apply, checkUnfinalized_exact, hcheck]
      by_cases hanc : ∃ r ∈ tree.roots, B.anc r.hash hash
      · simp only [if_pos hanc]
        rfl
      · simp only [if_neg hanc]
        rw [ofExcept_ok, retainRoots_ok _ (fun r => decide (B.anc hash r.hash)) _
          (fun r hr => finalizeRetains_exact hnumber (hwf.nodes_wf r hr).number_eq)]
        rfl

omit [DecidableEq H] in
theorem ForestWF.eq_of_mem_of_hash_eq (hwf : ForestWF B roots)
    {x y : Node H N V} (hx : x ∈ Node.preorderOf roots) (hy : y ∈ Node.preorderOf roots) (h : x.hash = y.hash) :
    x = y :=
  List.inj_on_of_nodup_map hwf.nodup hx hy h

omit [LinearOrder N] [DecidableEq H] in
theorem mem_preorderOf_of_mem (h : root ∈ roots) :
    root ∈ Node.preorderOf roots :=
  Node.mem_preorderOf.mpr ⟨root, h, Node.self_mem_preorder root⟩

theorem finalize_finalizesTo (hnumber : number = B.num hash)
    (hwf : ForestWF B tree.roots) {r : FinalizationResult V} {t' : ForkTree H N V}
    (h : ForkTree.finalize hash number (exactOracle (E := E) B) tree = .ok r t') :
    FinalizesTo B hash number tree.nodeIter tree.roots r t' := by
  rw [finalize_eq hnumber hwf] at h
  cases hrev : tree.reverts number with
  | true => simp [hrev] at h
  | false =>
    simp only [hrev, Bool.false_eq_true, if_false] at h
    cases hfind : tree.roots.find? (·.hash = hash) with
    | some root =>
      rw [hfind] at h
      cases h
      have hroot := List.mem_of_find?_eq_some hfind
      have hhash : root.hash = hash := by simpa using List.find?_some hfind
      refine finalizesTo_reroot hnumber hwf hroot hhash (.refl _) hroot fun x hx hxhash => ?_
      exact hwf.eq_of_mem_of_hash_eq (mem_preorderOf_of_mem hx) (mem_preorderOf_of_mem hroot)
        (hxhash.trans hhash.symm)
    | none =>
      rw [hfind] at h
      by_cases hanc : ∃ root ∈ tree.roots, B.anc root.hash hash
      · rw [if_pos hanc] at h
        cases h
      rw [if_neg hanc] at h
      cases h
      have hne : ∀ r ∈ tree.roots, r.hash ≠ hash := by simpa using List.find?_eq_none.mp hfind
      -- no root is the block or its ancestor: each descends from it or is off its branch
      have hroots : ∀ r ∈ tree.roots, B.anc hash r.hash ∨ (¬ B.AncOrSelf r.hash hash ∧ ¬ B.anc hash r.hash) := by
        intro r hr
        by_cases hdesc : B.anc hash r.hash
        · exact .inl hdesc
        · exact .inr ⟨fun hrel => hrel.elim (hne r hr) fun ha => hanc ⟨r, hr, ha⟩, hdesc⟩
      refine ⟨?_, rfl, fun v => ?_⟩
      · show (Node.preorderOf _).Perm (descendantsOf B hash (Node.preorderOf tree.roots))
        rw [descendantsOf_preorderOf_of_forall hwf.nodes_wf hroots]
      · constructor
        · intro hv
          -- `Unchanged` is not `Changed`; `Changed(None)` carries no data
          split_ifs at hv
          cases hv
        · rintro ⟨x, hx, hxhash, -⟩
          exact absurd hxhash (hne x hx)

omit [DecidableEq H] in
theorem reverts_eq_false_iff :
    tree.reverts number = false ↔ ∀ best, tree.bestFinalizedNumber = some best → best < number := by
  unfold ForkTree.reverts
  cases tree.bestFinalizedNumber with
  | none => simp
  | some best => simp

theorem finalize_unfinalizedAncestor_iff (hnumber : number = B.num hash)
    (hwf : ForestWF B tree.roots) :
    (∃ t', ForkTree.finalize hash number (exactOracle (E := E) B) tree = .error .unfinalizedAncestor t') ↔
      (∀ best, tree.bestFinalizedNumber = some best → best < number) ∧ (∀ root ∈ tree.roots, root.hash ≠ hash) ∧
        ∃ root ∈ tree.roots, B.anc root.hash hash := by
  rw [finalize_eq hnumber hwf, ← reverts_eq_false_iff]
  cases hrev : tree.reverts number with
  | true => simp
  | false =>
    simp only [Bool.false_eq_true, if_false, true_and]
    cases hfind : tree.roots.find? (·.hash = hash) with
    | some root =>
      have hhash : root.hash = hash := by simpa using List.find?_some hfind
      simp only [reduceCtorEq, exists_false, false_iff, not_and]
      exact fun hne => absurd hhash (hne root (List.mem_of_find?_eq_some hfind))
    | none =>
      have hne : ∀ r ∈ tree.roots, r.hash ≠ hash := by simpa using List.find?_eq_none.mp hfind
      split_ifs with hanc
      · simpa [hanc] using hne
      · simp [hanc]

end Finalize

/-! ## The loop of `finalize_with_ancestors` -/

/-- What the loop of `finalize_with_ancestors` keeps at position `idx` of the
roots: the roots before `idx` descend from the block, and the forest holds the
strict descendants of `roots₀` and only nodes of it. -/
structure AncestorsLoopInv (B : BlockTree H N) (hash : H) (roots₀ : List (Node H N V)) (idx : Nat)
    (tree : ForkTree H N V) : Prop where
  wf : ForestWF B tree.roots
  kept : ∀ r ∈ tree.roots.take idx, B.anc hash r.hash
  descendants : (descendantsOf B hash tree.nodeIter).Perm (descendantsOf B hash (Node.preorderOf roots₀))
  subset : tree.nodeIter ⊆ Node.preorderOf roots₀
  found : (∃ x ∈ Node.preorderOf roots₀, x.hash = hash) → ∃ x ∈ tree.nodeIter, x.hash = hash

namespace AncestorsLoopInv

variable {hash : H} {roots₀ : List (Node H N V)} {idx : Nat} {tree : ForkTree H N V}

theorem init (hwf : ForestWF B tree.roots) : AncestorsLoopInv B hash tree.roots 0 tree where
  wf := hwf
  kept r hr := by simp at hr
  descendants := .refl _
  subset := List.Subset.refl _
  found := id

/-- A root that descends from the block stays, and the loop moves past it. -/
theorem keep (hinv : AncestorsLoopInv B hash roots₀ idx tree) (hidx : idx < tree.roots.length)
    (hdesc : B.anc hash tree.roots[idx].hash) : AncestorsLoopInv B hash roots₀ (idx + 1) tree where
  wf := hinv.wf
  kept r hr := by
    rw [List.take_add_one, List.getElem?_eq_getElem hidx, Option.toList_some] at hr
    rcases List.mem_append.mp hr with hr | hr
    · exact hinv.kept r hr
    · rw [List.mem_singleton.mp hr]
      exact hdesc
  descendants := hinv.descendants
  subset := hinv.subset
  found := hinv.found

/-- An ancestor of the block is replaced by its children: its strict
descendants of the block are theirs, and it is not the block. -/
theorem openRoot (hinv : AncestorsLoopInv B hash roots₀ idx tree) (hidx : idx < tree.roots.length)
    (hne : tree.roots[idx].hash ≠ hash) (hanc : B.anc tree.roots[idx].hash hash) :
    AncestorsLoopInv B hash roots₀ idx { tree with roots := tree.roots.swapRemove idx ++ tree.roots[idx].children } where
  wf := hinv.wf.openRoot hidx
  kept r hr := by
    have hlen : idx ≤ (tree.roots.swapRemove idx).length := by
      rw [List.length_swapRemove _ _ hidx]
      omega
    rw [List.take_append_of_le_length hlen, List.take_swapRemove _ hidx] at hr
    exact hinv.kept r hr
  descendants := by
    refine List.Perm.trans ?_ hinv.descendants
    refine List.Perm.trans ?_ (descendantsOf_perm (preorderOf_perm_swapRemove hidx)).symm
    show (descendantsOf B hash (Node.preorderOf (tree.roots.swapRemove idx ++ tree.roots[idx].children))).Perm _
    rw [Node.preorderOf_append, descendantsOf_append, descendantsOf_append, NodeWF.descendantsOf_of_ancestor hanc]
    exact List.perm_append_comm
  subset x hx := by
    have hx : x ∈ Node.preorderOf (tree.roots.swapRemove idx ++ tree.roots[idx].children) := hx
    refine hinv.subset ((mem_preorderOf_iff_swapRemove hidx).mpr ?_)
    rw [Node.preorderOf_append, List.mem_append] at hx
    rcases hx with hx | hx
    · exact .inr hx
    · rw [Node.preorder_eq_cons]
      exact .inl (List.mem_cons_of_mem _ hx)
  found hin := by
    obtain ⟨x, hx, hxhash⟩ := hinv.found hin
    refine ⟨x, ?_, hxhash⟩
    show x ∈ Node.preorderOf (tree.roots.swapRemove idx ++ tree.roots[idx].children)
    rw [Node.preorderOf_append, List.mem_append]
    rcases (mem_preorderOf_iff_swapRemove hidx).mp hx with hx | hx
    · -- below the opened root, and not the root itself
      rw [Node.preorder_eq_cons] at hx
      rcases List.mem_cons.mp hx with rfl | hx
      · exact absurd hxhash hne
      · exact .inr hx
    · exact .inl hx

/-- A root off the block's branch is dropped with its subtree, which holds
neither the block nor a descendant of it. -/
theorem drop (hinv : AncestorsLoopInv B hash roots₀ idx tree) (hidx : idx < tree.roots.length)
    (hoff : ¬ B.AncOrSelf tree.roots[idx].hash hash) (hdesc : ¬ B.anc hash tree.roots[idx].hash) :
    AncestorsLoopInv B hash roots₀ idx { tree with roots := tree.roots.swapRemove idx } where
  wf := hinv.wf.swapRemove hidx
  kept r hr := by
    rw [List.take_swapRemove _ hidx] at hr
    exact hinv.kept r hr
  descendants := by
    refine List.Perm.trans ?_ hinv.descendants
    refine List.Perm.trans ?_ (descendantsOf_perm (preorderOf_perm_swapRemove hidx)).symm
    rw [descendantsOf_append, (hinv.wf.nodes_wf _ (List.getElem_mem hidx)).descendantsOf_of_off hoff hdesc,
      List.nil_append]
    exact .refl _
  subset x hx := hinv.subset ((mem_preorderOf_iff_swapRemove hidx).mpr (.inr hx))
  found hin := by
    obtain ⟨x, hx, hxhash⟩ := hinv.found hin
    rcases (mem_preorderOf_iff_swapRemove hidx).mp hx with hx | hx
    · -- the block below the dropped root would make it an ancestor of the block
      have hrel := ((hinv.wf.nodes_wf _ (List.getElem_mem hidx)).of_mem_preorder x hx).2
      exact absurd (hxhash ▸ hrel) hoff
    · exact ⟨x, hx, hxhash⟩

variable {number : N}

/-- The loop meets the block at `idx`: re-rooting there finalizes it. -/
theorem finalizesTo_found (hinv : AncestorsLoopInv B hash roots₀ idx tree) (hnumber : number = B.num hash)
    (hnodup : ((Node.preorderOf roots₀).map Node.hash).Nodup) (hidx : idx < tree.roots.length)
    (hhash : tree.roots[idx].hash = hash) :
    FinalizesTo B hash number (Node.preorderOf roots₀) (Node.preorderOf roots₀)
      (.changed (some tree.roots[idx].data)) ⟨tree.roots[idx].children, some tree.roots[idx].number⟩ := by
  have hroot : tree.roots[idx] ∈ tree.roots := List.getElem_mem hidx
  have hmem : tree.roots[idx] ∈ Node.preorderOf roots₀ := hinv.subset (mem_preorderOf_of_mem hroot)
  refine finalizesTo_reroot hnumber hinv.wf hroot hhash hinv.descendants hmem fun x hx hxhash => ?_
  exact List.inj_on_of_nodup_map hnodup hx hmem (hxhash.trans hhash.symm)

/-- The loop runs out of roots: all that are left descend from the block, so
the block was nowhere. -/
theorem finalizesTo_end (hinv : AncestorsLoopInv B hash roots₀ idx tree) (hidx : ¬ idx < tree.roots.length)
    (changed : Bool) :
    FinalizesTo B hash number (Node.preorderOf roots₀) (Node.preorderOf roots₀)
      (if changed then .changed none else .unchanged) { tree with bestFinalizedNumber := some number } := by
  have hdesc : ∀ r ∈ tree.roots, B.anc hash r.hash := by
    intro r hr
    rw [← List.take_of_length_le (not_lt.mp hidx)] at hr
    exact hinv.kept r hr
  refine ⟨?_, rfl, fun v => ⟨fun hv => ?_, ?_⟩⟩
  · show (Node.preorderOf tree.roots).Perm _
    rw [← descendantsOf_preorderOf_of_desc hinv.wf.nodes_wf hdesc]
    exact hinv.descendants
  · split_ifs at hv
    cases hv
  · -- the block below a root that descends from it would be its own descendant
    rintro ⟨x, hx, hxhash, -⟩
    obtain ⟨y, hy, hyhash⟩ := hinv.found ⟨x, hx, hxhash⟩
    obtain ⟨r, hr, hy⟩ := Node.mem_preorderOf.mp hy
    have hbelow : B.anc hash y.hash :=
      BlockTree.AncOrSelf.anc_trans (hdesc r hr) ((hinv.wf.nodes_wf r hr).of_mem_preorder y hy).2
    rw [hyhash] at hbelow
    exact (B.anc_irrefl hash hbelow).elim

end AncestorsLoopInv

section WithAncestors

variable [DecidableEq H] {hash : H} {number : N}

/-- The loop of `finalize_with_ancestors`, from any position where the
invariant holds, returns `Ok` with what finalizing should leave: by induction
on the loop, each kind of root keeping the invariant. -/
theorem finalizeWithAncestorsLoop_finalizes (hnumber : number = B.num hash) {roots₀ : List (Node H N V)}
    (hnodup : ((Node.preorderOf roots₀).map Node.hash).Nodup) (idx : Nat) (changed : Bool) (tree : ForkTree H N V)
    (hinv : AncestorsLoopInv B hash roots₀ idx tree) :
    ∃ r t', ForkTree.finalizeWithAncestorsLoop hash number (exactOracle (E := E) B) idx changed tree = .ok r t' ∧
      FinalizesTo B hash number (Node.preorderOf roots₀) (Node.preorderOf roots₀) r t' := by
  fun_induction ForkTree.finalizeWithAncestorsLoop hash number (exactOracle (E := E) B) idx changed tree with
  | case1 idx changed tree hidx root hfinal =>
    exact ⟨_, _, rfl, hinv.finalizesTo_found hnumber hnodup hidx hfinal⟩
  | case2 idx changed tree hidx root hfinal e hancestry =>
    rw [rootAncestry_exact hnumber (hinv.wf.nodes_wf _ (List.getElem_mem hidx)).number_eq] at hancestry
    cases hancestry
  | case3 idx changed tree hidx root hfinal isAncestor hancestry ih =>
    rw [rootAncestry_exact hnumber (hinv.wf.nodes_wf _ (List.getElem_mem hidx)).number_eq] at hancestry
    obtain ⟨hdesc, -⟩ := Prod.mk.inj (Except.ok.inj hancestry)
    exact ih (hinv.keep hidx (of_decide_eq_true hdesc))
  | case4 idx changed tree hidx root hfinal isDescendant hnotDescendant hancestry ih =>
    rw [rootAncestry_exact hnumber (hinv.wf.nodes_wf _ (List.getElem_mem hidx)).number_eq] at hancestry
    obtain ⟨-, hanc⟩ := Prod.mk.inj (Except.ok.inj hancestry)
    exact ih (hinv.openRoot hidx hfinal (of_decide_eq_true hanc))
  | case5 idx changed tree hidx root hfinal isDescendant isAncestor hancestry hnotDescendant hnotAncestor ih =>
    rw [rootAncestry_exact hnumber (hinv.wf.nodes_wf _ (List.getElem_mem hidx)).number_eq] at hancestry
    obtain ⟨hdesc, hanc⟩ := Prod.mk.inj (Except.ok.inj hancestry)
    subst hdesc hanc
    have hdesc : ¬ B.anc hash tree.roots[idx].hash := by simpa using hnotDescendant
    have hanc : ¬ B.anc tree.roots[idx].hash hash := by simpa using hnotAncestor
    exact ih (hinv.drop hidx (fun hrel => hrel.elim hfinal hanc) hdesc)
  | case6 idx changed tree hidx =>
    exact ⟨_, _, rfl, hinv.finalizesTo_end hidx changed⟩

theorem finalizeWithAncestors_finalizesTo (hnumber : number = B.num hash)
    (hwf : ForestWF B tree.roots) {r : FinalizationResult V} {t' : ForkTree H N V}
    (h : ForkTree.finalizeWithAncestors hash number (exactOracle (E := E) B) tree = .ok r t') :
    FinalizesTo B hash number tree.nodeIter tree.nodeIter r t' := by
  simp only [ForkTree.finalizeWithAncestors, bind_apply, get_apply] at h
  cases hrev : tree.reverts number with
  | true => simp [hrev] at h
  | false =>
    simp only [hrev, Bool.false_eq_true, if_false, bind_apply, ForkTree.finalizeRoot_apply] at h
    cases hfind : tree.roots.find? (·.hash = hash) with
    | some root =>
      rw [hfind] at h
      cases h
      have hroot := List.mem_of_find?_eq_some hfind
      have hhash : root.hash = hash := by simpa using List.find?_some hfind
      refine finalizesTo_reroot hnumber hwf hroot hhash (.refl _) (mem_preorderOf_of_mem hroot)
        fun x hx hxhash => ?_
      exact hwf.eq_of_mem_of_hash_eq hx (mem_preorderOf_of_mem hroot) (hxhash.trans hhash.symm)
    | none =>
      -- the block is not a root: the loop runs from the first root
      have hloop : ForkTree.finalizeWithAncestorsLoop hash number (exactOracle (E := E) B) 0 false tree = .ok r t' := by
        rw [hfind] at h
        exact h
      obtain ⟨r', t'', hloop', hfin⟩ :=
        finalizeWithAncestorsLoop_finalizes (E := E) hnumber hwf.nodup 0 false tree (.init hwf)
      rw [hloop] at hloop'
      cases hloop'
      exact hfin

end WithAncestors

/-! ## `finalize_with_descendent_if` and its dry run -/

omit [LinearOrder N] in
/-- The rebuild loop returns `Ok` when its test never fails. -/
theorem retainRoots_isOk (retains : Node H N V → Except (Error E) Bool) (roots : List (Node H N V))
    (hret : ∀ r ∈ roots, ∃ b, retains r = .ok b) (changed : Bool) (tree : ForkTree H N V) :
    ∃ c t', ForkTree.retainRoots retains roots changed tree = .ok c t' := by
  let stays : Node H N V → Bool := fun r => match retains r with
    | .ok b => b
    | .error _ => false
  have hstays : ∀ r ∈ roots, retains r = .ok (stays r) := by
    intro r hr
    obtain ⟨b, hb⟩ := hret r hr
    simp only [stays, hb]
  exact ⟨_, _, retainRoots_ok retains stays roots hstays changed tree⟩

section DescendentIf

variable [DecidableEq H] {hash : H} {number : N} {predicate : V → Bool}

theorem descendentIfRetains_isOk (root : Node H N V) :
    ∃ b, ForkTree.descendentIfRetains hash number (exactOracle (E := E) B) root = .ok b := by
  have hfin : ∃ b, ForkTree.finalizeRetains hash number (exactOracle (E := E) B) root = .ok b := by
    unfold ForkTree.finalizeRetains
    split_ifs
    · exact ⟨_, rfl⟩
    · exact ⟨_, rfl⟩
  obtain ⟨b, hb⟩ := hfin
  unfold ForkTree.descendentIfRetains
  rw [hb]
  cases b with
  | true => exact ⟨true, rfl⟩
  | false =>
    -- the equality test, then the question asked the other way
    by_cases heq : root.number = number ∧ root.hash = hash
    · exact ⟨true, by simp [heq, bind, Except.bind, pure, Except.pure]⟩
    · exact ⟨decide (B.anc root.hash hash), by simp [heq, bind, Except.bind, exactOracle]⟩

theorem finalizesAt_exact (x : Node H N V) :
    ForkTree.finalizesAt hash (exactOracle (E := E) B) predicate x =
      .ok (predicate x.data && decide (B.AncOrSelf x.hash hash)) := by
  unfold ForkTree.finalizesAt
  cases predicate x.data with
  | false => rfl
  | true =>
    by_cases hx : x.hash = hash
    · simp [hx, BlockTree.AncOrSelf.refl, pure, Except.pure]
    · simp [hx, exactOracle, BlockTree.AncOrSelf]

/-- The search of `finalize_with_descendent_if` over any list of nodes: the
first that passes the test, unless one of its children numbered up to
`number` is an ancestor of the block. -/
theorem findFinalizedRoot_exact : ∀ nodes : List (Node H N V),
    ForkTree.findFinalizedRoot hash number (exactOracle (E := E) B) predicate nodes =
      match nodes.find? (fun x => predicate x.data && decide (B.AncOrSelf x.hash hash)) with
      | none => .ok none
      | some x =>
        if ∃ c ∈ x.children, c.number ≤ number ∧ B.anc c.hash hash then .error .unfinalizedAncestor
        else .ok (some x)
  | [] => rfl
  | x :: nodes => by
    rw [ForkTree.findFinalizedRoot, finalizesAt_exact]
    cases hx : (predicate x.data && decide (B.AncOrSelf x.hash hash)) with
    | false =>
      simp only [List.find?_cons, hx, ← findFinalizedRoot_exact nodes]
      rfl
    | true =>
      simp only [List.find?_cons, hx, bind, Except.bind, if_true, checkUnfinalized_exact, decide_eq_true_eq]
      split_ifs <;> rfl

theorem finalizesAnyWithDescendentIf_of_reverts (isDescendentOf : H → H → Except E Bool)
    (hrev : tree.reverts number = true) :
    tree.finalizesAnyWithDescendentIf hash number isDescendentOf predicate = .error .revert := by
  simp only [ForkTree.finalizesAnyWithDescendentIf, hrev, if_true]
  rfl

theorem finalizeWithDescendentIf_of_reverts (isDescendentOf : H → H → Except E Bool)
    (hrev : tree.reverts number = true) :
    ForkTree.finalizeWithDescendentIf hash number isDescendentOf predicate tree = .error .revert tree := by
  simp [ForkTree.finalizeWithDescendentIf, hrev]

theorem finalizesAnyWithDescendentIf_eq (isDescendentOf : H → H → Except E Bool)
    (hrev : tree.reverts number = false) :
    tree.finalizesAnyWithDescendentIf hash number isDescendentOf predicate =
      (ForkTree.findFinalizedRoot hash number isDescendentOf predicate tree.nodeIter).map
        (Option.map fun node => tree.roots.any (·.hash = node.hash)) := by
  simp only [ForkTree.finalizesAnyWithDescendentIf, hrev, Bool.false_eq_true, if_false]
  cases ForkTree.findFinalizedRoot hash number isDescendentOf predicate tree.nodeIter with
  | error e => rfl
  | ok position => cases position <;> rfl

theorem finalizeWithDescendentIf_of_search_error (isDescendentOf : H → H → Except E Bool)
    (hrev : tree.reverts number = false) {e : Error E}
    (hsearch : ForkTree.findFinalizedRoot hash number isDescendentOf predicate tree.roots = .error e) :
    ForkTree.finalizeWithDescendentIf hash number isDescendentOf predicate tree = .error e tree := by
  simp [ForkTree.finalizeWithDescendentIf, hrev, hsearch]

theorem finalizeWithDescendentIf_of_search_ok (hrev : tree.reverts number = false)
    {position : Option (Node H N V)}
    (hsearch : ForkTree.findFinalizedRoot hash number (exactOracle (E := E) B) predicate tree.roots = .ok position) :
    ∃ c t', ForkTree.finalizeWithDescendentIf hash number (exactOracle (E := E) B) predicate tree = .ok c t' ∧
      ∀ v, c = .changed (some v) ↔ ∃ node, position = some node ∧ node.data = v := by
  have hretains := retainRoots_isOk (V := V) (ForkTree.descendentIfRetains hash number (exactOracle (E := E) B))
  simp only [ForkTree.finalizeWithDescendentIf, bind_apply, get_apply, hrev, Bool.false_eq_true, if_false,
    hsearch, ofExcept_ok]
  cases position with
  | none =>
    obtain ⟨c, t', hc⟩ := hretains tree.roots (fun r _ => descendentIfRetains_isOk r) false { tree with roots := [] }
    simp only [pure_apply, get_apply, set_apply, bind_apply, hc, modify_apply]
    refine ⟨_, _, rfl, fun v => ?_⟩
    cases c <;> simp
  | some node =>
    obtain ⟨c, t', hc⟩ := hretains node.children (fun r _ => descendentIfRetains_isOk r) false
      ⟨[], some node.number⟩
    simp only [map_apply, ForkTree.finalizeRootAt, bind_apply, set_apply, pure_apply, get_apply, hc, modify_apply]
    exact ⟨_, _, rfl, fun v => by simp⟩

omit [DecidableEq H] in
theorem NodeWF.not_pass_of_independent {node root : Node H N V} (h : NodeWF B node)
    (hind : B.Independent node.hash root.hash) (hrel : B.AncOrSelf root.hash hash) {P : Node H N V → Bool}
    (hP : ∀ x, P x = true → B.AncOrSelf x.hash hash) : ∀ y ∈ Node.preorder node, P y = false := by
  intro y hy
  by_contra hpass
  have hnode : B.AncOrSelf node.hash hash :=
    (h.of_mem_preorder y hy).2.trans (hP y (Bool.not_eq_false _ ▸ hpass))
  exact BlockTree.not_independent_of_ancOrSelf hnode hrel hind

variable {P : Node H N V → Bool}

omit [DecidableEq H] in
/-- In a well-formed forest, a root passing a test that implies being the
block or an ancestor of it is the first root to pass it. -/
theorem ForestWF.find_roots_eq (hwf : ForestWF B roots)
    (hP : ∀ x, P x = true → B.AncOrSelf x.hash hash) (hroot : root ∈ roots)
    (hpass : P root = true) : roots.find? P = some root := by
  induction roots with
  | nil => cases hroot
  | cons r rs ih =>
    rcases List.mem_cons.mp hroot with rfl | hroot
    · exact List.find?_cons_of_pos hpass
    · -- `r` is on another fork than the root
      have hr := (hwf.nodes_wf r List.mem_cons_self).not_pass_of_independent
        (List.rel_of_pairwise_cons hwf.independent hroot) (hP root hpass) hP r (Node.self_mem_preorder r)
      rw [List.find?_cons_of_neg (by simp [hr]), ih (hwf.sublist (List.sublist_cons_self r rs)) hroot]

omit [DecidableEq H] in
/-- It is also the first node to pass it in pre-order: the subtrees of the
roots before it are on other forks. -/
theorem ForestWF.find_preorderOf_eq (hwf : ForestWF B roots)
    (hP : ∀ x, P x = true → B.AncOrSelf x.hash hash) (hroot : root ∈ roots)
    (hpass : P root = true) : (Node.preorderOf roots).find? P = some root := by
  induction roots with
  | nil => cases hroot
  | cons r rs ih =>
    rw [Node.preorderOf_cons, List.find?_append]
    rcases List.mem_cons.mp hroot with rfl | hroot
    · rw [Node.preorder_eq_cons, List.find?_cons_of_pos hpass, Option.some_or]
    · have hr : (Node.preorder r).find? P = none := List.find?_eq_none.mpr fun y hy => by
        simp [(hwf.nodes_wf r List.mem_cons_self).not_pass_of_independent
          (List.rel_of_pairwise_cons hwf.independent hroot) (hP root hpass) hP y hy]
      rw [hr, Option.none_or, ih (hwf.sublist (List.sublist_cons_self r rs)) hroot]

end DescendentIf

/-! ## The dry run agrees with `finalize_with_descendent_if` -/

section Agreement

variable [DecidableEq H] {hash : H} {number : N} {predicate : V → Bool}

theorem passes_ancOrSelf (x : Node H N V) (hx : (predicate x.data && decide (B.AncOrSelf x.hash hash)) = true) :
    B.AncOrSelf x.hash hash := by
  simp only [Bool.and_eq_true, decide_eq_true_eq] at hx
  exact hx.2

theorem finalizesAny_some_true_iff (hwf : ForestWF B tree.roots) :
    tree.finalizesAnyWithDescendentIf hash number (exactOracle (E := E) B) predicate = .ok (some true) ↔
      ∃ v t', ForkTree.finalizeWithDescendentIf hash number (exactOracle (E := E) B) predicate tree =
        .ok (.changed (some v)) t' := by
  cases hrev : tree.reverts number with
  | true =>
    simp [finalizesAnyWithDescendentIf_of_reverts _ hrev, finalizeWithDescendentIf_of_reverts _ hrev]
  | false =>
    rw [finalizesAnyWithDescendentIf_eq _ hrev]
    by_cases hroot : ∃ root ∈ tree.roots, (predicate root.data && decide (B.AncOrSelf root.hash hash)) = true
    · obtain ⟨root, hroot, hpass⟩ := hroot
      -- both searches stop at that root
      have hsame : ForkTree.findFinalizedRoot hash number (exactOracle (E := E) B) predicate tree.nodeIter =
          ForkTree.findFinalizedRoot hash number (exactOracle (E := E) B) predicate tree.roots := by
        rw [findFinalizedRoot_exact, findFinalizedRoot_exact, ForkTree.nodeIter,
          hwf.find_preorderOf_eq passes_ancOrSelf hroot hpass, hwf.find_roots_eq passes_ancOrSelf hroot hpass]
      rw [hsame]
      cases hsearch : ForkTree.findFinalizedRoot hash number (exactOracle (E := E) B) predicate tree.roots with
      | error e => simp [finalizeWithDescendentIf_of_search_error _ hrev hsearch, Except.map]
      | ok position =>
        obtain ⟨c, t', hreal, hc⟩ := finalizeWithDescendentIf_of_search_ok hrev hsearch
        cases position with
        | none => simp [hreal, hc, Except.map]
        | some node =>
          have hmem : node ∈ tree.roots := findFinalizedRoot_mem hsearch
          simpa [hreal, hc, Except.map] using ⟨node, hmem, rfl⟩
    · -- no root passes: the real run finalizes none
      have hnone : tree.roots.find? (fun x => predicate x.data && decide (B.AncOrSelf x.hash hash)) = none :=
        List.find?_eq_none.mpr fun r hr hpass => hroot ⟨r, hr, hpass⟩
      have hsearch : ForkTree.findFinalizedRoot hash number (exactOracle (E := E) B) predicate tree.roots =
          .ok none := by
        rw [findFinalizedRoot_exact, hnone]
      obtain ⟨c, t', hreal, hc⟩ := finalizeWithDescendentIf_of_search_ok hrev hsearch
      simp only [hreal, EStateM.Result.ok.injEq]
      have hc' : ∀ v, c ≠ .changed (some v) := fun v hv => by simpa using (hc v).mp hv
      simp only [hc']
      -- and the dry run stops at no root: a node passing the test is not one
      rw [findFinalizedRoot_exact]
      cases hfind : (Node.preorderOf tree.roots).find?
          (fun x => predicate x.data && decide (B.AncOrSelf x.hash hash)) with
      | none => simp [ForkTree.nodeIter, hfind, Except.map]
      | some x =>
        have hx : x ∈ Node.preorderOf tree.roots := List.mem_of_find?_eq_some hfind
        have hpass := List.find?_some hfind
        have hnotroot : ∀ r ∈ tree.roots, r.hash ≠ x.hash := by
          intro r hr hhash
          have hrx : r = x := hwf.eq_of_mem_of_hash_eq (mem_preorderOf_of_mem hr) hx hhash
          exact hroot ⟨x, hrx ▸ hr, hpass⟩
        simp only [ForkTree.nodeIter, hfind]
        split_ifs
        · simp [Except.map]
        · simpa [Except.map] using hnotroot

theorem unfinalizedAncestor_iff_of_root (hwf : ForestWF B tree.roots)
    (hroot : root ∈ tree.roots) (hp : predicate root.data = true)
    (hrel : B.AncOrSelf root.hash hash) :
    (tree.finalizesAnyWithDescendentIf hash number (exactOracle (E := E) B) predicate = .error .unfinalizedAncestor ↔
      (∀ best, tree.bestFinalizedNumber = some best → best < number) ∧
        ∃ c ∈ root.children, c.number ≤ number ∧ B.anc c.hash hash) ∧
    ((∃ t', ForkTree.finalizeWithDescendentIf hash number (exactOracle (E := E) B) predicate tree =
        .error .unfinalizedAncestor t') ↔
      (∀ best, tree.bestFinalizedNumber = some best → best < number) ∧
        ∃ c ∈ root.children, c.number ≤ number ∧ B.anc c.hash hash) := by
  have hpass : (predicate root.data && decide (B.AncOrSelf root.hash hash)) = true := by simp [hp, hrel]
  -- both searches stop at the root and check its children
  have hsearch : ForkTree.findFinalizedRoot hash number (exactOracle (E := E) B) predicate tree.roots =
      if ∃ c ∈ root.children, c.number ≤ number ∧ B.anc c.hash hash then .error .unfinalizedAncestor
      else .ok (some root) := by
    rw [findFinalizedRoot_exact, hwf.find_roots_eq passes_ancOrSelf hroot hpass]
  have hsearch' : ForkTree.findFinalizedRoot hash number (exactOracle (E := E) B) predicate tree.nodeIter =
      if ∃ c ∈ root.children, c.number ≤ number ∧ B.anc c.hash hash then .error .unfinalizedAncestor
      else .ok (some root) := by
    rw [findFinalizedRoot_exact, ForkTree.nodeIter, hwf.find_preorderOf_eq passes_ancOrSelf hroot hpass]
  rw [← reverts_eq_false_iff]
  cases hrev : tree.reverts number with
  | true =>
    simp [finalizesAnyWithDescendentIf_of_reverts _ hrev, finalizeWithDescendentIf_of_reverts _ hrev]
  | false =>
    rw [finalizesAnyWithDescendentIf_eq _ hrev, hsearch']
    by_cases hcond : ∃ c ∈ root.children, c.number ≤ number ∧ B.anc c.hash hash
    · rw [if_pos hcond] at hsearch
      simp [hcond, finalizeWithDescendentIf_of_search_error _ hrev hsearch, Except.map]
    · rw [if_neg hcond] at hsearch
      obtain ⟨c, t', hreal, -⟩ := finalizeWithDescendentIf_of_search_ok hrev hsearch
      simp [hcond, hreal, Except.map]

end Agreement

/-- Finalizing a block keeps exactly its strict descendants with their
subtrees; `finalize` refuses with `UnfinalizedAncestor` exactly when the block
is not a root but has one as an ancestor. -/
theorem finalize_keeps_descendants [DecidableEq H] {hash : H} {number : N} (tree : ForkTree H N V)
    (hwf : ForestWF B tree.roots) (hnumber : number = B.num hash) :
    (∀ r t', ForkTree.finalize hash number (exactOracle (E := E) B) tree = .ok r t' →
      FinalizesTo B hash number tree.nodeIter tree.roots r t') ∧
    (∀ r t', ForkTree.finalizeWithAncestors hash number (exactOracle (E := E) B) tree = .ok r t' →
      FinalizesTo B hash number tree.nodeIter tree.nodeIter r t') ∧
    ((∃ t', ForkTree.finalize hash number (exactOracle (E := E) B) tree = .error .unfinalizedAncestor t') ↔
      (∀ best, tree.bestFinalizedNumber = some best → best < number) ∧ (∀ root ∈ tree.roots, root.hash ≠ hash) ∧
        ∃ root ∈ tree.roots, B.anc root.hash hash) :=
  ⟨fun _ _ h => finalize_finalizesTo hnumber hwf h, fun _ _ h => finalizeWithAncestors_finalizesTo hnumber hwf h,
    finalize_unfinalizedAncestor_iff hnumber hwf⟩

theorem finalize_keeps_descendants_chain :
    ForestWF natBranch chainTree.roots ∧ (2 : Nat) = natBranch.num 2 ∧
      (∀ r t', ForkTree.finalize 2 2 (exactOracle (E := Unit) natBranch) chainTree = .ok r t' →
        FinalizesTo natBranch 2 2 chainTree.nodeIter chainTree.roots r t') ∧
      (∀ r t', ForkTree.finalizeWithAncestors 2 2 (exactOracle (E := Unit) natBranch) chainTree = .ok r t' →
        FinalizesTo natBranch 2 2 chainTree.nodeIter chainTree.nodeIter r t') ∧
      ((∃ t', ForkTree.finalize 2 2 (exactOracle (E := Unit) natBranch) chainTree = .error .unfinalizedAncestor t') ↔
        (∀ best, chainTree.bestFinalizedNumber = some best → best < 2) ∧
          (∀ root ∈ chainTree.roots, root.hash ≠ 2) ∧ ∃ root ∈ chainTree.roots, natBranch.anc root.hash 2) :=
  ⟨chainTree_wf, rfl, finalize_keeps_descendants chainTree chainTree_wf rfl⟩

/-- The dry run `finalizes_any_with_descendent_if` agrees with
`finalize_with_descendent_if`: `Some(true)` exactly when the real run
finalizes a root, and both refuse with `UnfinalizedAncestor` alike. -/
theorem finalizes_any_agrees_with_finalize [DecidableEq H] {hash : H} {number : N} (predicate : V → Bool)
    (tree : ForkTree H N V) (hwf : ForestWF B tree.roots) :
    (tree.finalizesAnyWithDescendentIf hash number (exactOracle (E := E) B) predicate = .ok (some true) ↔
      ∃ v t', ForkTree.finalizeWithDescendentIf hash number (exactOracle (E := E) B) predicate tree =
        .ok (.changed (some v)) t') ∧
    ∀ root ∈ tree.roots, predicate root.data = true → B.AncOrSelf root.hash hash →
      (tree.finalizesAnyWithDescendentIf hash number (exactOracle (E := E) B) predicate =
          .error .unfinalizedAncestor ↔
        (∀ best, tree.bestFinalizedNumber = some best → best < number) ∧
          ∃ c ∈ root.children, c.number ≤ number ∧ B.anc c.hash hash) ∧
      ((∃ t', ForkTree.finalizeWithDescendentIf hash number (exactOracle (E := E) B) predicate tree =
          .error .unfinalizedAncestor t') ↔
        (∀ best, tree.bestFinalizedNumber = some best → best < number) ∧
          ∃ c ∈ root.children, c.number ≤ number ∧ B.anc c.hash hash) :=
  ⟨finalizesAny_some_true_iff hwf, fun _ hroot hp hrel => unfinalizedAncestor_iff_of_root hwf hroot hp hrel⟩

theorem finalizes_any_agrees_with_finalize_chain :
    ForestWF natBranch chainTree.roots ∧
      (chainTree.finalizesAnyWithDescendentIf 3 3 (exactOracle (E := Unit) natBranch) (fun _ => true) =
          .ok (some true) ↔
        ∃ v t', ForkTree.finalizeWithDescendentIf 3 3 (exactOracle (E := Unit) natBranch) (fun _ => true)
          chainTree = .ok (.changed (some v)) t') ∧
      ∀ root ∈ chainTree.roots, (fun _ : Nat => true) root.data = true → natBranch.AncOrSelf root.hash 3 →
        (chainTree.finalizesAnyWithDescendentIf 3 3 (exactOracle (E := Unit) natBranch) (fun _ => true) =
            .error .unfinalizedAncestor ↔
          (∀ best, chainTree.bestFinalizedNumber = some best → best < 3) ∧
            ∃ c ∈ root.children, c.number ≤ 3 ∧ natBranch.anc c.hash 3) ∧
        ((∃ t', ForkTree.finalizeWithDescendentIf 3 3 (exactOracle (E := Unit) natBranch) (fun _ => true)
            chainTree = .error .unfinalizedAncestor t') ↔
          (∀ best, chainTree.bestFinalizedNumber = some best → best < 3) ∧
            ∃ c ∈ root.children, c.number ≤ 3 ∧ natBranch.anc c.hash 3) :=
  ⟨chainTree_wf, finalizes_any_agrees_with_finalize (fun _ => true) chainTree chainTree_wf⟩

/-- Below the best finalized number the revert test comes first: root `1`
passes and is an ancestor of block `3`, its child `2` is numbered up to `3`
and is an ancestor of `3`, yet both runs return `Revert`. -/
theorem finalizes_any_reverts_before_check :
    ForestWF natBranch chainTree.roots ∧
      (∃ root ∈ chainTree.roots, natBranch.AncOrSelf root.hash 3 ∧
        ∃ c ∈ root.children, c.number ≤ 3 ∧ natBranch.anc c.hash 3) ∧
      ({ chainTree with bestFinalizedNumber := some 5 }).finalizesAnyWithDescendentIf 3 3
          (exactOracle (E := Unit) natBranch) (fun _ => true) = .error .revert ∧
      ForkTree.finalizeWithDescendentIf 3 3 (exactOracle (E := Unit) natBranch) (fun _ => true)
          { chainTree with bestFinalizedNumber := some 5 } =
        .error .revert { chainTree with bestFinalizedNumber := some 5 } := by
  refine ⟨chainTree_wf, ?_, ?_, ?_⟩
  · refine ⟨⟨1, 1, 10, [⟨2, 2, 20, []⟩]⟩, List.mem_singleton_self _, .inr (by decide), ⟨2, 2, 20, []⟩,
      List.mem_singleton_self _, by decide, by decide⟩
  · exact finalizesAnyWithDescendentIf_of_reverts _ (by decide)
  · exact finalizeWithDescendentIf_of_reverts _ (by decide)

end ForkTree
