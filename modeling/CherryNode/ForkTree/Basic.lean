import Mathlib
import CherryNode.Lib.Vec
import CherryNode.Lib.EStateRun

/-!
# `ForkTree`: the tree of unfinalized blocks

A model of `utils/fork-tree`.  A block is imported under the deepest node that
is its ancestor, as the caller's `is_descendent_of(base, target)` tells (an
`H → H → Except E Bool`, backed by a header lookup that may fail); roots have
no ancestor in the tree.  Finalizing re-roots the tree at a block and drops the
branches without it.

The calls are `EStateM (Error E) (ForkTree H N V)` programs, so an error from
`?` comes with the tree as the code left it (a root list taken by `mem::take`
and partly pushed back, say).  `Vec::swap_remove` is `List.swapRemove`,
`sort_by_key(|n| Reverse(n.max_depth()))` the stable `List.mergeSort` by
decreasing depth, and `removedItems` what `prune`'s `RemovedIterator` yields.
Encoding, `map` and the `_mut` searches are left out.
-/

set_option linter.dupNamespace false

namespace ForkTree

/-- `Error`. -/
inductive Error (E : Type)
  | duplicate
  | unfinalizedAncestor
  | revert
  | client (e : E)
  deriving DecidableEq, Repr

/-- `FinalizationResult`. -/
inductive FinalizationResult (V : Type)
  | changed (data : Option V)
  | unchanged
  deriving DecidableEq, Repr

/-- `FindOutcome`. -/
inductive FindOutcome (T : Type)
  | found (t : T)
  | failure (descendent : Bool)
  | abort
  deriving DecidableEq, Repr

/-- What `Node::import` returns: `Ok(None)` once the node is in the subtree
(here with the subtree it is in), `Ok(Some(..))` when it was handed back. -/
inductive Imported (T : Type)
  | inserted (t : T)
  | declined
  deriving DecidableEq, Repr

/-- `Node`. -/
structure Node (H N V : Type) where
  hash : H
  number : N
  data : V
  children : List (Node H N V)

/-- `ForkTree`. -/
structure ForkTree (H N V : Type) where
  roots : List (Node H N V)
  bestFinalizedNumber : Option N

/-- The calls that change a fork tree, with the errors and state they end in. -/
abbrev TreeM (H N V E α : Type) := EStateM (Error E) (ForkTree H N V) α

variable {H N V E : Type} {nodes : List (Node H N V)}

/-- An `is_descendent_of(..)?`: the client's error becomes `Error::Client`. -/
def ask (r : Except E Bool) : Except (Error E) Bool := r.mapError .client

@[simp] theorem ask_ok (b : Bool) : ask (.ok b : Except E Bool) = .ok b := rfl

@[simp] theorem ask_error (e : E) : ask (.error e : Except E Bool) = .error (.client e) := rfl

namespace Node

/-! ## Nodes -/

/-- Induction over a node, with the hypothesis for each of its children. -/
@[elab_as_elim]
theorem induction {motive : Node H N V → Prop}
    (mk : ∀ hash number data children, (∀ child ∈ children, motive child) →
      motive ⟨hash, number, data, children⟩) :
    ∀ node, motive node
  | ⟨hash, number, data, children⟩ => mk hash number data children fun child _ => induction mk child
termination_by node => sizeOf node
decreasing_by
  have := List.sizeOf_lt_of_mem ‹child ∈ children›
  simp only [Node.mk.sizeOf_spec]
  omega

/-- What the iterators yield of a node: `(hash, number, data)`. -/
def item (node : Node H N V) : H × N × V := (node.hash, node.number, node.data)

mutual
/-- The nodes of a subtree in pre-order (`ForkTreeIterator`). -/
def preorder : Node H N V → List (Node H N V)
  | node@⟨_, _, _, children⟩ => node :: preorderOf children

/-- The nodes of a list of subtrees in pre-order, the first subtree first. -/
def preorderOf : List (Node H N V) → List (Node H N V)
  | [] => []
  | node :: nodes => preorder node ++ preorderOf nodes
end

@[simp] theorem preorder_mk (hash : H) (number : N) (data : V) (children : List (Node H N V)) :
    preorder ⟨hash, number, data, children⟩ = ⟨hash, number, data, children⟩ :: preorderOf children := by
  rw [preorder]

@[simp] theorem preorderOf_nil : preorderOf ([] : List (Node H N V)) = [] := by
  rw [preorderOf]

@[simp] theorem preorderOf_cons (node : Node H N V) (nodes : List (Node H N V)) :
    preorderOf (node :: nodes) = preorder node ++ preorderOf nodes := by
  rw [preorderOf]

theorem preorderOf_eq_flatMap (nodes : List (Node H N V)) : preorderOf nodes = nodes.flatMap preorder := by
  induction nodes with
  | nil => simp
  | cons node nodes ih => simp [ih]

@[simp] theorem preorderOf_append (nodes nodes' : List (Node H N V)) :
    preorderOf (nodes ++ nodes') = preorderOf nodes ++ preorderOf nodes' := by
  simp [preorderOf_eq_flatMap]

variable {x : Node H N V}

theorem mem_preorder_mk {hash : H} {number : N} {data : V} {children : List (Node H N V)} :
    x ∈ preorder ⟨hash, number, data, children⟩ ↔
      x = ⟨hash, number, data, children⟩ ∨ x ∈ preorderOf children := by
  simp

theorem mem_preorderOf :
    x ∈ preorderOf nodes ↔ ∃ node ∈ nodes, x ∈ preorder node := by
  simp [preorderOf_eq_flatMap]

theorem preorder_eq_cons (node : Node H N V) : preorder node = node :: preorderOf node.children := by
  cases node
  simp

theorem self_mem_preorder (node : Node H N V) : node ∈ preorder node := by
  simp [preorder_eq_cons]

theorem Perm.preorderOf {nodes nodes' : List (Node H N V)} (h : nodes.Perm nodes') :
    (preorderOf nodes).Perm (preorderOf nodes') := by
  simpa only [preorderOf_eq_flatMap] using h.flatMap_right preorder

mutual
/-- `Node::max_depth`. -/
def maxDepth : Node H N V → Nat
  | ⟨_, _, _, children⟩ => maxDepthOf children 0 + 1

/-- The loop of `max_depth`: `max = node.max_depth().max(max)` over the children. -/
def maxDepthOf : List (Node H N V) → Nat → Nat
  | [], deepest => deepest
  | node :: nodes, deepest => maxDepthOf nodes (max (maxDepth node) deepest)
end

/-- `sort_by_key(|n| Reverse(n.max_depth()))`: a stable sort, deepest first. -/
def sortByDepth (nodes : List (Node H N V)) : List (Node H N V) :=
  nodes.mergeSort fun a b => decide (b.maxDepth ≤ a.maxDepth)

theorem sortByDepth_perm (nodes : List (Node H N V)) : (sortByDepth nodes).Perm nodes :=
  List.mergeSort_perm _ _

/-- `Node::rebalance`: the children sorted deepest first, each rebalanced. -/
def rebalance : Node H N V → Node H N V
  | ⟨hash, number, data, children⟩ =>
    ⟨hash, number, data, (sortByDepth children).attach.map fun ⟨child, _⟩ => rebalance child⟩
termination_by node => sizeOf node
decreasing_by
  rename_i hchild
  have := List.sizeOf_lt_of_mem (List.mem_mergeSort.mp hchild)
  simp only [Node.mk.sizeOf_spec]
  omega

theorem rebalance_mk (hash : H) (number : N) (data : V) (children : List (Node H N V)) :
    rebalance ⟨hash, number, data, children⟩ = ⟨hash, number, data, (sortByDepth children).map rebalance⟩ := by
  rw [rebalance]
  simp only [Node.mk.injEq, true_and]
  conv_rhs => rw [← List.attach_map_subtype_val (sortByDepth children), List.map_map]
  rfl

/-- The walk of `find_node_where` down a path of child indices, in the order
`indexes.pop()` yields them (`cur = &cur.children[i]`); `none` where that
indexing panics. -/
def descend (node : Node H N V) : List Nat → Option (Node H N V)
  | [] => some node
  | i :: path => node.children[i]?.bind (descend · path)

variable [DecidableEq H] [LinearOrder N]

mutual
/-- `Node::import` of the block `hash` (number `number`): inserted as a child of
the deepest node of the subtree that is its ancestor, below every child that
is not; `declined` when no node of the subtree is. -/
def «import» (hash : H) (number : N) (data : V) (isDescendentOf : H → H → Except E Bool) :
    Node H N V → Except (Error E) (Imported (Node H N V))
  | ⟨h, n, d, children⟩ =>
    if h = hash then .error .duplicate
    else if number ≤ n then .ok .declined
    else
      match importChildren hash number data isDescendentOf children with
      | .error e => .error e
      | .ok (.inserted children) => .ok (.inserted ⟨h, n, d, children⟩)
      | .ok .declined =>
        match ask (isDescendentOf h hash) with
        | .error e => .error e
        | .ok true => .ok (.inserted ⟨h, n, d, children ++ [⟨hash, number, data, []⟩]⟩)
        | .ok false => .ok .declined

/-- The loop of `Node::import` over the children: the first child to take the
block ends it. -/
def importChildren (hash : H) (number : N) (data : V) (isDescendentOf : H → H → Except E Bool) :
    List (Node H N V) → Except (Error E) (Imported (List (Node H N V)))
  | [] => .ok .declined
  | node :: nodes =>
    match «import» hash number data isDescendentOf node with
    | .error e => .error e
    | .ok (.inserted node) => .ok (.inserted (node :: nodes))
    | .ok .declined =>
      match importChildren hash number data isDescendentOf nodes with
      | .error e => .error e
      | .ok (.inserted nodes) => .ok (.inserted (node :: nodes))
      | .ok .declined => .ok .declined
end

mutual
/-- `Node::find_node_index_where`: the path to the deepest node of the subtree
that is an ancestor of `hash` (or `hash` itself) and passes `predicate`, the
index of the topmost step last. -/
def findNodeIndexWhere (hash : H) (number : N) (isDescendentOf : H → H → Except E Bool)
    (predicate : V → Bool) : Node H N V → Except (Error E) (FindOutcome (List Nat))
  | ⟨h, n, d, children⟩ =>
    if number < n then .ok (.failure false)
    else
      match findInChildren hash number isDescendentOf predicate 0 children with
      | .error e => .error e
      | .ok .abort => .ok .abort
      | .ok (.found x) => .ok (.found x)
      | .ok (.failure knownDescendentOf) =>
        -- `known_descendent_of || is_descendent_of(..)?`: the oracle is asked only if no child was
        match (if knownDescendentOf then .ok true else ask (isDescendentOf h hash)) with
        | .error e => .error e
        | .ok isDescendent =>
          if isDescendent && predicate d then .ok (.found []) else .ok (.failure isDescendent)

/-- The loop of `find_node_index_where` over the children from index `i`: a
child's `Failure(true)` is the loop's `break`. -/
def findInChildren (hash : H) (number : N) (isDescendentOf : H → H → Except E Bool)
    (predicate : V → Bool) : Nat → List (Node H N V) → Except (Error E) (FindOutcome (List Nat))
  | _, [] => .ok (.failure false)
  | i, node :: nodes =>
    match findNodeIndexWhere hash number isDescendentOf predicate node with
    | .error e => .error e
    | .ok .abort => .ok .abort
    | .ok (.found x) => .ok (.found (x ++ [i]))
    | .ok (.failure true) => .ok (.failure true)
    | .ok (.failure false) => findInChildren hash number isDescendentOf predicate (i + 1) nodes
end

/-- `Node::find_node_where`: the search of `find_node_index_where`, then the
walk down the path it returns; `none` where the walk panics.
`find_node_where_mut` walks the same path to the same node. -/
def findNodeWhere (hash : H) (number : N) (isDescendentOf : H → H → Except E Bool) (predicate : V → Bool)
    (node : Node H N V) : Option (Except (Error E) (FindOutcome (Node H N V))) :=
  match node.findNodeIndexWhere hash number isDescendentOf predicate with
  | .error e => some (.error e)
  | .ok .abort => some (.ok .abort)
  | .ok (.failure f) => some (.ok (.failure f))
  | .ok (.found indexes) => (node.descend indexes.reverse).map fun cur => .ok (.found cur)

end Node

variable [DecidableEq H] [LinearOrder N]

/-! ## The tree -/

namespace ForkTree

/-- `ForkTree::new`. -/
def new : ForkTree H N V := ⟨[], none⟩

/-- The tree's nodes in pre-order (`node_iter`). -/
def nodeIter (tree : ForkTree H N V) : List (Node H N V) := Node.preorderOf tree.roots

/-- `ForkTree::iter`. -/
def iter (tree : ForkTree H N V) : List (H × N × V) := tree.nodeIter.map Node.item

/-- What the `RemovedIterator` over the stack `removed` yields: it pops from
the end, and pushes a node's children so that the first is popped first. -/
def removedItems (removed : List (Node H N V)) : List (H × N × V) :=
  (Node.preorderOf removed.reverse).map Node.item

/-- The `Error::Revert` test: `number <= best_finalized_number`. -/
def reverts (tree : ForkTree H N V) (number : N) : Bool :=
  match tree.bestFinalizedNumber with
  | some best => decide (number ≤ best)
  | none => false

/-- `ForkTree::rebalance`. -/
def rebalance (tree : ForkTree H N V) : ForkTree H N V :=
  { tree with roots := (Node.sortByDepth tree.roots).map Node.rebalance }

/-- The loop of `ForkTree::import` over the roots: a node's loop over its
children, with `Error::Duplicate` also checked before each root's `import`. -/
def importRoots (hash : H) (number : N) (data : V) (isDescendentOf : H → H → Except E Bool) :
    List (Node H N V) → Except (Error E) (Imported (List (Node H N V)))
  | [] => .ok .declined
  | root :: roots =>
    if root.hash = hash then .error .duplicate
    else
      match root.«import» hash number data isDescendentOf with
      | .error e => .error e
      | .ok (.inserted root) => .ok (.inserted (root :: roots))
      | .ok .declined =>
        match importRoots hash number data isDescendentOf roots with
        | .error e => .error e
        | .ok (.inserted roots) => .ok (.inserted (root :: roots))
        | .ok .declined => .ok .declined

/-- The check for `Error::Duplicate` before each root's `import` is the one
`Node::import` makes first: the loop over the roots is a node's loop over its
children. -/
theorem importRoots_eq_importChildren (hash : H) (number : N) (data : V)
    (isDescendentOf : H → H → Except E Bool) :
    ∀ roots : List (Node H N V),
      importRoots hash number data isDescendentOf roots = Node.importChildren hash number data isDescendentOf roots
  | [] => by rw [importRoots, Node.importChildren]
  | root :: roots => by
    rw [importRoots, Node.importChildren, importRoots_eq_importChildren hash number data isDescendentOf roots]
    split_ifs with hdup
    · obtain ⟨h, n, d, children⟩ := root
      simp only at hdup
      subst hdup
      simp [Node.«import»]
    · rfl

/-- `ForkTree::import`: whether the block became a root. -/
def «import» (hash : H) (number : N) (data : V) (isDescendentOf : H → H → Except E Bool) :
    TreeM H N V E Bool := do
  let tree ← get
  if tree.reverts number then throw .revert
  match importRoots hash number data isDescendentOf tree.roots with
  | .error e => throw e
  | .ok (.inserted roots) =>
    set { tree with roots }
    modify rebalance
    pure false
  | .ok .declined =>
    set { tree with roots := tree.roots ++ [({ hash, number, data, children := [] } : Node H N V)] }
    modify rebalance
    pure true

/-- The loop of `ForkTree::find_node_index_where` over the roots from `index`. -/
def findRootIndexWhere (hash : H) (number : N) (isDescendentOf : H → H → Except E Bool)
    (predicate : V → Bool) : Nat → List (Node H N V) → Except (Error E) (Option (List Nat))
  | _, [] => .ok none
  | index, root :: roots =>
    match root.findNodeIndexWhere hash number isDescendentOf predicate with
    | .error e => .error e
    | .ok (.found node) => .ok (some (node ++ [index]))
    | .ok _ => findRootIndexWhere hash number isDescendentOf predicate (index + 1) roots

/-- `ForkTree::find_node_index_where`. -/
def findNodeIndexWhere (tree : ForkTree H N V) (hash : H) (number : N)
    (isDescendentOf : H → H → Except E Bool) (predicate : V → Bool) : Except (Error E) (Option (List Nat)) :=
  findRootIndexWhere hash number isDescendentOf predicate 0 tree.roots

/-- The loop of `ForkTree::find_node_where` over the roots: the first root
whose search finds a node ends it; `none` where a walk panics. -/
def findRootWhere (hash : H) (number : N) (isDescendentOf : H → H → Except E Bool) (predicate : V → Bool) :
    List (Node H N V) → Option (Except (Error E) (Option (Node H N V)))
  | [] => some (.ok none)
  | root :: roots =>
    match root.findNodeWhere hash number isDescendentOf predicate with
    | none => none
    | some (.error e) => some (.error e)
    | some (.ok (.found node)) => some (.ok (some node))
    | some (.ok _) => findRootWhere hash number isDescendentOf predicate roots

/-- `ForkTree::find_node_where` (and `find_node_where_mut`). -/
def findNodeWhere (tree : ForkTree H N V) (hash : H) (number : N) (isDescendentOf : H → H → Except E Bool)
    (predicate : V → Bool) : Option (Except (Error E) (Option (Node H N V))) :=
  findRootWhere hash number isDescendentOf predicate tree.roots

/-- The walk of `prune` down a path, given in the order `pop` yields it: the
node at its end is removed from its parent's children (`children.remove`), and
returned with the roots left; `none` where the source's indexing panics. -/
def detach : List Nat → List (Node H N V) → Option (Node H N V × List (Node H N V))
  | [], _ => none
  | [i], nodes => if h : i < nodes.length then some (nodes[i], nodes.eraseIdx i) else none
  | i :: j :: path, nodes =>
    if h : i < nodes.length then
      (detach (j :: path) nodes[i].children).map fun (root, children) =>
        (root, nodes.set i { nodes[i] with children })
    else none

/-- The test of `prune` for a child of the new root to stay: `is_first &&
(child.number == *number && child.hash == *hash || child.number < *number &&
is_descendent_of(&child.hash, hash)?)`. -/
def childStays (hash : H) (number : N) (isDescendentOf : H → H → Except E Bool) (isFirst : Bool)
    (child : Node H N V) : Except (Error E) Bool :=
  if isFirst then
    if child.number = number ∧ child.hash = hash then pure true
    else if child.number < number then ask (isDescendentOf child.hash hash)
    else pure false
  else pure false

/-- The loop of `prune` over the new root's children: the first that is the
block or an ancestor of it stays, the others are pushed on `removed`. -/
def pruneChildren (hash : H) (number : N) (isDescendentOf : H → H → Except E Bool) :
    List (Node H N V) → Bool → List (Node H N V) → List (Node H N V) →
      Except (Error E) (List (Node H N V) × List (Node H N V))
  | [], _, kept, removed => .ok (kept, removed)
  | child :: children, isFirst, kept, removed => do
    if ← childStays hash number isDescendentOf isFirst child then
      pruneChildren hash number isDescendentOf children false (kept ++ [child]) removed
    else pruneChildren hash number isDescendentOf children isFirst kept (removed ++ [child])

/-- `ForkTree::prune`: re-root at the deepest node that is the block or its
ancestor and passes `predicate`, keeping only its child toward the block; the
stack of removed subtrees. -/
def prune (hash : H) (number : N) (isDescendentOf : H → H → Except E Bool) (predicate : V → Bool) :
    TreeM H N V E (List (Node H N V)) := do
  let tree ← get
  let newRootIndex ← EStateRun.ofExcept (tree.findNodeIndexWhere hash number isDescendentOf predicate)
  let removed ←
    match newRootIndex with
    | none => pure []
    | some rootIndex => do
      -- `mem::take(&mut self.roots)`: an error below leaves the tree without roots
      set ({ tree with roots := [] } : ForkTree H N V)
      match detach rootIndex.reverse tree.roots with
      | none => pure []
      | some (root, removed) =>
        let (children, removed) ←
          EStateRun.ofExcept (pruneChildren hash number isDescendentOf root.children true [] removed)
        set ({ tree with roots := [{ root with children }] } : ForkTree H N V)
        pure removed
  modify rebalance
  pure removed

/-- `finalize_root_at`, given the root at the position: the roots become its
children (what `swap_remove` left is overwritten). -/
def finalizeRootAt {ε : Type} (node : Node H N V) : EStateM ε (ForkTree H N V) V := do
  set ({ roots := node.children, bestFinalizedNumber := some node.number } : ForkTree H N V)
  pure node.data

/-- `finalize_root`. -/
def finalizeRoot {ε : Type} (hash : H) : EStateM ε (ForkTree H N V) (Option V) := do
  match (← get).roots.find? (·.hash = hash) with
  | some node => some <$> finalizeRootAt node
  | none => pure none

/-- The check of `finalize` and of `finalize_with_descendent_if` that the block
is not a descendent of one of `nodes` numbered `below` it (`<` and `<=`
respectively). -/
def checkUnfinalized (below : N → Bool) (hash : H) (isDescendentOf : H → H → Except E Bool) :
    List (Node H N V) → Except (Error E) Unit
  | [] => .ok ()
  | node :: nodes => do
    let ancestor ← if below node.number then ask (isDescendentOf node.hash hash) else pure false
    if ancestor then throw .unfinalizedAncestor
    checkUnfinalized below hash isDescendentOf nodes

/-- The rebuild loop over the taken roots (`for root in roots`): a root is
pushed back when `retains` says so; `changed` records a drop. -/
def retainRoots (retains : Node H N V → Except (Error E) Bool) :
    List (Node H N V) → Bool → TreeM H N V E Bool
  | [], changed => pure changed
  | root :: roots, changed => do
    if ← EStateRun.ofExcept (retains root) then
      modify fun tree => { tree with roots := tree.roots ++ [root] }
      retainRoots retains roots changed
    else retainRoots retains roots true

/-- The test of `finalize` for a root to stay:
`root.number > number && is_descendent_of(hash, &root.hash)?`. -/
def finalizeRetains (hash : H) (number : N) (isDescendentOf : H → H → Except E Bool)
    (root : Node H N V) : Except (Error E) Bool :=
  if number < root.number then ask (isDescendentOf hash root.hash) else .ok false

/-- `ForkTree::finalize`. -/
def finalize (hash : H) (number : N) (isDescendentOf : H → H → Except E Bool) :
    TreeM H N V E (FinalizationResult V) := do
  if (← get).reverts number then throw .revert
  match ← finalizeRoot hash with
  | some root => pure (.changed (some root))
  | none =>
    let tree ← get
    EStateRun.ofExcept (checkUnfinalized (· < number) hash isDescendentOf tree.roots)
    set ({ tree with roots := [] } : ForkTree H N V)
    let changed ← retainRoots (finalizeRetains hash number isDescendentOf) tree.roots false
    modify fun tree => { tree with bestFinalizedNumber := some number }
    pure (if changed then .changed none else .unchanged)

variable {idx : Nat}

omit [DecidableEq H] [LinearOrder N] in
theorem length_preorderOf_drop_succ (h : idx < nodes.length) :
    (Node.preorderOf (nodes.drop idx)).length =
      (Node.preorderOf nodes[idx].children).length + (Node.preorderOf (nodes.drop (idx + 1))).length + 1 := by
  rw [List.drop_eq_getElem_cons h, Node.preorderOf_cons]
  cases nodes[idx]
  simp only [Node.preorder_mk, List.length_append, List.length_cons]
  omega

omit [DecidableEq H] [LinearOrder N] in
theorem length_preorderOf_drop_swapRemove (h : idx < nodes.length)
    (pushed : List (Node H N V)) :
    (Node.preorderOf ((nodes.swapRemove idx ++ pushed).drop idx)).length =
      (Node.preorderOf (nodes.drop (idx + 1))).length + (Node.preorderOf pushed).length := by
  have hlen : idx ≤ (nodes.swapRemove idx).length := by
    rw [List.length_swapRemove nodes idx h]
    omega
  rw [List.drop_append_of_le_length hlen, Node.preorderOf_append, List.length_append,
    (Node.Perm.preorderOf (List.drop_swapRemove_perm nodes h)).length_eq]

/-- `(is_descendant, is_ancestor)` of `finalize_with_ancestors` for a root
other than the one finalized; the oracle is asked only when the numbers allow. -/
def rootAncestry (hash : H) (number : N) (isDescendentOf : H → H → Except E Bool)
    (root : Node H N V) : Except (Error E) (Bool × Bool) := do
  let isDescendant ← if number < root.number then ask (isDescendentOf hash root.hash) else pure false
  let isAncestor ←
    if !isDescendant && decide (root.number < number) then ask (isDescendentOf root.hash hash) else pure false
  pure (isDescendant, isAncestor)

/-- The `while idx != self.roots.len()` loop of `finalize_with_ancestors`, from
the tree it has reached: a descendent root is kept, an ancestor is replaced by
its children, any other root is dropped. -/
def finalizeWithAncestorsLoop (hash : H) (number : N) (isDescendentOf : H → H → Except E Bool)
    (idx : Nat) (changed : Bool) (tree : ForkTree H N V) :
    EStateM.Result (Error E) (ForkTree H N V) (FinalizationResult V) :=
  if h : idx < tree.roots.length then
    let root := tree.roots[idx]
    if root.hash = hash then ((fun data => .changed (some data)) <$> finalizeRootAt root) tree
    else
      match rootAncestry hash number isDescendentOf root with
      | .error e => .error e tree
      | .ok (isDescendant, isAncestor) =>
        if isDescendant then finalizeWithAncestorsLoop hash number isDescendentOf (idx + 1) changed tree
        else if isAncestor then
          finalizeWithAncestorsLoop hash number isDescendentOf idx true
            { tree with roots := tree.roots.swapRemove idx ++ root.children }
        else
          finalizeWithAncestorsLoop hash number isDescendentOf idx true
            { tree with roots := tree.roots.swapRemove idx }
  else .ok (if changed then .changed none else .unchanged) { tree with bestFinalizedNumber := some number }
termination_by (Node.preorderOf (tree.roots.drop idx)).length
decreasing_by
  · rw [length_preorderOf_drop_succ h]
    omega
  · rw [length_preorderOf_drop_swapRemove h, length_preorderOf_drop_succ h]
    omega
  · have := length_preorderOf_drop_swapRemove h []
    rw [List.append_nil, Node.preorderOf_nil, List.length_nil] at this
    rw [this, length_preorderOf_drop_succ h]
    omega

/-- `ForkTree::finalize_with_ancestors`. -/
def finalizeWithAncestors (hash : H) (number : N) (isDescendentOf : H → H → Except E Bool) :
    TreeM H N V E (FinalizationResult V) := do
  if (← get).reverts number then throw .revert
  match ← finalizeRoot hash with
  | some root => pure (.changed (some root))
  | none => finalizeWithAncestorsLoop hash number isDescendentOf 0 false

/-- The test of `finalize_with_descendent_if` for the root to finalize:
`predicate(&root.data)`, then `root.hash == *hash || is_descendent_of(&root.hash, hash)?`. -/
def finalizesAt (hash : H) (isDescendentOf : H → H → Except E Bool) (predicate : V → Bool)
    (root : Node H N V) : Except (Error E) Bool :=
  if predicate root.data then
    if root.hash = hash then pure true else ask (isDescendentOf root.hash hash)
  else pure false

/-- The search of `finalize_with_descendent_if` for the root to finalize: the
first that `finalizesAt` accepts, after the check that none of its children at
or below `number` is an ancestor of the block. -/
def findFinalizedRoot (hash : H) (number : N) (isDescendentOf : H → H → Except E Bool)
    (predicate : V → Bool) : List (Node H N V) → Except (Error E) (Option (Node H N V))
  | [] => .ok none
  | root :: roots => do
    if ← finalizesAt hash isDescendentOf predicate root then
      checkUnfinalized (· ≤ number) hash isDescendentOf root.children
      pure (some root)
    else findFinalizedRoot hash number isDescendentOf predicate roots

/-- The test of `finalize_with_descendent_if` for a root to stay:
`root.number > number && is_descendent_of(hash, &root.hash)? ||
root.number == number && root.hash == *hash || is_descendent_of(&root.hash, hash)?`. -/
def descendentIfRetains (hash : H) (number : N) (isDescendentOf : H → H → Except E Bool)
    (root : Node H N V) : Except (Error E) Bool := do
  if ← finalizeRetains hash number isDescendentOf root then pure true
  else if root.number = number ∧ root.hash = hash then pure true
  else ask (isDescendentOf root.hash hash)

/-- `ForkTree::finalize_with_descendent_if`. -/
def finalizeWithDescendentIf (hash : H) (number : N) (isDescendentOf : H → H → Except E Bool)
    (predicate : V → Bool) : TreeM H N V E (FinalizationResult V) := do
  let tree ← get
  if tree.reverts number then throw .revert
  let position ← EStateRun.ofExcept (findFinalizedRoot hash number isDescendentOf predicate tree.roots)
  let nodeData ←
    match position with
    | some node => some <$> finalizeRootAt node
    | none => pure none
  let tree ← get
  set ({ tree with roots := [] } : ForkTree H N V)
  let changed ← retainRoots (descendentIfRetains hash number isDescendentOf) tree.roots false
  modify fun tree => { tree with bestFinalizedNumber := some number }
  pure <| match nodeData, changed with
    | some data, _ => .changed (some data)
    | none, true => .changed none
    | none, false => .unchanged

/-- `ForkTree::finalizes_any_with_descendent_if`: the loop of
`finalize_with_descendent_if`, with its test and its check of the children,
run over every node in pre-order (`node_iter`) instead of the roots; whether
the node it stops at is a root. -/
def finalizesAnyWithDescendentIf (tree : ForkTree H N V) (hash : H) (number : N)
    (isDescendentOf : H → H → Except E Bool) (predicate : V → Bool) : Except (Error E) (Option Bool) := do
  if tree.reverts number then throw .revert
  match ← findFinalizedRoot hash number isDescendentOf predicate tree.nodeIter with
  | some node => pure (some (tree.roots.any (·.hash = node.hash)))
  | none => pure none

end ForkTree

/-! ## Runs -/

/-- The calls of a run on a fork tree. -/
inductive Op (H N V : Type)
  | «import» (hash : H) (number : N) (data : V)
  | finalizeRoot (hash : H)
  | finalize (hash : H) (number : N)
  | finalizeWithAncestors (hash : H) (number : N)
  | finalizeWithDescendentIf (hash : H) (number : N) (predicate : V → Bool)
  | prune (hash : H) (number : N) (predicate : V → Bool)
  | rebalance

/-- The tree after one call, whether it returned `Ok` or `Err`. -/
def Op.apply (isDescendentOf : H → H → Except E Bool) (tree : ForkTree H N V) : Op H N V → ForkTree H N V
  | .«import» hash number data => EStateRun.stateOf (ForkTree.«import» hash number data isDescendentOf tree)
  | .finalizeRoot hash => EStateRun.stateOf ((ForkTree.finalizeRoot hash : TreeM H N V E _) tree)
  | .finalize hash number => EStateRun.stateOf (ForkTree.finalize hash number isDescendentOf tree)
  | .finalizeWithAncestors hash number =>
    EStateRun.stateOf (ForkTree.finalizeWithAncestors hash number isDescendentOf tree)
  | .finalizeWithDescendentIf hash number predicate =>
    EStateRun.stateOf (ForkTree.finalizeWithDescendentIf hash number isDescendentOf predicate tree)
  | .prune hash number predicate => EStateRun.stateOf (ForkTree.prune hash number isDescendentOf predicate tree)
  | .rebalance => tree.rebalance

end ForkTree
