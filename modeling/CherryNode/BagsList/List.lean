import Mathlib
import CherryNode.Lib.OrdMap
import CherryNode.Lib.BinarySearch

/-!
# pallet-bags-list: the list

The bags list (`list/mod.rs`) keeps ids in bags, one per vote-weight
threshold; a bag is a doubly linked list whose links live in `ListNodes`, one
entry per id, while `ListBags` holds each bag's head and tail and
`CounterForListNodes` counts the ids.  An id goes to the bag of the first
threshold at or above its weight (`notional_bag_for`); `iter` walks the bags
from the highest threshold down.

The model follows the code read by read and write by write: `excise` rewrites
the neighbours it reads, `insert_node_unchecked` writes the node and then the
old tail it reads back, and `remove_many` works on copies of the bags it
touches and writes them back at the end.  A walk along `next` runs on fuel, one
more than the stored nodes: enough to end or to show a node met twice, which is
all `sanity_check` asks.  `debug_assert!`s are left out, as in a release build.
-/

namespace BagsList

/-- `VoteWeight::MAX`. -/
def voteWeightMax : Nat := 2 ^ 64 - 1

/-- `u32::MAX`, where `CounterForListNodes` saturates. -/
def u32Max : Nat := 2 ^ 32 - 1

/-- `notional_bag_for(weight)`: the first threshold at or above the weight,
and `VoteWeight::MAX` past the last one. -/
def notionalBagFor (thresholds : List Nat) (weight : Nat) : Nat :=
  let idx := Slice.partitionPoint thresholds fun threshold => weight > threshold
  thresholds[idx]?.getD voteWeightMax

/-- The thresholds with `VoteWeight::MAX` at the end, as `iter` and
`sanity_check` both build them. -/
def withMax (thresholds : List Nat) : List Nat :=
  if thresholds.getLast? = some voteWeightMax then thresholds else thresholds ++ [voteWeightMax]

/-- `Error`. -/
inductive Error
  | duplicate
  deriving DecidableEq, Repr

/-- `Node`: an id and its links. -/
structure Node (A : Type) where
  id : A
  prev : Option A
  next : Option A
  bagUpper : Nat
  deriving DecidableEq, Repr

/-- `Bag`: its head and tail; `bag_upper` is not stored, and `Bag::get` sets it
to the key it was read under. -/
structure Bag (A : Type) where
  head : Option A
  tail : Option A
  bagUpper : Nat
  deriving DecidableEq, Repr

variable {A : Type} [LinearOrder A]

/-- The storage items of the pallet: `ListNodes`, `ListBags` and
`CounterForListNodes`. -/
structure Storage (A : Type) [LinearOrder A] where
  listNodes : OrdMap A (Node A)
  listBags : OrdMap Nat (Bag A)
  counterForListNodes : Nat

/-- Empty storage. -/
def Storage.empty : Storage A := ⟨.empty, .empty, 0⟩

/-! ## Nodes -/

namespace Node

/-- `Node::get`. -/
def get (id : A) (s : Storage A) : Option (Node A) := s.listNodes.get? id

/-- `put`. -/
def put (n : Node A) (s : Storage A) : Storage A := { s with listNodes := s.listNodes.insert n.id n }

/-- `prev()`: the previous node, read from storage. -/
def prevNode (n : Node A) (s : Storage A) : Option (Node A) := n.prev.bind (get · s)

/-- `next()`: the next node, read from storage. -/
def nextNode (n : Node A) (s : Storage A) : Option (Node A) := n.next.bind (get · s)

/-- `excise`: the neighbours are pointed at each other; the next one is read
after the previous one is written. -/
def excise (n : Node A) (s : Storage A) : Storage A :=
  let s := match n.prevNode s with
    | some prev => { prev with next := n.next }.put s
    | none => s
  match n.nextNode s with
  | some next => { next with prev := n.prev }.put s
  | none => s

/-- `remove_from_storage_unchecked`. -/
def removeFromStorageUnchecked (n : Node A) (s : Storage A) : Storage A :=
  { s with listNodes := s.listNodes.erase n.id }

/-- `is_misplaced`. -/
def isMisplaced (thresholds : List Nat) (n : Node A) (currentWeight : Nat) : Bool :=
  notionalBagFor thresholds currentWeight != n.bagUpper

/-- `is_terminal`: the head or the tail of its bag. -/
def isTerminal (n : Node A) : Bool := n.prev.isNone || n.next.isNone

end Node

/-! ## Bags -/

namespace Bag

/-- `Bag::get`. -/
def get (bagUpper : Nat) (s : Storage A) : Option (Bag A) :=
  (s.listBags.get? bagUpper).map fun bag => { bag with bagUpper }

/-- `get_or_make`. -/
def getOrMake (bagUpper : Nat) (s : Storage A) : Bag A := (get bagUpper s).getD ⟨none, none, bagUpper⟩

/-- `is_empty`. -/
def isEmpty (b : Bag A) : Bool := b.head.isNone && b.tail.isNone

/-- `put`: an empty bag is removed. -/
def put (b : Bag A) (s : Storage A) : Storage A :=
  if b.isEmpty then { s with listBags := s.listBags.erase b.bagUpper }
  else { s with listBags := s.listBags.insert b.bagUpper b }

/-- `head()`. -/
def headNode (b : Bag A) (s : Storage A) : Option (Node A) := b.head.bind (Node.get · s)

/-- `tail()`. -/
def tailNode (b : Bag A) (s : Storage A) : Option (Node A) := b.tail.bind (Node.get · s)

/-- `iter::successors(first, |prev| prev.next())`, cut after `fuel` nodes. -/
def walk (s : Storage A) : Nat → Option (Node A) → List (Node A)
  | 0, _ => []
  | _, none => []
  | fuel + 1, some n => n :: walk s fuel (n.nextNode s)

/-- `iter`: from the head along `next`. -/
def iter (b : Bag A) (s : Storage A) : List (Node A) := walk s (s.listNodes.size + 1) (b.headNode s)

/-- `insert_node_unchecked`: the node becomes the tail; its links and
`bag_upper` are set, it is written, and then the old tail, read back from
storage, is pointed at it. -/
def insertNodeUnchecked (b : Bag A) (node : Node A) (s : Storage A) : Bag A × Storage A :=
  -- inserting a node who has the id of tail: a system logic error, and nothing is done
  if b.tail = some node.id then (b, s)
  else
    let id := node.id
    let node := { node with bagUpper := b.bagUpper, prev := b.tail, next := none }
    let s := node.put s
    let s := match b.tailNode s with
      | some oldTail => { oldTail with next := some id }.put s
      | none => s
    let b := { b with tail := some id }
    let b := if b.head.isNone then { b with head := some id } else b
    (b, s)

/-- `insert_unchecked`. -/
def insertUnchecked (b : Bag A) (id : A) (s : Storage A) : Bag A × Storage A :=
  b.insertNodeUnchecked ⟨id, none, none, 0⟩ s

/-- `remove_node_unchecked`: the node is excised, and the head and tail that
named it are moved to its neighbours. -/
def removeNodeUnchecked (b : Bag A) (node : Node A) (s : Storage A) : Bag A × Storage A :=
  let s := node.excise s
  let b := if b.tail = some node.id then { b with tail := node.prev } else b
  let b := if b.head = some node.id then { b with head := node.next } else b
  (b, s)

/-- `contains`. -/
def contains (b : Bag A) (id : A) (s : Storage A) : Bool := (b.iter s).any (·.id == id)

/-- `Bag::sanity_check`. -/
def sanityCheck (b : Bag A) (s : Storage A) : Except String Unit :=
  if !(((b.headNode s).map fun head => (head.prevNode s).isNone).getD b.tail.isNone) then .error "head has a prev"
  else if !(((b.tailNode s).map fun tail => (tail.nextNode s).isNone).getD b.head.isNone) then
    .error "tail has a next"
  else if !decide ((b.iter s).map Node.id).Nodup then .error "duplicate found in bag"
  else .ok ()

end Bag

/-- `Node::sanity_check`. -/
def Node.sanityCheck (n : Node A) (s : Storage A) : Except String Unit :=
  match Bag.get n.bagUpper s with
  | none => .error "bag not found for node"
  | some expectedBag =>
    if !expectedBag.contains n.id s then .error "node does not exist in the expected bag"
    else if !(!n.isTerminal || expectedBag.head == some n.id || expectedBag.tail == some n.id) then
      .error "a terminal node is neither its bag head or tail"
    else .ok ()

/-! ## The list -/

/-- `List::contains`. -/
def contains (id : A) (s : Storage A) : Bool := s.listNodes.contains id

/-- `List::iter`: the bags from the highest threshold down, each from its
head. -/
def iter (thresholds : List Nat) (s : Storage A) : List (Node A) :=
  ((withMax thresholds).reverse.filterMap (Bag.get · s)).flatMap (·.iter s)

/-- `List::insert`: an id already in the list is refused; otherwise it goes
last in the bag of its weight. -/
def insert (thresholds : List Nat) (id : A) (weight : Nat) (s : Storage A) : Except Error (Storage A) :=
  if contains id s then .error .duplicate
  else
    let bagWeight := notionalBagFor thresholds weight
    let r := (Bag.getOrMake bagWeight s).insertUnchecked id s
    let s := r.1.put r.2
    .ok { s with counterForListNodes := min (s.counterForListNodes + 1) u32Max }

/-- `insert_many`: the number of ids inserted, carrying on past duplicates. -/
def insertMany (thresholds : List Nat) (ids : List A) (weightOf : A → Nat) (s : Storage A) : Nat × Storage A :=
  ids.foldl (fun acc v =>
    match insert thresholds v (weightOf v) acc.2 with
    | .ok s => (acc.1 + 1, s)
    | .error _ => acc) (0, s)

/-- One id of `remove_many`: a node inside its bag is excised, and a head or
tail is removed through the copy of its bag in `bags`, made on first use. -/
def removeManyStep : OrdMap Nat (Bag A) × Nat × Storage A → A → OrdMap Nat (Bag A) × Nat × Storage A
  | (bags, count, s), id =>
    match Node.get id s with
    | none => (bags, count, s)
    | some node =>
      if !node.isTerminal then (bags, count + 1, node.removeFromStorageUnchecked (node.excise s))
      else
        let bag := (bags.get? node.bagUpper).getD (Bag.getOrMake node.bagUpper s)
        let r := bag.removeNodeUnchecked node s
        (bags.insert node.bagUpper r.1, count + 1, node.removeFromStorageUnchecked r.2)

/-- `remove_many`: the number of ids removed. -/
def removeMany (ids : List A) (s : Storage A) : Nat × Storage A :=
  let r := ids.foldl removeManyStep (.empty, 0, s)
  let s := r.1.toList.foldl (fun s e => e.2.put s) r.2.2
  (r.2.1, { s with counterForListNodes := s.counterForListNodes - r.2.1 })

/-- `List::remove`. -/
def remove (id : A) (s : Storage A) : Storage A := (removeMany [id] s).2

/-- `update_position_for`: a misplaced node leaves its bag and goes last in
the bag of its new weight; the old and new bags are returned. -/
def updatePositionFor (thresholds : List Nat) (node : Node A) (newWeight : Nat) (s : Storage A) :
    Option (Nat × Nat) × Storage A :=
  if node.isMisplaced thresholds newWeight then
    let oldBagUpper := node.bagUpper
    let s :=
      if !node.isTerminal then node.excise s
      else match Bag.get node.bagUpper s with
        | some bag =>
          let r := bag.removeNodeUnchecked node s
          r.1.put r.2
        -- a node without a bag: logged as an inconsistent state
        | none => s
    let newBagUpper := notionalBagFor thresholds newWeight
    let r := (Bag.getOrMake newBagUpper s).insertNodeUnchecked node s
    (some (oldBagUpper, newBagUpper), r.1.put r.2)
  else (none, s)

/-- `Pallet::do_rebag`: the account's node, if it has one, is moved for its
new weight. -/
def doRebag (thresholds : List Nat) (account : A) (newWeight : Nat) (s : Storage A) : Option (Nat × Nat) × Storage A :=
  match Node.get account s with
  | some node => updatePositionFor thresholds node newWeight s
  | none => (none, s)

/-- `clear(None)`: every bag and node, and the counter, which is returned. -/
def clear (s : Storage A) : Nat × Storage A := (s.counterForListNodes, .empty)

/-- `regenerate`. -/
def regenerate (thresholds : List Nat) (all : List A) (weightOf : A → Nat) (s : Storage A) : Nat × Storage A :=
  insertMany thresholds all weightOf (clear s).2

/-- A `BTreeSet` of numbers, as the list of its members in increasing order. -/
def btreeSet (l : List Nat) : List Nat := (l.foldl (fun m t => m.insert t ()) (OrdMap.empty : OrdMap Nat Unit)).keys

/-- One affected old bag of `migrate`: skipped if seen, and otherwise its ids
join the affected accounts. -/
def migrateBag (s : Storage A) (acc : OrdMap A Unit × OrdMap Nat Unit) (affectedBag : Nat) :
    OrdMap A Unit × OrdMap Nat Unit :=
  if acc.2.contains affectedBag then acc
  else
    let affectedOldBags := acc.2.insert affectedBag ()
    match Bag.get affectedBag s with
    | some bag => ((bag.iter s).foldl (fun m node => m.insert node.id ()) acc.1, affectedOldBags)
    | none => (acc.1, affectedOldBags)

/-- `migrate(old_thresholds)`, with `T::BagThresholds` already set to
`newThresholds`: the ids of the old bags a new threshold splits and of the
removed thresholds' bags are taken out and inserted again, and then the
removed thresholds' bags are deleted. -/
def migrate (oldThresholds newThresholds : List Nat) (weightOf : A → Nat) (s : Storage A) : Nat × Storage A :=
  if newThresholds = oldThresholds then (0, s)
  else
    let oldSet := btreeSet oldThresholds
    let newSet := btreeSet newThresholds
    let newBags := newSet.filter (· ∉ oldSet)
    -- an inserted bag affects the old bag it falls in, found as `notional_bag_for` with the old thresholds
    let acc := (newBags.map (notionalBagFor oldThresholds)).foldl (migrateBag s) (.empty, .empty)
    let removedBags := oldSet.filter (· ∉ newSet)
    let affectedAccounts := (removedBags.foldl (migrateBag s) acc).1
    let numAffected := affectedAccounts.size
    let s := (removeMany affectedAccounts.keys s).2
    let s := (insertMany newThresholds affectedAccounts.keys weightOf s).2
    let s := removedBags.foldl (fun s removedBag => { s with listBags := s.listBags.erase removedBag }) s
    (numAffected, s)

/-- `List::sanity_check`. -/
def sanityCheck (thresholds : List Nat) (s : Storage A) : Except String Unit :=
  if !decide ((iter thresholds s).map Node.id).Nodup then .error "duplicate identified"
  else
    let iterCount := (iter thresholds s).length % 2 ^ 32
    let storedCount := s.counterForListNodes
    let nodesCount := s.listNodes.size % 2 ^ 32
    if iterCount ≠ storedCount then .error "iter_count != stored_count"
    else if storedCount ≠ nodesCount then .error "stored_count != nodes_count"
    else
      let activeBags := (withMax thresholds).filterMap (Bag.get · s)
      match activeBags.mapM (·.sanityCheck s) with
      | .error e => .error e
      | .ok _ =>
        let nodesInBagsCount := activeBags.foldl (fun acc cur => (acc + (cur.iter s).length) % 2 ^ 32) 0
        if nodesCount ≠ nodesInBagsCount then .error "stored_count != nodes_in_bags_count"
        else (s.listNodes.toList.mapM fun (e : A × Node A) => e.2.sanityCheck s).map fun _ => ()

/-! ## `migrate` on two small lists -/

/-- Under the thresholds `[10, MAX]`, id `1` of weight `20`, in the bag `MAX`. -/
def maxBagList : Storage Nat := (insert [10, voteWeightMax] 1 20 .empty).toOption.getD .empty

/-- Under the thresholds `[10, 20]`, id `2` of weight `18` and then id `1` of
weight `19`, both in the bag `20`. -/
def splitBagList : Storage Nat :=
  (insert [10, 20] 1 19 ((insert [10, 20] 2 18 .empty).toOption.getD .empty)).toOption.getD .empty

/-- The weights of `splitBagList`. -/
def splitBagWeight (id : Nat) : Nat := if id = 2 then 18 else 19

/-- Migrating `maxBagList` to `[10]` leaves `1` stored under
`bag_upper = MAX` in no bag, so `iter` misses it and `sanity_check` fails;
migrating `splitBagList` reinserts its ids in the order of the ids. -/
theorem migrate_orphans_and_reorders :
    sanityCheck [10, voteWeightMax] maxBagList = .ok () ∧ (iter [10, voteWeightMax] maxBagList).map Node.id = [1] ∧
      (migrate [10, voteWeightMax] [10] (fun _ => 20) maxBagList).1 = 1 ∧
      (Node.get 1 (migrate [10, voteWeightMax] [10] (fun _ => 20) maxBagList).2).map Node.bagUpper =
        some voteWeightMax ∧
      Bag.get voteWeightMax (migrate [10, voteWeightMax] [10] (fun _ => 20) maxBagList).2 = none ∧
      iter [10] (migrate [10, voteWeightMax] [10] (fun _ => 20) maxBagList).2 = [] ∧
      sanityCheck [10] (migrate [10, voteWeightMax] [10] (fun _ => 20) maxBagList).2 =
        .error "iter_count != stored_count" ∧
      (iter [10, 20] splitBagList).map Node.id = [2, 1] ∧
      notionalBagFor [10, 15, 20] 18 = 20 ∧ notionalBagFor [10, 15, 20] 19 = 20 ∧
      (iter [10, 15, 20] (migrate [10, 20] [10, 15, 20] splitBagWeight splitBagList).2).map Node.id = [1, 2] := by
  refine ⟨?_, ?_, ?_, ?_, ?_, ?_, ?_, ?_, ?_, ?_, ?_⟩ <;> decide +kernel

end BagsList
