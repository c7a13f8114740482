import CherryNode.Lib.Neighbours
import CherryNode.BagsList.List

/-!
# pallet-bags-list: bags as linked lists in storage

A bag with upper `u` and ids `l` is stored as the nodes `nodeAt l u a` of its
ids, each naming its neighbours, and `bagOf l u`, its two ends; `Linked s u l`
says the nodes are there.  What the source's surgeries do to it: `excise`
leaves `l.erase a` linked and touches nothing else (`get_excise`),
`remove_node_unchecked` also moves the ends (`removeNodeUnchecked_bag`), and
`insert_node_unchecked` appends (`get_insertNodeUnchecked`,
`insertNodeUnchecked_bag`).  Along `next` a linked bag walks its ids in order
(`iter_bagOf`).
-/

namespace BagsList

open Neighbours

variable {A : Type} [LinearOrder A]

/-! ## Reads after writes -/

namespace Node

@[simp] theorem get_put (n : Node A) (s : Storage A) (a : A) :
    get a (n.put s) = if n.id = a then some n else get a s := by
  simp [get, put]

@[simp] theorem get_removeFromStorageUnchecked (n : Node A) (s : Storage A) (a : A) :
    get a (n.removeFromStorageUnchecked s) = if n.id = a then none else get a s := by
  simp [get, removeFromStorageUnchecked]

/-- `excise` as its two writes: the node after `n` is read in the storage the
write to the node before it leaves. -/
theorem excise_eq_elim (n : Node A) (s : Storage A) {s₁ : Storage A}
    (h₁ : s₁ = (n.prevNode s).elim s fun prev => { prev with next := n.next }.put s) :
    n.excise s = (n.nextNode s₁).elim s₁ fun next => { next with prev := n.prev }.put s₁ := by
  subst h₁
  simp only [excise]
  cases n.prevNode s <;> simp only [Option.elim_none, Option.elim_some] <;> split <;> simp_all

end Node

namespace Bag

@[simp] theorem get_removeFromStorageUnchecked (n : Node A) (s : Storage A) (u : Nat) :
    get u (n.removeFromStorageUnchecked s) = get u s := rfl

@[simp] theorem nodeGet_put (b : Bag A) (s : Storage A) (a : A) : Node.get a (b.put s) = Node.get a s := by
  unfold put
  split <;> rfl

theorem get_put (b : Bag A) (s : Storage A) (u : Nat) :
    get u (b.put s) = if b.bagUpper = u then (if b.isEmpty then none else some { b with bagUpper := u })
      else get u s := by
  unfold put get
  by_cases h1 : b.isEmpty <;> by_cases h2 : b.bagUpper = u <;> simp [h1, h2]

end Bag

/-! ## Linked bags -/

/-- The node of `a` in the bag `u` holding `l`. -/
def nodeAt (l : List A) (u : Nat) (a : A) : Node A := ⟨a, prevOf l a, nextOf l a, u⟩

/-- The bag `u` holding `l`, as `Bag::get` returns it. -/
def bagOf (l : List A) (u : Nat) : Bag A := ⟨l.head?, l.getLast?, u⟩

/-- The ids of `l` have, in storage, the nodes of the bag `u` holding `l`. -/
def Linked (s : Storage A) (u : Nat) (l : List A) : Prop := ∀ a ∈ l, Node.get a s = some (nodeAt l u a)

@[simp] theorem nodeAt_id (l : List A) (u : Nat) (a : A) : (nodeAt l u a).id = a := rfl

@[simp] theorem nodeAt_bagUpper (l : List A) (u : Nat) (a : A) : (nodeAt l u a).bagUpper = u := rfl

omit [LinearOrder A] in
theorem bagOf_isEmpty (l : List A) (u : Nat) : (bagOf l u).isEmpty = l.isEmpty := by
  cases l with
  | nil => rfl
  | cons a l => simp [bagOf, Bag.isEmpty]

variable {l : List A}

theorem nodeAt_isTerminal (hl : l.Nodup) {a : A} (ha : a ∈ l) (u : Nat) :
    (nodeAt l u a).isTerminal = true ↔ l.head? = some a ∨ l.getLast? = some a := by
  rw [← prevOf_eq_none_iff hl ha, ← nextOf_eq_none_iff hl ha]
  simp [nodeAt, Node.isTerminal, Option.isNone_iff_eq_none]

theorem nodeAt_erase (hl : l.Nodup) {a b : A} (hba : b ≠ a) (u : Nat) :
    nodeAt (l.erase a) u b =
      if prevOf l a = some b then { nodeAt l u b with next := nextOf l a }
      else if nextOf l a = some b then { nodeAt l u b with prev := prevOf l a }
      else nodeAt l u b := by
  unfold nodeAt
  rw [nextOf_erase hl hba, prevOf_erase hl hba]
  by_cases hp : prevOf l a = some b
  · -- `b` comes just before `a`, so `a` does not come just before `b`
    have hn : nextOf l b = some a := nextOf_of_prevOf hl hp
    have hn' : prevOf l b ≠ some a := fun h => nextOf_ne_of_nextOf hl hn (nextOf_of_prevOf hl h)
    simp [hp, hn, hn']
  · by_cases hn : nextOf l a = some b
    · have hp' : prevOf l b = some a := prevOf_of_nextOf hl hn
      have hn' : nextOf l b ≠ some a := nextOf_ne_of_nextOf hl hn
      simp [hp, hn, hp', hn']
    · have hp' : prevOf l b ≠ some a := fun h => hn (nextOf_of_prevOf hl h)
      have hn' : nextOf l b ≠ some a := fun h => hp (prevOf_of_nextOf hl h)
      simp [hp, hn, hp', hn']

/-! ## `excise` -/

section Linked

variable {s : Storage A} {u : Nat} {l : List A}

theorem prevNode_nodeAt (hL : Linked s u l) (a : A) :
    (nodeAt l u a).prevNode s = (prevOf l a).map (nodeAt l u) := by
  show (prevOf l a).bind (Node.get · s) = _
  cases hp : prevOf l a with
  | none => rfl
  | some p => exact hL p (mem_of_prevOf hp)

theorem nextNode_nodeAt (hL : Linked s u l) (a : A) :
    (nodeAt l u a).nextNode s = (nextOf l a).map (nodeAt l u) := by
  show (nextOf l a).bind (Node.get · s) = _
  cases hn : nextOf l a with
  | none => rfl
  | some n => exact hL n (mem_of_nextOf hn)

theorem get_excise_eq (hl : l.Nodup) (hL : Linked s u l) (a : A) (b : A) :
    Node.get b ((nodeAt l u a).excise s) =
      if nextOf l a = some b then some { nodeAt l u b with prev := prevOf l a }
      else if prevOf l a = some b then some { nodeAt l u b with next := nextOf l a }
      else Node.get b s := by
  -- the first write, to the node before `a`
  set s₁ : Storage A := ((nodeAt l u a).prevNode s).elim s
    fun prev => { prev with next := (nodeAt l u a).next }.put s with hs₁
  have hget₁ : ∀ c, Node.get c s₁ =
      if prevOf l a = some c then some { nodeAt l u c with next := nextOf l a } else Node.get c s := by
    intro c
    rw [hs₁, prevNode_nodeAt hL]
    cases hp : prevOf l a with
    | none => simp
    | some p => by_cases hpc : p = c <;> simp [nodeAt, hpc]
  -- the node after `a` is read back unchanged: it is not the node before it
  have hnext₁ : (nodeAt l u a).nextNode s₁ = (nextOf l a).map (nodeAt l u) := by
    show (nextOf l a).bind (Node.get · s₁) = _
    cases hn : nextOf l a with
    | none => rfl
    | some n =>
      rw [Option.bind_some, hget₁, if_neg]
      · exact hL n (mem_of_nextOf hn)
      · intro hp
        exact nextOf_ne_of_nextOf hl (nextOf_of_prevOf hl hp) (hn ▸ rfl)
  rw [Node.excise_eq_elim _ _ hs₁, hnext₁]
  cases hn : nextOf l a with
  | none => simp [hget₁, hn]
  | some n =>
    simp only [Option.map_some, Option.elim_some, Node.get_put, hget₁, nodeAt_id]
    by_cases hnb : n = b
    · subst hnb
      simp [nodeAt]
    · simp [hnb, hn]

/-- **`excise` on a linked bag**: the other ids of the bag get the nodes of the
bag without `a`, and nothing else is written. -/
theorem get_excise (hl : l.Nodup) (hL : Linked s u l) (a : A) (b : A) :
    Node.get b ((nodeAt l u a).excise s) =
      if b ∈ l ∧ b ≠ a then some (nodeAt (l.erase a) u b) else Node.get b s := by
  rw [get_excise_eq hl hL]
  by_cases hb : b ∈ l ∧ b ≠ a
  · rw [if_pos hb, nodeAt_erase hl hb.2]
    by_cases hn : nextOf l a = some b
    · have hp : prevOf l a ≠ some b := fun hp => nextOf_ne_of_nextOf hl (nextOf_of_prevOf hl hp) hn
      simp [hn, hp]
    · by_cases hp : prevOf l a = some b
      · simp [hn, hp]
      · simp [hn, hp, hL b hb.1]
  · rw [if_neg hb]
    -- `b` is `a` or outside the bag: it is neither neighbour of `a`
    have hp : prevOf l a ≠ some b := fun h => hb ⟨mem_of_prevOf h, fun hba => prevOf_ne_self hl a (hba ▸ h)⟩
    have hn : nextOf l a ≠ some b := fun h => hb ⟨mem_of_nextOf h, fun hba => nextOf_ne_self hl a (hba ▸ h)⟩
    simp [hp, hn]

theorem bagGet_excise (a : Node A) (v : Nat) : Bag.get v (a.excise s) = Bag.get v s := by
  unfold Node.excise
  dsimp only
  split <;> split <;> rfl


/-! ## `remove_node_unchecked` and `insert_node_unchecked` -/

theorem removeNodeUnchecked_bag (hl : l.Nodup) (a : A) (s : Storage A) :
    ((bagOf l u).removeNodeUnchecked (nodeAt l u a) s).1 = bagOf (l.erase a) u := by
  simp only [Bag.removeNodeUnchecked, bagOf, nodeAt_id, head?_erase, getLast?_erase hl]
  by_cases hh : l.head? = some a <;> by_cases ht : l.getLast? = some a <;> simp [hh, ht, nodeAt]

theorem removeNodeUnchecked_snd (b : Bag A) (n : Node A) (s : Storage A) :
    (b.removeNodeUnchecked n s).2 = n.excise s := rfl

theorem nodeAt_append_singleton (hl : l.Nodup) (x b : A) :
    nodeAt (l ++ [x]) u b =
      ⟨b, if x = b then l.getLast? else prevOf l b, if l.getLast? = some b then some x else nextOf l b, u⟩ := by
  rw [nodeAt, nextOf_append_singleton hl, prevOf_append_singleton]

variable {node : Node A}

theorem insertNodeUnchecked_bag (hx : node.id ∉ l) (s : Storage A) :
    ((bagOf l u).insertNodeUnchecked node s).1 = bagOf (l ++ [node.id]) u := by
  have ht : l.getLast? ≠ some node.id := fun h => hx (List.mem_of_getLast? h)
  unfold Bag.insertNodeUnchecked
  rw [if_neg (show (bagOf l u).tail ≠ some node.id from ht)]
  cases l with
  | nil => rfl
  | cons y l =>
    show (⟨some y, some node.id, u⟩ : Bag A) = ⟨some y, (y :: l ++ [node.id]).getLast?, u⟩
    rw [List.getLast?_append]
    rfl

/-- **`insert_node_unchecked` on a linked bag**: the node goes last, the old
last node points at it, and nothing else is written. -/
theorem get_insertNodeUnchecked (hl : l.Nodup) (hL : Linked s u l) (hx : node.id ∉ l) (b : A) :
    Node.get b ((bagOf l u).insertNodeUnchecked node s).2 =
      if b ∈ l ++ [node.id] then some (nodeAt (l ++ [node.id]) u b) else Node.get b s := by
  have ht : l.getLast? ≠ some node.id := fun h => hx (List.mem_of_getLast? h)
  have hnext : nextOf l node.id = none := nextOf_eq_none_of_not_mem hx
  unfold Bag.insertNodeUnchecked
  rw [if_neg (show (bagOf l u).tail ≠ some node.id from ht)]
  dsimp only [Bag.tailNode, bagOf]
  rw [nodeAt_append_singleton hl]
  cases hlast : l.getLast? with
  | none =>
    -- an empty bag: only the node itself is written
    have hl0 : l = [] := List.getLast?_eq_none_iff.mp hlast
    subst hl0
    by_cases hb : node.id = b
    · subst hb
      simp
    · simp [hb, Ne.symm hb]
  | some t =>
    have ht' : t ∈ l := List.mem_of_getLast? hlast
    have htx : node.id ≠ t := fun h => hx (h ▸ ht')
    simp only [Option.bind_some, Node.get_put, if_neg htx, hL t ht']
    by_cases hbt : t = b
    · subst hbt
      simp [nodeAt, ht', htx]
    · by_cases hbx : node.id = b
      · subst hbx
        simp [hbt, hnext]
      · by_cases hb : b ∈ l
        · simp [hbt, hbx, hb, hL b hb, nodeAt]
        · simp [hbt, hbx, hb, Ne.symm hbx]

theorem bagGet_insertNodeUnchecked (b : Bag A) (node : Node A) (s : Storage A) (v : Nat) :
    Bag.get v (b.insertNodeUnchecked node s).2 = Bag.get v s := by
  unfold Bag.insertNodeUnchecked
  split
  · rfl
  · dsimp only
    split <;> rfl

/-! ## Walking a bag -/

theorem walk_none (fuel : Nat) : Bag.walk s fuel none = [] := by
  cases fuel <;> rfl

theorem walk_nodeAt (hl : l.Nodup) (hL : Linked s u l) :
    ∀ (rest pre : List A) (a : A) (fuel : Nat), l = pre ++ a :: rest → rest.length < fuel →
      Bag.walk s fuel (some (nodeAt l u a)) = (a :: rest).map (nodeAt l u)
  | rest, pre, a, fuel + 1, hla, hlen => by
    have ha : a ∉ pre := by
      rw [hla] at hl
      exact fun h => (List.nodup_append.mp hl).2.2 a h a List.mem_cons_self rfl
    have hn : nextOf l a = rest.head? := by
      rw [hla]
      exact nextOf_append_cons ha
    rw [Bag.walk, nextNode_nodeAt hL, hn]
    cases rest with
    | nil => simp [walk_none]
    | cons r rest =>
      rw [List.head?_cons, Option.map_some,
        walk_nodeAt hl hL rest (pre ++ [a]) r fuel (by simp [hla])
          (by simp at hlen; omega)]
      rfl

/-- **The walk of a linked bag**: with fuel past its length, `iter` lists the
nodes of the bag in order. -/
theorem iter_bagOf (hl : l.Nodup) (hL : Linked s u l) (hlen : l.length ≤ s.listNodes.size) :
    (bagOf l u).iter s = l.map (nodeAt l u) := by
  unfold Bag.iter Bag.headNode bagOf
  cases l with
  | nil => exact walk_none _
  | cons a rest =>
    simp only [List.head?_cons, Option.bind_some, hL a List.mem_cons_self]
    exact walk_nodeAt hl hL rest [] a _ rfl (by simp at hlen; omega)

end Linked

end BagsList
