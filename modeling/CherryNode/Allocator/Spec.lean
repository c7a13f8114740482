import Mathlib
import CherryNode.Allocator.FreeingBump
import CherryNode.Lib.Tiling

/-!
# sc-allocator: what the freeing-bump allocator is for

The allocator's own view of the heap, without the memory: the blocks cut off at
the bump pointer so far, in address order, each of an order and allocated or
free, and per order the free blocks, last freed first.  `AbsHeap.alloc` takes
the last freed block of the order, or cuts one at the bump pointer if the memory
holds it; `AbsHeap.dealloc` frees a block onto its order's list.

`AbsHeap.WF` (the blocks tile the heap from its base to the bump pointer, and
the free lists hold exactly the free blocks of their order, once each) is kept
by both (`WF.alloc`, `WF.dealloc`), the allocated size moves by one block
(`liveSize_alloc`, `liveSize_dealloc`), and allocated blocks are disjoint and
8-aligned (`WF.disjoint`, `WF.aligned_addr`).
-/

namespace ScAllocator

open Tiling

/-- A block with its header: `HEADER_SIZE` and the order's size. -/
def span (o : Order) : Nat := o.size.toNat + 8

/-- The heap base `FreeingBumpHeapAllocator::new` rounds up to `ALIGNMENT`, as a number. -/
def alignedBase (heapBase : Nat) : Nat := (heapBase + 7) / 8 * 8

/-- The blocks of the heap and the free list of each order, as addresses of headers. -/
structure AbsHeap where
  base : Nat
  bumper : Nat
  blocks : List (Block Order)
  free : Order → List Nat

namespace AbsHeap

/-- The heap before the first allocation. -/
def init (base : Nat) : AbsHeap := ⟨base, base, [], fun _ => []⟩

/-- An allocation of order `o` in a memory of `len` bytes: the header of the
block freed last of that order, or of one cut at the bump pointer; `none`
when there is neither. -/
def alloc (A : AbsHeap) (len : Nat) (o : Order) : Option (Nat × AbsHeap) :=
  match A.free o with
  | a :: rest => some (a, { A with blocks := setLive A.blocks a true, free := Function.update A.free o rest })
  | [] =>
    if A.bumper + span o ≤ len then
      some (A.bumper, { A with bumper := A.bumper + span o, blocks := A.blocks ++ [⟨A.bumper, o, true⟩] })
    else none

/-- Freeing the block at `a`, of order `o`. -/
def dealloc (A : AbsHeap) (a : Nat) (o : Order) : AbsHeap :=
  { A with blocks := setLive A.blocks a false, free := Function.update A.free o (a :: A.free o) }

/-- `allocate(size)`: the pointer past the header of the block allocated, or the error. -/
def allocate (A : AbsHeap) (len : Nat) (size : UInt32) : Except Error (Nat × AbsHeap) :=
  match Order.fromSize size with
  | .error e => .error e
  | .ok o =>
    match A.alloc len o with
    | some (a, A') => .ok (a + 8, A')
    | none => .error .allocatorOutOfSpace

/-- The block whose header is at `a`. -/
def blockAt (A : AbsHeap) (a : Nat) : Option (Block Order) := A.blocks.find? (·.addr = a)

/-- `deallocate` of the block `b`: it is freed if it was allocated. -/
def deallocate (A : AbsHeap) (b : Block Order) : Except Error AbsHeap :=
  if b.live then .ok (A.dealloc b.addr b.cls) else .error (error "the allocation points to an empty header")

/-- What the allocated blocks take with their headers: `total_size`. -/
def liveSize (A : AbsHeap) : Nat := (A.blocks.map fun b => if b.live then span b.cls else 0).sum

/-- The blocks tile the heap from an aligned base to the bump pointer, and the
free list of each order holds, once each, exactly the free blocks of the order. -/
structure WF (A : AbsHeap) : Prop where
  aligned : 8 ∣ A.base
  tiles : Tiles span A.base A.blocks A.bumper
  free_iff : ∀ o a, a ∈ A.free o ↔ ∃ b ∈ A.blocks, b.addr = a ∧ b.cls = o ∧ b.live = false
  nodup : ∀ o, (A.free o).Nodup

end AbsHeap

theorem span_pos (o : Order) : 0 < span o := by
  simp only [span]
  omega

theorem sixteen_le_span (o : Order) : 16 ≤ span o := by
  have := (Order.size_bounds o).1
  simp only [span]
  omega

theorem span_toNat (o : Order) : (o.size + headerSize).toNat = span o := by
  have := (Order.size_bounds o).2.1
  rw [UInt32.toNat_add, show headerSize.toNat = 8 from rfl, Nat.mod_eq_of_lt (by omega)]
  rfl

theorem eight_dvd_span (o : Order) : 8 ∣ span o := by
  have := (Order.size_bounds o).2.2
  simp only [span]
  omega

theorem alignedBase_dvd (heapBase : Nat) : 8 ∣ alignedBase heapBase := Nat.dvd_mul_left 8 _

namespace AbsHeap

variable {A A' : AbsHeap} {len a : Nat} {o : Order} {b x y : Block Order}

theorem WF.init {base : Nat} (h : 8 ∣ base) : (init base).WF where
  aligned := h
  tiles := rfl
  free_iff := by simp [AbsHeap.init]
  nodup := fun _ => List.nodup_nil

theorem WF.eq_of_addr_eq (hA : A.WF) (hx : x ∈ A.blocks) (hy : y ∈ A.blocks) (h : x.addr = y.addr) : x = y :=
  hA.tiles.eq_of_addr_eq span_pos hx hy h

/-- **The blocks do not overlap.** -/
theorem WF.disjoint (hA : A.WF) (hx : x ∈ A.blocks) (hy : y ∈ A.blocks) (hxy : x ≠ y) :
    x.addr + span x.cls ≤ y.addr ∨ y.addr + span y.cls ≤ x.addr :=
  hA.tiles.disjoint hx hy hxy

/-- **Every header is aligned to 8**, and so is every pointer returned. -/
theorem WF.aligned_addr (hA : A.WF) (hx : x ∈ A.blocks) : 8 ∣ x.addr :=
  (hA.tiles.dvd hA.aligned eight_dvd_span).1 x hx

theorem WF.mem_bounds (hA : A.WF) (hx : x ∈ A.blocks) : A.base ≤ x.addr ∧ x.addr + span x.cls ≤ A.bumper :=
  hA.tiles.mem_bounds hx

theorem WF.blockAt_addr (hA : A.WF) (hb : b ∈ A.blocks) : A.blockAt b.addr = some b := by
  have hsome : (A.blocks.find? (·.addr = b.addr)).isSome := List.find?_isSome.mpr ⟨b, hb, by simp⟩
  obtain ⟨b', hb'⟩ := Option.isSome_iff_exists.mp hsome
  have haddr : b'.addr = b.addr := by simpa using List.find?_some hb'
  rw [blockAt, hb', hA.eq_of_addr_eq (List.mem_of_find?_eq_some hb') hb haddr]

theorem WF.block_of_mem_free (hA : A.WF) (ha : a ∈ A.free o) :
    ∃ b ∈ A.blocks, b.addr = a ∧ b.cls = o ∧ b.live = false :=
  (hA.free_iff o a).mp ha

theorem WF.not_mem_free (hA : A.WF) (hb : b ∈ A.blocks) (hlive : b.live = true) (o' : Order) :
    b.addr ∉ A.free o' := by
  intro hmem
  obtain ⟨b', hb', haddr, _, hfree⟩ := hA.block_of_mem_free hmem
  rw [hA.eq_of_addr_eq hb' hb haddr] at hfree
  rw [hfree] at hlive
  cases hlive

theorem WF.eq_of_mem_free (hA : A.WF) {o' : Order} (ha : a ∈ A.free o) (ha' : a ∈ A.free o') : o = o' := by
  obtain ⟨b, hb, haddr, hcls, _⟩ := hA.block_of_mem_free ha
  obtain ⟨b', hb', haddr', hcls', _⟩ := hA.block_of_mem_free ha'
  rw [← hcls, ← hcls', hA.eq_of_addr_eq hb hb' (haddr.trans haddr'.symm)]

/-! ## Allocation -/

theorem WF.free_iff_pop (hA : A.WF) {rest : List Nat} (hfree : A.free o = a :: rest) (o' : Order) (a' : Nat) :
    a' ∈ Function.update A.free o rest o' ↔
      ∃ b ∈ setLive A.blocks a true, b.addr = a' ∧ b.cls = o' ∧ b.live = false := by
  have ha : a ∈ A.free o := hfree ▸ List.mem_cons_self
  constructor
  · intro ha'
    -- the block at `a'` is another one than the block popped, and is as it was
    have hmem : a' ∈ A.free o' ∧ a' ≠ a := by
      by_cases ho : o' = o
      · subst ho
        rw [Function.update_self] at ha'
        have hnd := hA.nodup o'
        rw [hfree] at hnd
        exact ⟨hfree ▸ List.mem_cons_of_mem a ha', fun h => (List.nodup_cons.mp hnd).1 (h ▸ ha')⟩
      · rw [Function.update_of_ne ho] at ha'
        exact ⟨ha', fun h => ho (hA.eq_of_mem_free ha (h ▸ ha')).symm⟩
    obtain ⟨b, hb, haddr, hcls, hlive⟩ := hA.block_of_mem_free hmem.1
    exact ⟨b, (mem_setLive_of_ne (haddr ▸ hmem.2)).mpr hb, haddr, hcls, hlive⟩
  · rintro ⟨b, hb, haddr, hcls, hlive⟩
    -- the block popped is allocated now, so `b` is another one
    have hne : b.addr ≠ a := fun h => by
      rw [live_of_mem_setLive hb h] at hlive
      cases hlive
    have hold : a' ∈ A.free o' := (hA.free_iff o' a').mpr ⟨b, (mem_setLive_of_ne hne).mp hb, haddr, hcls, hlive⟩
    by_cases ho : o' = o
    · subst ho
      rw [Function.update_self]
      rw [hfree] at hold
      exact (List.mem_cons.mp hold).resolve_left (haddr ▸ hne)
    · rwa [Function.update_of_ne ho]

theorem WF.free_iff_carve (hA : A.WF) (o o' : Order) (a' : Nat) :
    a' ∈ A.free o' ↔ ∃ b ∈ A.blocks ++ [⟨A.bumper, o, true⟩], b.addr = a' ∧ b.cls = o' ∧ b.live = false := by
  rw [hA.free_iff]
  simp only [List.mem_append, List.mem_singleton]
  constructor
  · rintro ⟨b, hb, h⟩
    exact ⟨b, .inl hb, h⟩
  · rintro ⟨b, hb | rfl, h⟩
    · exact ⟨b, hb, h⟩
    · cases h.2.2

/-- **Allocation keeps the heap well formed.** -/
theorem WF.alloc (hA : A.WF) (h : A.alloc len o = some (a, A')) : A'.WF := by
  simp only [AbsHeap.alloc] at h
  cases hfree : A.free o with
  | cons a₀ rest =>
    simp only [hfree, Option.some.injEq, Prod.mk.injEq] at h
    obtain ⟨rfl, rfl⟩ := h
    refine ⟨hA.aligned, hA.tiles.setLive a₀ true, hA.free_iff_pop hfree, fun o' => ?_⟩
    show (Function.update A.free o rest o').Nodup
    by_cases ho : o' = o
    · subst ho
      have hnd := hA.nodup o'
      rw [hfree] at hnd
      rw [Function.update_self]
      exact (List.nodup_cons.mp hnd).2
    · rw [Function.update_of_ne ho]
      exact hA.nodup o'
  | nil =>
    simp only [hfree] at h
    split at h
    · cases h
      exact ⟨hA.aligned, hA.tiles.append o true, hA.free_iff_carve o, hA.nodup⟩
    · cases h

theorem WF.alloc_block (hA : A.WF) (hin : A.blocks = [] ∨ A.bumper ≤ len)
    (h : A.alloc len o = some (a, A')) :
    ⟨a, o, true⟩ ∈ A'.blocks ∧ a + span o ≤ len ∧ A'.bumper ≤ len := by
  simp only [AbsHeap.alloc] at h
  cases hfree : A.free o with
  | cons a₀ rest =>
    simp only [hfree, Option.some.injEq, Prod.mk.injEq] at h
    obtain ⟨rfl, rfl⟩ := h
    obtain ⟨b, hb, haddr, hcls, _⟩ := hA.block_of_mem_free (hfree ▸ List.mem_cons_self : a₀ ∈ A.free o)
    have hbump : A.bumper ≤ len := hin.resolve_left (List.ne_nil_of_mem hb)
    have hbound := hA.mem_bounds hb
    refine ⟨?_, by rw [← haddr, ← hcls]; omega, hbump⟩
    have hmem := mem_setLive_of_mem (a := b.addr) (v := true) hb
    rw [if_pos rfl] at hmem
    rw [← haddr, ← hcls]
    exact hmem
  | nil =>
    simp only [hfree] at h
    split at h
    · cases h
      exact ⟨List.mem_append_right _ (List.mem_singleton_self _), by assumption, by assumption⟩
    · cases h

/-! ## Freeing -/

theorem WF.free_iff_dealloc (hA : A.WF) (hb : b ∈ A.blocks) (hlive : b.live = true) (o' : Order) (a' : Nat) :
    a' ∈ Function.update A.free b.cls (b.addr :: A.free b.cls) o' ↔
      ∃ x ∈ setLive A.blocks b.addr false, x.addr = a' ∧ x.cls = o' ∧ x.live = false := by
  constructor
  · intro ha'
    by_cases hfreed : a' = b.addr
    · -- the block freed itself
      subst hfreed
      have ho : o' = b.cls := by
        by_contra ho
        rw [Function.update_of_ne ho] at ha'
        exact hA.not_mem_free hb hlive o' ha'
      have hmem := mem_setLive_of_mem (a := b.addr) (v := false) hb
      rw [if_pos rfl] at hmem
      exact ⟨_, hmem, rfl, ho.symm, rfl⟩
    · -- another free block, as it was
      have hold : a' ∈ A.free o' := by
        by_cases ho : o' = b.cls
        · subst ho
          rw [Function.update_self] at ha'
          exact (List.mem_cons.mp ha').resolve_left hfreed
        · rwa [Function.update_of_ne ho] at ha'
      obtain ⟨x, hx, haddr, hcls, hxl⟩ := hA.block_of_mem_free hold
      exact ⟨x, (mem_setLive_of_ne (haddr ▸ hfreed)).mpr hx, haddr, hcls, hxl⟩
  · rintro ⟨x, hx, haddr, hcls, hxl⟩
    obtain ⟨y, hy, hyaddr, hycls⟩ := exists_of_mem_setLive hx
    by_cases hfreed : a' = b.addr
    · -- `x` comes from the block at `b.addr`, which is `b`
      have hyb : y = b := hA.eq_of_addr_eq hy hb (hyaddr.trans (haddr.trans hfreed))
      subst hyb
      rw [← hcls, ← hycls, Function.update_self, hfreed]
      exact List.mem_cons_self
    · have hold : a' ∈ A.free o' := (hA.free_iff o' a').mpr ⟨x, (mem_setLive_of_ne (haddr ▸ hfreed)).mp hx, haddr, hcls, hxl⟩
      by_cases ho : o' = b.cls
      · subst ho
        rw [Function.update_self]
        exact List.mem_cons_of_mem _ hold
      · rwa [Function.update_of_ne ho]

/-- **Freeing an allocated block keeps the heap well formed.** -/
theorem WF.dealloc (hA : A.WF) (hb : b ∈ A.blocks) (hlive : b.live = true) : (A.dealloc b.addr b.cls).WF where
  aligned := hA.aligned
  tiles := hA.tiles.setLive b.addr false
  free_iff := hA.free_iff_dealloc hb hlive
  nodup o' := by
    show (Function.update A.free b.cls (b.addr :: A.free b.cls) o').Nodup
    by_cases ho : o' = b.cls
    · subst ho
      rw [Function.update_self]
      exact List.nodup_cons.mpr ⟨hA.not_mem_free hb hlive _, hA.nodup _⟩
    · rw [Function.update_of_ne ho]
      exact hA.nodup o'

/-! ## The size of the allocated blocks -/

theorem liveSum_setLive {bs : List (Block Order)} (hnd : (bs.map (·.addr)).Nodup) (hx : x ∈ bs) (v : Bool) :
    ((setLive bs x.addr v).map fun b => if b.live then span b.cls else 0).sum + (if x.live then span x.cls else 0) =
      (bs.map fun b => if b.live then span b.cls else 0).sum + (if v then span x.cls else 0) := by
  induction bs with
  | nil => cases hx
  | cons y bs ih =>
    simp only [List.map_cons, List.nodup_cons, List.mem_map] at hnd
    simp only [setLive, List.map_cons, List.sum_cons] at ih ⊢
    by_cases hy : y.addr = x.addr
    · -- `y` is `x`, and no later block is at its address
      have hyx : y = x := by
        rcases List.mem_cons.mp hx with rfl | hx'
        · rfl
        · exact absurd ⟨x, hx', hy.symm⟩ hnd.1
      subst hyx
      have hrest : (bs.map fun x => if x.addr = y.addr then { x with live := v } else x) = bs := by
        conv_rhs => rw [← List.map_id bs]
        apply List.map_congr_left
        intro z hz
        exact if_neg fun h => hnd.1 ⟨z, hz, h⟩
      rw [if_pos rfl, hrest]
      cases y.live <;> cases v <;> simp <;> omega
    · have hx' : x ∈ bs := (List.mem_cons.mp hx).resolve_left fun h => hy (h ▸ rfl)
      rw [if_neg hy]
      have := ih hnd.2 hx'
      omega

theorem WF.nodup_addr (hA : A.WF) : (A.blocks.map (·.addr)).Nodup := hA.tiles.nodup_addr span_pos

/-- An allocation adds the block's span to `total_size`. -/
theorem WF.liveSize_alloc (hA : A.WF) (h : A.alloc len o = some (a, A')) :
    A'.liveSize = A.liveSize + span o := by
  simp only [AbsHeap.alloc] at h
  cases hfree : A.free o with
  | cons a₀ rest =>
    simp only [hfree, Option.some.injEq, Prod.mk.injEq] at h
    obtain ⟨rfl, rfl⟩ := h
    -- the block popped was free and is of order `o`
    obtain ⟨b, hb, rfl, rfl, hlive⟩ := hA.block_of_mem_free (hfree ▸ List.mem_cons_self : a₀ ∈ A.free o)
    have := liveSum_setLive hA.nodup_addr hb true
    simp only [hlive, Bool.false_eq_true, if_false, if_true, Nat.add_zero] at this
    exact this
  | nil =>
    simp only [hfree] at h
    split at h
    · cases h
      simp [liveSize]
    · cases h

/-- Freeing a block takes its span off `total_size`. -/
theorem WF.liveSize_dealloc (hA : A.WF) (hb : b ∈ A.blocks) (hlive : b.live = true) :
    (A.dealloc b.addr b.cls).liveSize + span b.cls = A.liveSize := by
  have := liveSum_setLive hA.nodup_addr hb false
  simp only [hlive, Bool.false_eq_true, if_false, if_true, Nat.add_zero] at this
  exact this

theorem WF.liveSize_le (hA : A.WF) : A.liveSize + A.base ≤ A.bumper := by
  have hsum := hA.tiles.eq_add_sum
  have hle : A.liveSize ≤ spanSum span A.blocks := List.sum_le_sum fun b _ => by
    split <;> omega
  omega

theorem WF.block_le_len (hA : A.WF) (hin : A.blocks = [] ∨ A.bumper ≤ len) (hx : x ∈ A.blocks) :
    x.addr + span x.cls ≤ len :=
  Nat.le_trans (hA.mem_bounds hx).2 (hin.resolve_left (List.ne_nil_of_mem hx))

/-! ## What a call returns -/

theorem alloc_base (h : A.alloc len o = some (a, A')) : A'.base = A.base := by
  simp only [AbsHeap.alloc] at h
  split at h
  · cases h
    rfl
  · split at h
    · cases h
      rfl
    · cases h

variable {size : UInt32}

/-- **An allocation fails only for a size above 32 MiB, or when the memory
holds no block of its order.** -/
theorem allocate_error {e : Error} (h : A.allocate len size = .error e) :
    (e = .requestedAllocationTooLarge ∧ size > maxPossibleAllocation) ∨ e = .allocatorOutOfSpace := by
  cases hfs : Order.fromSize size with
  | error e' =>
    simp only [AbsHeap.allocate, hfs, Except.error.injEq] at h
    subst h
    exact .inl (Order.fromSize_error hfs)
  | ok o =>
    simp only [AbsHeap.allocate, hfs] at h
    split at h
    · cases h
    · cases h
      exact .inr rfl

/-- **What an allocation returns**: past the header of a block of the order
the size asks for, allocated now, aligned to 8, above the base and inside the
memory. -/
theorem WF.allocate_ok (hA : A.WF) (hin : A.blocks = [] ∨ A.bumper ≤ len) {p : Nat}
    (h : A.allocate len size = .ok (p, A')) :
    ∃ o, Order.fromSize size = .ok o ∧ ⟨p - 8, o, true⟩ ∈ A'.blocks ∧ 8 ≤ p ∧ 8 ∣ p ∧ A.base + 8 ≤ p ∧
      p + o.size.toNat ≤ len ∧ A'.WF ∧ A'.liveSize = A.liveSize + span o := by
  cases hfs : Order.fromSize size with
  | error e => simp only [AbsHeap.allocate, hfs, reduceCtorEq] at h
  | ok o =>
    simp only [AbsHeap.allocate, hfs] at h
    split at h
    · rename_i a A'' halloc
      simp only [Except.ok.injEq, Prod.mk.injEq] at h
      obtain ⟨rfl, rfl⟩ := h
      obtain ⟨hmem, hle, -⟩ := hA.alloc_block hin halloc
      have hA' := hA.alloc halloc
      -- the block is one of the new heap's, so it is aligned and above the base
      have hdvd : 8 ∣ a := hA'.aligned_addr hmem
      have hbase : A.base ≤ a := alloc_base halloc ▸ (hA'.mem_bounds hmem).1
      simp only [Nat.add_sub_cancel]
      refine ⟨o, rfl, hmem, by omega, Nat.dvd_add hdvd (by decide), by omega, ?_, hA', hA.liveSize_alloc halloc⟩
      simp only [span] at hle
      omega
    · cases h

end AbsHeap

end ScAllocator
