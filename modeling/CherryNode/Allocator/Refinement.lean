import CherryNode.Allocator.Spec
import CherryNode.Lib.Chain
import CherryNode.Lib.Run

/-!
# sc-allocator: the allocator refines its abstract heap

`Repr s A` says the state `s` (allocator and memory) holds the abstract heap
`A` of `Allocator.Spec`: the bumper is `A`'s bump pointer, `total_size` the
size of its allocated blocks, each allocated block has an occupied header of its
order, and each order's free list is a chain of free headers (`Chain`) visiting
exactly `A`'s free list of that order.

From `Repr`, `allocate` is `AbsHeap.allocate` (`allocate_refines`),
`deallocate` frees an allocated block and fails, poisoning, on a free one
(`deallocate_refines`), and a client that grows the memory and writes only
into its blocks keeps `Repr` (`client_refines`); over a run the state is
poisoned or represents the heap the same calls build (`run_refines`).  This
needs the memory and heap base at most `memLimit`, so that `bumper + size`
cannot wrap; without it, it does (`allocate_wraps_past_memory_end`).
-/

namespace ScAllocator

open ByteMem EStateRun Tiling StepRun AbsHeap

/-- The largest memory on which the allocator's `u32` arithmetic cannot wrap:
a bumper inside it plus the largest block with its header stays below `2 ^ 32`. -/
def memLimit : Nat := 2 ^ 32 - 2 ^ 25 - 16

/-- A memory of 65535 wasm pages: below `2 ^ 32` bytes, as `Memory::size`
expects, but above `memLimit`. -/
def pagesMem : Mem := ⟨4294901760, by decide, fun _ => 0⟩

/-- `from_size(MAX_POSSIBLE_ALLOCATION)` is the order of 32 MiB blocks. -/
theorem fromSize_max :
    ∃ o, Order.fromSize maxPossibleAllocation = .ok o ∧ o.size = maxPossibleAllocation := by
  have hmax : maxPossibleAllocation ≤ maxPossibleAllocation := UInt32.le_iff_toNat_le.mpr (Nat.le_refl _)
  obtain ⟨k, -, hk25, hord, hsize⟩ := sizeOrder_spec hmax
  -- `2 ^ 25 ≤ 2 ^ k` with `k ≤ 25`: the order is `25 - 3`
  have hk : k = 25 := by
    have hpow : 2 ^ 25 ≤ 2 ^ k := hsize
    have := (Nat.pow_le_pow_iff_right (by decide)).mp hpow
    omega
  refine ⟨⟨sizeOrder maxPossibleAllocation, sizeOrder_lt hmax⟩, ?_, ?_⟩
  · rw [Order.fromSize, dif_neg (by decide)]
  · apply UInt32.toNat_inj.mp
    rw [Order.size_toNat]
    show 2 ^ ((sizeOrder maxPossibleAllocation).toNat + 3) = 33554432
    rw [hord, hk]
    rfl

/-- **`bump` wraps on a large memory**: from a base at `2 ^ 32 - 2 ^ 25`,
`bumper + size` wraps to 8, passes the bound check, and the block returned
ends past the memory. -/
theorem allocate_wraps_past_memory_end :
    ∃ o p s', Order.fromSize maxPossibleAllocation = .ok o ∧
      allocate maxPossibleAllocation ⟨FreeingBumpHeapAllocator.new 4261412864, pagesMem⟩ = .ok p s' ∧
      s'.mem.len < p.toNat + o.size.toNat ∧ s'.alloc.bumper = 8 := by
  obtain ⟨o, hfs, hosize⟩ := fromSize_max
  have hsat : Sat (allocate maxPossibleAllocation ⟨FreeingBumpHeapAllocator.new 4261412864, pagesMem⟩)
      (fun p s' => s'.mem.len < p.toNat + o.size.toNat ∧ s'.alloc.bumper = 8) (fun _ _ => False) := by
    rw [allocate_of_not_poisoned _ _ rfl]
    apply sat_withPoisonBomb
    rw [allocateArmed, sat_bind, observeMemorySize_of_le _ (Nat.zero_le _), sat_ok, sat_bind, hfs, lift_ok, sat_ok,
      sat_bind, get_apply, sat_ok]
    dsimp only
    -- the free lists are empty, so the block is cut at the bumper
    have hnil : (FreeingBumpHeapAllocator.new 4261412864).freeLists.get o = .nil := rfl
    rw [hnil]
    dsimp only
    rw [sat_bind, bump_of_le _ ?room, sat_ok, occupy_of_le _ o ?fits, sat_ok, hosize]
    case room =>
      rw [hosize]
      decide
    case fits =>
      show (FreeingBumpHeapAllocator.new 4261412864).bumper.toNat + 8 ≤ pagesMem.len
      decide
    simp only [FreeingBumpHeapAllocator.updateTrackers_bumper, Header.store_len]
    exact ⟨by decide, by decide⟩
  cases h : allocate maxPossibleAllocation ⟨FreeingBumpHeapAllocator.new 4261412864, pagesMem⟩ with
  | ok p s' =>
    rw [h] at hsat
    exact ⟨o, p, s', hfs, rfl, hsat⟩
  | error e s' =>
    rw [h] at hsat
    exact hsat.elim

/-- The next node of a free list after the header at `p`: the link of a free
header, and `none` where no free header is read. -/
def nextFree (m : Mem) (p : UInt32) : Option (Option UInt32) :=
  match Header.readFrom m p with
  | .ok (.free link) => some link.toOption
  | _ => none

/-- The header at address `a` reads as `hdr`. -/
def HeaderAt (m : Mem) (a : Nat) (hdr : Header) : Prop :=
  ∀ p : UInt32, p.toNat = a → Header.readFrom m p = .ok hdr

/-- What the headers in memory hold: an occupied header of its order for every
allocated block, and for each order a chain of free headers from the head of
its free list through exactly the blocks of the abstract free list. -/
structure Headers (m : Mem) (fl : FreeLists) (A : AbsHeap) : Prop where
  occupied : ∀ b ∈ A.blocks, b.live = true → HeaderAt m b.addr (.occupied b.cls)
  chain : ∀ o, ∃ l, Chain (nextFree m) (fl.get o).toOption l ∧ l.map UInt32.toNat = A.free o

/-- The state `s` of a call holds the abstract heap `A`. -/
structure Repr (s : Heap) (A : AbsHeap) : Prop where
  wf : A.WF
  base_le : A.base ≤ memLimit
  len_le : s.mem.len ≤ memLimit
  poisoned : s.alloc.poisoned = false
  bumper : s.alloc.bumper.toNat = A.bumper
  inside : A.blocks = [] ∨ A.bumper ≤ s.mem.len
  observed : s.alloc.lastObservedMemorySize.toNat ≤ s.mem.len
  totalSize : s.alloc.totalSize.toNat = A.liveSize
  headers : Headers s.mem s.alloc.freeLists A

/-! ## Headers in memory -/

section Headers

variable {A : AbsHeap} {m m' : Mem} {fl : FreeLists} {x y : Block Order} {p h : UInt32} {o : Order}

theorem readFrom_of_nextFree {n : Option UInt32} (h : nextFree m p = some n) :
    ∃ link, Header.readFrom m p = .ok (.free link) ∧ link.toOption = n := by
  unfold nextFree at h
  split at h
  · rename_i link hread
    cases h
    exact ⟨link, hread, rfl⟩
  · cases h

variable {link : Link} {q : UInt32}

theorem nextFree_store_self (h : p.toNat + 8 ≤ m.len)
    (hlink : link.toOption ≠ some nilMarker) :
    nextFree (Header.store m p.toNat (.free link)) p = some link.toOption := by
  have hread : Header.readFrom (Header.store m p.toNat (.free link)) p = .ok (.free link) :=
    Header.readFrom_store_self h hlink
  simp only [nextFree, hread]

theorem chain_frame {h : Option UInt32} {l : List UInt32}
    (hc : Chain (nextFree m) h l) (hsame : ∀ q ∈ l, Header.readFrom m' q = Header.readFrom m q) :
    Chain (nextFree m') h l :=
  hc.congr fun q hq => by simp only [nextFree, hsame q hq]

theorem AbsHeap.WF.readFrom_store_of_ne (hA : A.WF) (hx : x ∈ A.blocks) {a : Nat} (ha : x.addr = a)
    (hy : y ∈ A.blocks) (hne : a ≠ y.addr) (hq : q.toNat = y.addr) (hdr : Header) :
    Header.readFrom (Header.store m a hdr) q = Header.readFrom m q := by
  subst ha
  apply Header.readFrom_store_of_disjoint
  have := sixteen_le_span x.cls
  have := sixteen_le_span y.cls
  rcases hA.disjoint hx hy (fun h => hne (h ▸ rfl)) with h | h <;> omega

theorem AbsHeap.WF.readFrom_store_bumper (hA : A.WF) (hy : y ∈ A.blocks) (hq : q.toNat = y.addr)
    (hdr : Header) : Header.readFrom (Header.store m A.bumper hdr) q = Header.readFrom m q := by
  apply Header.readFrom_store_of_disjoint
  have := (hA.mem_bounds hy).2
  have := sixteen_le_span y.cls
  omega

/-- **Frame rule**: memory that reads the same headers at every block holds the same headers. -/
theorem Headers.frame (hH : Headers m fl A) (hA : A.WF)
    (hsame : ∀ y ∈ A.blocks, ∀ q : UInt32, q.toNat = y.addr → Header.readFrom m' q = Header.readFrom m q) :
    Headers m' fl A where
  occupied b hb hlive q hq := (hsame b hb q hq).trans (hH.occupied b hb hlive q hq)
  chain o := by
    obtain ⟨l, hc, hl⟩ := hH.chain o
    refine ⟨l, chain_frame hc fun q hq => ?_, hl⟩
    obtain ⟨y, hy, haddr, -, -⟩ := hA.block_of_mem_free (hl ▸ List.mem_map_of_mem hq)
    exact hsame y hy q haddr.symm

/-- The head of a non-empty free list is a free header, whose link starts the rest of the list. -/
theorem Headers.head (hH : Headers m fl A) (hhead : fl.get o = .ptr h) :
    ∃ link t, Header.readFrom m h = .ok (.free link) ∧ Chain (nextFree m) link.toOption t ∧
      A.free o = h.toNat :: t.map UInt32.toNat := by
  obtain ⟨l, hc, hl⟩ := hH.chain o
  rw [hhead] at hc
  obtain ⟨n, t, rfl, hn, ht⟩ := Chain.some_iff.mp hc
  obtain ⟨link, hread, rfl⟩ := readFrom_of_nextFree hn
  exact ⟨link, t, hread, ht, hl.symm⟩

/-- **Popping a free block**: the head of the free list of `o` is unlinked and
its header written occupied. -/
theorem Headers.pop (hH : Headers m fl A) (hA : A.WF)
    {t : List UInt32} (hhead : fl.get o = .ptr h) (htail : Chain (nextFree m) link.toOption t)
    (hfree : A.free o = h.toNat :: t.map UInt32.toNat) (hlen : h.toNat + 8 ≤ m.len) :
    Headers (Header.store m h.toNat (.occupied o)) (fl.set o link)
      { A with blocks := setLive A.blocks h.toNat true, free := Function.update A.free o (t.map UInt32.toNat) } := by
  -- the block popped, and the nodes left on the free lists, which are other blocks
  obtain ⟨z, hz, hzaddr, hzcls, -⟩ := hA.block_of_mem_free (hfree ▸ List.mem_cons_self : h.toNat ∈ A.free o)
  have hsame : ∀ y ∈ A.blocks, h.toNat ≠ y.addr → ∀ q : UInt32, q.toNat = y.addr →
      Header.readFrom (Header.store m h.toNat (.occupied o)) q = Header.readFrom m q :=
    fun y hy hne q hq => hA.readFrom_store_of_ne hz hzaddr hy hne hq _
  have hnd : h.toNat ∉ t.map UInt32.toNat := by
    have := hA.nodup o
    rw [hfree] at this
    exact (List.nodup_cons.mp this).1
  constructor
  · intro b hb hlive q hq
    by_cases hbh : b.addr = h.toNat
    · -- the block popped: its header now says occupied, of its order
      obtain ⟨y, hy, hyaddr, hycls⟩ := exists_of_mem_setLive hb
      have hyz : y = z := hA.eq_of_addr_eq hy hz (hyaddr.trans (hbh.trans hzaddr.symm))
      have hqh : q = h := UInt32.toNat_inj.mp (hq.trans hbh)
      rw [← hycls, hyz, hzcls, hqh]
      exact Header.readFrom_store_self hlen trivial
    · have hb' := (mem_setLive_of_ne hbh).mp hb
      rw [hsame b hb' (Ne.symm hbh) q hq]
      exact hH.occupied b hb' hlive q hq
  · intro o'
    by_cases ho : o' = o
    · -- the list popped goes on from the link of its old head
      subst ho
      refine ⟨t, ?_, by simp only [Function.update_self]⟩
      rw [FreeLists.get_set, if_pos rfl]
      refine chain_frame htail fun q hq => ?_
      have hmem : q.toNat ∈ A.free o' := hfree ▸ List.mem_cons_of_mem _ (List.mem_map_of_mem hq)
      obtain ⟨y, hy, hyaddr, -, -⟩ := hA.block_of_mem_free hmem
      exact hsame y hy (fun he => hnd (he ▸ hyaddr ▸ List.mem_map_of_mem hq)) q hyaddr.symm
    · -- another list: its nodes are of another order than the block popped
      obtain ⟨l, hc, hl⟩ := hH.chain o'
      refine ⟨l, ?_, by simp only [hl, Function.update_of_ne ho]⟩
      rw [FreeLists.get_set, if_neg ho]
      refine chain_frame hc fun q hq => ?_
      have hmem : q.toNat ∈ A.free o' := hl ▸ List.mem_map_of_mem hq
      obtain ⟨y, hy, hyaddr, -, -⟩ := hA.block_of_mem_free hmem
      refine hsame y hy (fun he => ho ?_) q hyaddr.symm
      exact (hA.eq_of_mem_free (hfree ▸ List.mem_cons_self) (he ▸ hyaddr ▸ hmem)).symm

/-- **Cutting a block at the bump pointer**: its header is written occupied. -/
theorem Headers.carve (hH : Headers m fl A) (hA : A.WF) (hp : p.toNat = A.bumper)
    (hlen : A.bumper + 8 ≤ m.len) :
    Headers (Header.store m p.toNat (.occupied o)) fl
      { A with bumper := A.bumper + span o, blocks := A.blocks ++ [⟨A.bumper, o, true⟩] } := by
  rw [hp]
  -- the old blocks all end at the bump pointer, so their headers are as they were
  have hframe := hH.frame hA fun y hy q hq => hA.readFrom_store_bumper (m := m) hy hq (.occupied o)
  refine ⟨fun b hb hlive q hq => ?_, hframe.chain⟩
  rcases List.mem_append.mp hb with hb | hb
  · exact hframe.occupied b hb hlive q hq
  · rw [List.mem_singleton.mp hb] at hq ⊢
    rw [UInt32.toNat_inj.mp (hq.trans hp.symm), ← hp]
    exact Header.readFrom_store_self (hp ▸ hlen) trivial

/-- **Freeing a block**: its header is written free, linked to the head of
the free list of its order, and it becomes that head. -/
theorem Headers.push (hH : Headers m fl A) (hA : A.WF) {b : Block Order} (hb : b ∈ A.blocks)
    (hlive : b.live = true) (hp : p.toNat = b.addr) (hlen : b.addr + 8 ≤ m.len)
    (hlim : A.bumper ≤ memLimit) :
    Headers (Header.store m p.toNat (.free (fl.get b.cls))) (fl.set b.cls (.ptr p)) (A.dealloc b.addr b.cls) := by
  have hsame : ∀ y ∈ A.blocks, b.addr ≠ y.addr → ∀ q : UInt32, q.toNat = y.addr →
      Header.readFrom (Header.store m p.toNat (.free (fl.get b.cls))) q = Header.readFrom m q :=
    fun y hy hne q hq => hA.readFrom_store_of_ne hb hp.symm hy (by rw [hp]; exact hne) hq _
  constructor
  · intro b' hb' hlive' q hq
    have hne : b'.addr ≠ b.addr := fun he => by
      rw [live_of_mem_setLive hb' he] at hlive'
      cases hlive'
    have hb'' := (mem_setLive_of_ne hne).mp hb'
    rw [hsame b' hb'' (Ne.symm hne) q hq]
    exact hH.occupied b' hb'' hlive' q hq
  · intro o'
    obtain ⟨l, hc, hl⟩ := hH.chain o'
    -- the nodes of every list are free blocks, so other than `b`
    have hframe : Chain (nextFree (Header.store m p.toNat (.free (fl.get b.cls)))) (fl.get o').toOption l := by
      refine chain_frame hc fun q hq => ?_
      have hmem : q.toNat ∈ A.free o' := hl ▸ List.mem_map_of_mem hq
      obtain ⟨y, hy, hyaddr, -, -⟩ := hA.block_of_mem_free hmem
      exact hsame y hy (fun he => hA.not_mem_free hb hlive o' (he ▸ hyaddr ▸ hmem)) q hyaddr.symm
    by_cases ho : o' = b.cls
    · subst ho
      refine ⟨p :: l, ?_, by simp only [List.map_cons, hp, hl, AbsHeap.dealloc, Function.update_self]⟩
      rw [FreeLists.get_set, if_pos rfl]
      refine .cons (nextFree_store_self (hp ▸ hlen) ?_) hframe
      -- the old head is the header of a block, below `u32::MAX`
      intro hnil
      rw [hnil] at hc
      obtain ⟨y, hy, hyaddr, -, -⟩ := hA.block_of_mem_free (hl ▸ List.mem_map_of_mem hc.head_mem)
      have hbound := (hA.mem_bounds hy).2
      have hnil' : nilMarker.toNat = 4294967295 := rfl
      simp only [memLimit] at hlim
      omega
    · refine ⟨l, ?_, by simp only [hl, AbsHeap.dealloc, Function.update_of_ne ho]⟩
      rw [FreeLists.get_set, if_neg ho]
      exact hframe

end Headers

/-! ## The allocator `new` makes -/

/-- `FreeingBumpHeapAllocator::new(heap_base)` with the memory `m`, and the
empty abstract heap at the base rounded up. -/
def start (heapBase : UInt32) (m : Mem) : Heap × AbsHeap :=
  (⟨FreeingBumpHeapAllocator.new heapBase, m⟩, AbsHeap.init (alignedBase heapBase.toNat))

variable {heapBase : UInt32}

theorem new_bumper (h : heapBase.toNat ≤ memLimit) :
    (FreeingBumpHeapAllocator.new heapBase).bumper.toNat = alignedBase heapBase.toNat := by
  have ha : alignment.toNat = 8 := rfl
  have hone : (1 : UInt32).toNat = 1 := rfl
  simp only [memLimit] at h
  have hadd : (heapBase + alignment).toNat = heapBase.toNat + 8 := by
    rw [toNat_add_of_lt (by rw [ha]; omega), ha]
  have hle : (1 : UInt32) ≤ heapBase + alignment := by
    rw [UInt32.le_iff_toNat_le, hadd, hone]
    omega
  show ((heapBase + alignment - 1) / alignment * alignment).toNat = _
  rw [UInt32.toNat_mul, UInt32.toNat_div, UInt32.toNat_sub_of_le _ _ hle, hadd, ha, hone, alignedBase]
  omega

/-- The allocator `new` makes holds the empty heap. -/
theorem Repr.start {m : Mem} (hbase : heapBase.toNat ≤ memLimit) (hlen : m.len ≤ memLimit) :
    Repr (start heapBase m).1 (start heapBase m).2 where
  wf := WF.init (alignedBase_dvd _)
  base_le := by
    show alignedBase heapBase.toNat ≤ memLimit
    simp only [alignedBase, memLimit] at hbase ⊢
    omega
  len_le := hlen
  poisoned := rfl
  bumper := new_bumper hbase
  inside := .inl rfl
  observed := Nat.zero_le _
  totalSize := rfl
  headers :=
    { occupied := fun _ hb => absurd hb List.not_mem_nil
      chain := fun _ => ⟨[], .nil, rfl⟩ }

/-! ## What a represented state guarantees -/

section Allocate

variable {s : Heap} {A : AbsHeap}

/-- **Safety of a state that holds a heap**: blocks are aligned, inside the
memory and disjoint, and each free list is an acyclic chain through exactly
the free blocks of its order. -/
theorem Repr.safe (hR : Repr s A) :
    (∀ b ∈ A.blocks, 8 ∣ b.addr + 8 ∧ A.base ≤ b.addr ∧ b.addr + 8 + b.cls.size.toNat ≤ s.mem.len) ∧
    (∀ x ∈ A.blocks, ∀ y ∈ A.blocks, x ≠ y → x.addr + span x.cls ≤ y.addr ∨ y.addr + span y.cls ≤ x.addr) ∧
    ∀ o, ∃ l, Chain (nextFree s.mem) (s.alloc.freeLists.get o).toOption l ∧ l.Nodup ∧
      ∀ a, a ∈ l.map UInt32.toNat ↔ ∃ b ∈ A.blocks, b.addr = a ∧ b.cls = o ∧ b.live = false := by
  refine ⟨fun b hb => ?_, fun x hx y hy hxy => hR.wf.disjoint hx hy hxy, fun o => ?_⟩
  · have hle := hR.wf.block_le_len hR.inside hb
    simp only [span] at hle
    exact ⟨Nat.dvd_add (hR.wf.aligned_addr hb) (dvd_refl 8), (hR.wf.mem_bounds hb).1, by omega⟩
  · obtain ⟨l, hc, hl⟩ := hR.headers.chain o
    exact ⟨l, hc, hc.nodup, fun a => hl ▸ hR.wf.free_iff o a⟩

/-! ## Allocation -/

theorem Repr.bumper_le (hR : Repr s A) : A.bumper ≤ memLimit := by
  rcases hR.inside with h | h
  · have htiles := hR.wf.tiles
    rw [h, Tiles.nil_iff] at htiles
    exact htiles ▸ hR.base_le
  · exact Nat.le_trans h hR.len_le

theorem Repr.observe (hR : Repr s A) :
    Repr { s with alloc := { s.alloc with lastObservedMemorySize := s.mem.size } } A :=
  { hR with observed := Nat.le_refl _ }

variable {o : Order}

theorem Repr.of_occupy (hR : Repr s A) {A' : AbsHeap} {p bumper' : UInt32} {fl' : FreeLists}
    (hA' : A'.WF) (hbase : A'.base = A.base) (hlive : A'.liveSize = A.liveSize + span o)
    (hbump : bumper'.toNat = A'.bumper) (hin : A'.bumper ≤ s.mem.len)
    (hH : Headers (Header.store s.mem p.toNat (.occupied o)) fl' A') :
    Repr
      { alloc := { s.alloc with
          bumper := bumper'
          freeLists := fl'
          totalSize := s.alloc.totalSize + (o.size + headerSize) }.updateTrackers
        mem := Header.store s.mem p.toNat (.occupied o) } A' where
  wf := hA'
  base_le := hbase ▸ hR.base_le
  len_le := hR.len_le
  poisoned := by
    simp only [FreeingBumpHeapAllocator.updateTrackers_poisoned]
    exact hR.poisoned
  bumper := by
    simp only [FreeingBumpHeapAllocator.updateTrackers_bumper]
    exact hbump
  inside := .inr hin
  observed := by
    simp only [FreeingBumpHeapAllocator.updateTrackers_lastObservedMemorySize, Header.store_len]
    exact hR.observed
  totalSize := by
    -- no wrap: the allocated blocks lie between the base and the bumper, inside the memory
    have hle := hA'.liveSize_le
    have hlt := s.mem.len_lt
    simp only [FreeingBumpHeapAllocator.updateTrackers_totalSize]
    rw [UInt32.toNat_add, span_toNat, hR.totalSize, ← hlive, Nat.mod_eq_of_lt (by omega)]
  headers := by
    simp only [FreeingBumpHeapAllocator.updateTrackers_freeLists]
    exact hH

/-- **Popping a free block** of order `o`: it is what `AbsHeap.alloc` allocates,
and the state left holds the heap after it. -/
theorem Repr.pop {h : UInt32} (hR : Repr s A) (hhead : s.alloc.freeLists.get o = .ptr h)
    {E : Fault → Heap → Prop} :
    Sat ((popFree o h >>= occupy o) s)
      (fun p s' => ∃ a A', A.alloc s.mem.len o = some (a, A') ∧ p.toNat = a + 8 ∧ Repr s' A' ∧
        s'.mem.len = s.mem.len) E := by
  obtain ⟨link, t, hread, htail, hfree⟩ := hR.headers.head hhead
  obtain ⟨z, hz, hzaddr, hzcls, -⟩ := hR.wf.block_of_mem_free (hfree ▸ List.mem_cons_self : h.toNat ∈ A.free o)
  -- the block popped lies inside the memory, so neither the assert nor `h + 8` wraps
  have hzle := hR.wf.block_le_len hR.inside hz
  rw [hzaddr, hzcls] at hzle
  simp only [span] at hzle
  have hlt := s.mem.len_lt
  have h8 : headerSize.toNat = 8 := rfl
  have hassert : h + o.size + headerSize ≤ s.mem.size := by
    rw [UInt32.le_iff_toNat_le, UInt32.toNat_add, UInt32.toNat_add, Mem.size_toNat]
    omega
  have halloc : A.alloc s.mem.len o = some (h.toNat,
      { A with blocks := setLive A.blocks h.toNat true, free := Function.update A.free o (t.map UInt32.toNat) }) := by
    simp only [AbsHeap.alloc, hfree]
  rw [sat_bind, popFree_of_free s hassert hread, sat_ok, occupy_of_le _ o ?hlen, sat_ok]
  case hlen =>
    show h.toNat + 8 ≤ s.mem.len
    omega
  refine ⟨h.toNat, _, halloc, ?_, ?_, rfl⟩
  · rw [UInt32.toNat_add, h8]
    omega
  · have hin : A.bumper ≤ s.mem.len := hR.inside.resolve_left (List.ne_nil_of_mem hz)
    exact hR.of_occupy (hR.wf.alloc halloc) rfl (hR.wf.liveSize_alloc halloc) hR.bumper hin
      (hR.headers.pop hR.wf hhead htail hfree (by omega))

/-- **Cutting a block at the bumper**: it is what `AbsHeap.alloc` allocates
when the free list of `o` is empty, and there is room for it exactly when the
abstract heap has room. -/
theorem Repr.carve (hR : Repr s A) (hhead : s.alloc.freeLists.get o = .nil) :
    Sat ((bump (o.size + headerSize) s.mem.size >>= occupy o) s)
      (fun p s' => ∃ a A', A.alloc s.mem.len o = some (a, A') ∧ p.toNat = a + 8 ∧ Repr s' A' ∧
        s'.mem.len = s.mem.len)
      (fun e s' => e = .err .allocatorOutOfSpace ∧ A.alloc s.mem.len o = none ∧ s'.mem = s.mem) := by
  have hfree : A.free o = [] := by
    obtain ⟨l, hc, hl⟩ := hR.headers.chain o
    rw [hhead] at hc
    rw [← hl, Chain.none_iff.mp hc, List.map_nil]
  -- `bumper + size` does not wrap: the bumper is at most `memLimit`
  have hlim := hR.bumper_le
  have hsize := (Order.size_bounds o).2.1
  have hsum : (s.alloc.bumper + (o.size + headerSize)).toNat = A.bumper + span o := by
    rw [UInt32.toNat_add, span_toNat, hR.bumper, Nat.mod_eq_of_lt]
    simp only [memLimit, span] at hlim ⊢
    omega
  have hfits : s.alloc.bumper + (o.size + headerSize) > s.mem.size ↔ s.mem.len < A.bumper + span o := by
    rw [GT.gt, UInt32.lt_iff_toNat_lt, hsum, Mem.size_toNat]
  rw [sat_bind]
  by_cases hgt : s.alloc.bumper + (o.size + headerSize) > s.mem.size
  · rw [bump_of_gt s hgt, sat_error]
    have hno : ¬ A.bumper + span o ≤ s.mem.len := Nat.not_le_of_lt (hfits.mp hgt)
    exact ⟨rfl, by simp only [AbsHeap.alloc, hfree, if_neg hno], rfl⟩
  · have hle : A.bumper + span o ≤ s.mem.len := Nat.le_of_not_lt (mt hfits.mpr hgt)
    have halloc : A.alloc s.mem.len o = some (A.bumper,
        { A with bumper := A.bumper + span o, blocks := A.blocks ++ [⟨A.bumper, o, true⟩] }) := by
      simp only [AbsHeap.alloc, hfree, if_pos hle]
    have := sixteen_le_span o
    rw [bump_of_le s hgt, sat_ok, occupy_of_le _ o ?hlen, sat_ok]
    case hlen =>
      show s.alloc.bumper.toNat + 8 ≤ s.mem.len
      rw [hR.bumper]
      omega
    have h8 : headerSize.toNat = 8 := rfl
    refine ⟨A.bumper, _, halloc, ?_, ?_, rfl⟩
    · simp only [memLimit] at hlim
      rw [toNat_add_of_lt (by rw [hR.bumper, h8]; omega), hR.bumper, h8]
    · exact hR.of_occupy (hR.wf.alloc halloc) rfl (hR.wf.liveSize_alloc halloc) hsum hle
        (hR.headers.carve hR.wf hR.bumper (by omega))

/-- **`allocate` refines `AbsHeap.allocate`.**  From a state that holds `A`,
a successful allocation returns the pointer the abstract allocation returns and
leaves a state that holds the heap after it; a failed one fails with the
abstract error, and poisons the allocator. -/
theorem allocate_refines (hR : Repr s A) (size : UInt32) :
    Sat (allocate size s)
      (fun p s' => ∃ A', A.allocate s.mem.len size = .ok (p.toNat, A') ∧ Repr s' A' ∧ s'.mem.len = s.mem.len)
      (fun e s' => ∃ e', e = .err e' ∧ A.allocate s.mem.len size = .error e' ∧ s'.alloc.poisoned = true ∧
        s'.mem = s.mem) := by
  rw [allocate_of_not_poisoned s size hR.poisoned]
  apply sat_withPoisonBomb
  rw [allocateArmed, sat_bind, observeMemorySize_of_le s hR.observed, sat_ok, sat_bind]
  cases hfs : Order.fromSize size with
  | error e =>
    rw [lift_error, sat_error]
    exact ⟨e, rfl, by simp only [AbsHeap.allocate, hfs], rfl, rfl⟩
  | ok o =>
    rw [lift_ok, sat_ok, sat_bind, get_apply, sat_ok]
    -- both ways of taking a header end alike: as `AbsHeap.alloc`, or out of space
    have hok : ∀ (p : UInt32) (s' : Heap), (∃ a A', A.alloc s.mem.len o = some (a, A') ∧ p.toNat = a + 8 ∧
        Repr s' A' ∧ s'.mem.len = s.mem.len) →
        ∃ A', A.allocate s.mem.len size = .ok (p.toNat, A') ∧ Repr s' A' ∧ s'.mem.len = s.mem.len := by
      rintro p s' ⟨a, A', halloc, hp, hR', hlen⟩
      exact ⟨A', by simp only [AbsHeap.allocate, hfs, halloc, hp], hR', hlen⟩
    have hR1 := hR.observe
    dsimp only at hR1 ⊢
    cases hhead : s.alloc.freeLists.get o with
    | ptr h =>
      exact (hR1.pop hhead).imp hok fun _ _ h => h
    | nil =>
      refine (hR1.carve hhead).imp hok ?_
      rintro e s' ⟨rfl, hnone, hmem⟩
      exact ⟨_, rfl, by simp only [AbsHeap.allocate, hfs, hnone], rfl, by rw [hmem]⟩

end Allocate

/-! ## Freeing -/

section Deallocate

variable {s : Heap} {A : AbsHeap} {b : Block Order}

theorem Repr.span_le_totalSize (hR : Repr s A) (hb : b ∈ A.blocks) (hlive : b.live = true) :
    b.cls.size + headerSize ≤ s.alloc.totalSize := by
  have hsum := hR.wf.liveSize_dealloc hb hlive
  rw [UInt32.le_iff_toNat_le, span_toNat, hR.totalSize]
  omega

theorem Repr.of_release {p : UInt32} (hR : Repr s A) (hb : b ∈ A.blocks) (hlive : b.live = true)
    (hp : p.toNat = b.addr) :
    Repr
      { alloc := { s.alloc with
          freeLists := s.alloc.freeLists.set b.cls (.ptr p)
          totalSize := s.alloc.totalSize - (b.cls.size + headerSize) }
        mem := Header.store s.mem p.toNat (.free (s.alloc.freeLists.get b.cls)) } (A.dealloc b.addr b.cls) where
  wf := hR.wf.dealloc hb hlive
  base_le := hR.base_le
  len_le := hR.len_le
  poisoned := hR.poisoned
  bumper := hR.bumper
  inside := .inr (hR.inside.resolve_left (List.ne_nil_of_mem hb))
  observed := hR.observed
  totalSize := by
    have hsum := hR.wf.liveSize_dealloc hb hlive
    show (s.alloc.totalSize - (b.cls.size + headerSize)).toNat = _
    rw [UInt32.toNat_sub_of_le _ _ (hR.span_le_totalSize hb hlive), span_toNat, hR.totalSize]
    omega
  headers := by
    have hle := hR.wf.block_le_len hR.inside hb
    have := sixteen_le_span b.cls
    exact hR.headers.push hR.wf hb hlive hp (by omega) hR.bumper_le

/-- **`deallocate` refines `AbsHeap.deallocate`.**  Given the pointer past the
header of a block of `A`: an allocated block is freed, and the state left
holds the heap after it; a free block is refused with the error of an empty
header, and the allocator is poisoned. -/
theorem deallocate_refines (hR : Repr s A) (hb : b ∈ A.blocks) {ptr : UInt32} (hptr : ptr.toNat = b.addr + 8) :
    Sat (deallocate ptr s)
      (fun _ s' => ∃ A', A.deallocate b = .ok A' ∧ Repr s' A' ∧ s'.mem.len = s.mem.len)
      (fun e s' => ∃ e', e = .err e' ∧ A.deallocate b = .error e' ∧ s'.alloc.poisoned = true ∧ s'.mem = s.mem) := by
  rw [deallocate_of_not_poisoned s ptr hR.poisoned]
  apply sat_withPoisonBomb
  rw [deallocateArmed, sat_bind, observeMemorySize_of_le s hR.observed, sat_ok, sat_bind]
  -- `ptr - HEADER_SIZE` does not underflow: it is the address of the block's header
  have h8 : headerSize.toNat = 8 := rfl
  have hsub : headerSize ≤ ptr := by
    rw [UInt32.le_iff_toNat_le, h8]
    omega
  have hhp : (ptr - headerSize).toNat = b.addr := by
    rw [UInt32.toNat_sub_of_le _ _ hsub, h8]
    omega
  rw [checkedSub, if_pos hsub, okOr_some, sat_ok, sat_bind, get_apply, sat_ok, sat_bind]
  have hR1 := hR.observe
  dsimp only at hR1 ⊢
  cases hlive : b.live with
  | true =>
    -- an allocated block has an occupied header of its order
    rw [hR.headers.occupied b hb hlive _ hhp, lift_ok, sat_ok, sat_bind, Header.intoOccupied_occupied, okOr_some, sat_ok,
      release_of_le _ b.cls ?hlen (hR1.span_le_totalSize hb hlive), sat_ok]
    case hlen =>
      have hle := hR.wf.block_le_len hR.inside hb
      have := sixteen_le_span b.cls
      show (ptr - headerSize).toNat + 8 ≤ s.mem.len
      omega
    exact ⟨_, by simp only [AbsHeap.deallocate, hlive, if_true], hR1.of_release hb hlive hhp, rfl⟩
  | false =>
    -- a free block is a node of the free list of its order, so its header reads free
    have hmem : b.addr ∈ A.free b.cls := (hR.wf.free_iff b.cls b.addr).mpr ⟨b, hb, rfl, rfl, hlive⟩
    obtain ⟨l, hc, hl⟩ := hR.headers.chain b.cls
    obtain ⟨q, hq, hqaddr⟩ := List.mem_map.mp (hl ▸ hmem)
    have hqp : q = ptr - headerSize := UInt32.toNat_inj.mp (hqaddr.trans hhp.symm)
    obtain ⟨n, hn⟩ := hc.next_of_mem hq
    obtain ⟨link, hread, -⟩ := readFrom_of_nextFree hn
    rw [hqp] at hread
    rw [hread, lift_ok, sat_ok, sat_bind, Header.intoOccupied_free, okOr_none, sat_error]
    exact ⟨_, rfl, by simp only [AbsHeap.deallocate, hlive, Bool.false_eq_true, if_false], rfl, rfl⟩

/-- **One call from a state that holds a heap.**  A successful `allocate`
returns an aligned block of the size's order inside the memory and allocates
it; a failing one poisons the allocator.  `deallocate` frees an allocated
block, and of a freed one fails and poisons. -/
theorem allocator_calls_spec (hR : Repr s A) :
    (∀ size, Sat (allocate size s)
      (fun p s' => ∃ o A', Order.fromSize size = .ok o ∧ 8 ∣ p.toNat ∧ A.base + 8 ≤ p.toNat ∧
        p.toNat + o.size.toNat ≤ s'.mem.len ∧ ⟨p.toNat - 8, o, true⟩ ∈ A'.blocks ∧
        A'.liveSize = A.liveSize + span o ∧ Repr s' A')
      (fun e s' => s'.alloc.poisoned = true ∧
        ((e = .err .requestedAllocationTooLarge ∧ size > maxPossibleAllocation) ∨ e = .err .allocatorOutOfSpace))) ∧
    ∀ b ∈ A.blocks, ∀ ptr : UInt32, ptr.toNat = b.addr + 8 →
      Sat (deallocate ptr s)
        (fun _ s' => b.live = true ∧ Repr s' (A.dealloc b.addr b.cls))
        (fun e s' => b.live = false ∧ e = .err (error "the allocation points to an empty header") ∧
          s'.alloc.poisoned = true) := by
  constructor
  · intro size
    refine (allocate_refines hR size).imp ?_ ?_
    · rintro p s' ⟨A', hA', hR', hlen⟩
      obtain ⟨o, hfs, hmem, -, hdvd, hbase, hle, -, hlive⟩ := hR.wf.allocate_ok hR.inside hA'
      exact ⟨o, A', hfs, hdvd, hbase, hlen ▸ hle, hmem, hlive, hR'⟩
    · rintro e s' ⟨e', rfl, hA', hp, -⟩
      rcases allocate_error hA' with ⟨rfl, hgt⟩ | rfl
      · exact ⟨hp, .inl ⟨rfl, hgt⟩⟩
      · exact ⟨hp, .inr rfl⟩
  · intro b hb ptr hptr
    refine (deallocate_refines hR hb hptr).imp ?_ ?_
    · rintro _ s' ⟨A', hA', hR', -⟩
      cases hlive : b.live with
      | true =>
        simp only [AbsHeap.deallocate, hlive, if_true, Except.ok.injEq] at hA'
        exact ⟨rfl, hA' ▸ hR'⟩
      | false => simp only [AbsHeap.deallocate, hlive, Bool.false_eq_true, if_false, reduceCtorEq] at hA'
    · rintro e s' ⟨e', rfl, hA', hp, -⟩
      cases hlive : b.live with
      | true => simp only [AbsHeap.deallocate, hlive, if_true, reduceCtorEq] at hA'
      | false =>
        simp only [AbsHeap.deallocate, hlive, Bool.false_eq_true, if_false, Except.error.injEq] at hA'
        exact ⟨rfl, by rw [hA'], hp⟩

end Deallocate

/-! ## The client, and whole runs -/

section Run

variable {s : Heap} {A : AbsHeap}

/-- What the client may do to the memory between two calls: grow it, up to
`memLimit`, and write only into the blocks it holds, past their headers. -/
def ClientWrite (s : Heap) (A : AbsHeap) (m : Mem) : Prop :=
  s.mem.len ≤ m.len ∧ m.len ≤ memLimit ∧
    ∀ i < s.mem.len, (∀ b ∈ A.blocks, b.live = true → ¬ (b.addr + 8 ≤ i ∧ i < b.addr + span b.cls)) →
      m.byte i = s.mem.byte i

/-- **The client keeps the representation**: the headers lie outside every
block the client holds. -/
theorem client_refines (hR : Repr s A) {m : Mem} (hm : ClientWrite s A m) : Repr { s with mem := m } A where
  wf := hR.wf
  base_le := hR.base_le
  len_le := hm.2.1
  poisoned := hR.poisoned
  bumper := hR.bumper
  inside := hR.inside.imp_right fun h => Nat.le_trans h hm.1
  observed := Nat.le_trans hR.observed hm.1
  totalSize := hR.totalSize
  headers := hR.headers.frame hR.wf fun y hy q hq => by
    have hyle := hR.wf.block_le_len hR.inside hy
    have := sixteen_le_span y.cls
    refine Header.readFrom_congr (by omega) hm.1 fun i hi => hm.2.2 _ (by omega) fun b hb _ hin => ?_
    -- the header of `y` is in no block's payload: not in its own, and the others are disjoint from `y`
    by_cases hby : b = y
    · subst hby
      omega
    · have := sixteen_le_span b.cls
      rcases hR.wf.disjoint hb hy hby with h | h <;> omega

/-- What happens to the heap: a call of the allocator, or the client
handing over the memory it grew and wrote. -/
inductive Event
  | allocate (size : UInt32)
  | deallocate (ptr : UInt32)
  | client (mem : Mem)

/-- An event run on the state: the calls as the code runs them. -/
def Event.run : Event → HeapM Unit
  | .allocate size => (fun _ => ()) <$> ScAllocator.allocate size
  | .deallocate ptr => ScAllocator.deallocate ptr
  | .client mem => modify fun s => { s with mem := mem }

/-- The abstract heap after an event, for a memory of `len` bytes. -/
def AbsHeap.apply (A : AbsHeap) (len : Nat) : Event → AbsHeap
  | .allocate size =>
    match A.allocate len size with
    | .ok (_, A') => A'
    | .error _ => A
  | .deallocate ptr =>
    match A.blockAt (ptr.toNat - 8) with
    | some b =>
      match A.deallocate b with
      | .ok A' => A'
      | .error _ => A
    | none => A
  | .client _ => A

/-- One event, on the state and on the abstract heap it holds. -/
def step (p : Heap × AbsHeap) (e : Event) : Heap × AbsHeap :=
  (stateOf (e.run p.1), p.2.apply p.1.mem.len e)

/-- What the client promises: it frees only pointers the allocator returned,
and changes the memory only as `ClientWrite` allows. -/
def Event.Fits (p : Heap × AbsHeap) : Event → Prop
  | .allocate _ => True
  | .deallocate ptr => ∃ b ∈ p.2.blocks, ptr.toNat = b.addr + 8
  | .client m => ClientWrite p.1 p.2 m

/-- The state holds the abstract heap, or the allocator is poisoned. -/
def RunInv (p : Heap × AbsHeap) : Prop := Repr p.1 p.2 ∨ p.1.alloc.poisoned = true

variable {p : Heap × AbsHeap}

theorem step_poisoned (h : p.1.alloc.poisoned = true) (e : Event) :
    (step p e).1.alloc.poisoned = true := by
  cases e with
  | allocate size =>
    simp only [step, Event.run, map_apply, allocate_of_poisoned _ size h, stateOf_error]
    exact h
  | deallocate ptr =>
    simp only [step, Event.run, deallocate_of_poisoned _ ptr h, stateOf_error]
    exact h
  | client m =>
    simp only [step, Event.run, modify_apply, stateOf_ok]
    exact h

/-- **Step lemma**: an event the client's promises allow keeps `RunInv`. -/
theorem step_runInv (h : RunInv p) {e : Event} (he : e.Fits p) : RunInv (step p e) := by
  rcases h with hR | hp
  · cases e with
    | allocate size =>
      have hsat := allocate_refines hR size
      simp only [step, Event.run, map_apply]
      cases hr : allocate size p.1 with
      | ok q s' =>
        rw [hr] at hsat
        obtain ⟨A', hA', hR', -⟩ := hsat
        exact .inl (by simp only [stateOf_ok, AbsHeap.apply, hA']; exact hR')
      | error err s' =>
        rw [hr] at hsat
        obtain ⟨-, -, -, hpoison, -⟩ := hsat
        exact .inr hpoison
    | deallocate ptr =>
      obtain ⟨b, hb, hptr⟩ := he
      have hsat := deallocate_refines hR hb hptr
      have hat : p.2.blockAt (ptr.toNat - 8) = some b := by
        rw [hptr, Nat.add_sub_cancel]
        exact hR.wf.blockAt_addr hb
      simp only [step, Event.run]
      cases hr : deallocate ptr p.1 with
      | ok q s' =>
        rw [hr] at hsat
        obtain ⟨A', hA', hR', -⟩ := hsat
        exact .inl (by simp only [stateOf_ok, AbsHeap.apply, hat, hA']; exact hR')
      | error err s' =>
        rw [hr] at hsat
        obtain ⟨-, -, -, hpoison, -⟩ := hsat
        exact .inr hpoison
    | client m =>
      simp only [step, Event.run, modify_apply, stateOf_ok, AbsHeap.apply]
      exact .inl (client_refines hR he)
  · exact .inr (step_poisoned hp e)

/-- `allocate(8)` from `new(0)` over 64 bytes: one block, at address `0`. -/
def oneBlock : Heap × AbsHeap := step (start 0 ⟨64, by decide, fun _ => 0⟩) (.allocate 8)

/-- That block freed again: it heads the free list of its order. -/
def freedBlock : Heap × AbsHeap := step oneBlock (.deallocate 8)

theorem oneBlock_repr : Repr oneBlock.1 oneBlock.2 :=
  have h : RunInv oneBlock := step_runInv (e := .allocate 8) (.inl (Repr.start (by decide) (by decide))) trivial
  Or.resolve_right h (by decide)

theorem freedBlock_repr : Repr freedBlock.1 freedBlock.2 :=
  -- the pointer freed is the block's
  have hfits : ∃ b ∈ oneBlock.2.blocks, (8 : UInt32).toNat = b.addr + 8 := by decide
  have h : RunInv freedBlock := step_runInv (e := .deallocate 8) (.inl oneBlock_repr) hfits
  Or.resolve_right h (by decide)

theorem allocator_calls_spec_oneBlock :
    Repr oneBlock.1 oneBlock.2 ∧ (oneBlock.2.blocks.map fun b => (b.addr, b.live)) = [(0, true)] ∧
      ∀ b ∈ oneBlock.2.blocks, ∀ ptr : UInt32, ptr.toNat = b.addr + 8 →
        Sat (deallocate ptr oneBlock.1)
          (fun _ s' => b.live = true ∧ Repr s' (oneBlock.2.dealloc b.addr b.cls))
          (fun e s' => b.live = false ∧ e = .err (error "the allocation points to an empty header") ∧
            s'.alloc.poisoned = true) :=
  ⟨oneBlock_repr, by decide, (allocator_calls_spec oneBlock_repr).2⟩

theorem safe_freedBlock :
    Repr freedBlock.1 freedBlock.2 ∧ (freedBlock.2.blocks.map fun b => (b.addr, b.live)) = [(0, false)] ∧
      ∀ o, ∃ l, Chain (nextFree freedBlock.1.mem) (freedBlock.1.alloc.freeLists.get o).toOption l ∧ l.Nodup :=
  ⟨freedBlock_repr, by decide, fun o => ((Repr.safe freedBlock_repr).2.2 o).imp fun _ hl => ⟨hl.1, hl.2.1⟩⟩

/-- **The allocator refines the abstract heap over every run** that keeps
the client's promises: it is poisoned or holds the heap the same steps build. -/
theorem run_refines {heapBase : UInt32} {m : Mem} (hbase : heapBase.toNat ≤ memLimit) (hlen : m.len ≤ memLimit)
    (events : List Event) (hrun : Guarded step (fun p e => e.Fits p) (start heapBase m) events) :
    RunInv (events.foldl step (start heapBase m)) :=
  foldl_invariant RunInv _ (fun _ _ h he => step_runInv h he) events _ (.inl (Repr.start hbase hlen)) hrun

theorem run_refines_two_allocations :
    (0 : UInt32).toNat ≤ memLimit ∧ (⟨64, by decide, fun _ => 0⟩ : Mem).len ≤ memLimit ∧
      RunInv ([.allocate 8, .allocate 100].foldl step (start 0 ⟨64, by decide, fun _ => 0⟩)) :=
  ⟨by decide, by decide, run_refines (by decide) (by decide) _ ⟨trivial, trivial, trivial⟩⟩

end Run

end ScAllocator
