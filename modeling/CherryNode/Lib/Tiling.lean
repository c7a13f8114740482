import Mathlib

/-!
# Regions tiled by blocks

A bump allocator cuts blocks off a region one after another, so the blocks cut
so far tile it from its base to the bump pointer.  A block has an address, a
size class whose `span` is its length, and a flag for whether it is in use.

From the tiling alone: every block lies between the base and the bump pointer
(`Tiles.mem_bounds`), distinct blocks do not overlap (`Tiles.disjoint`), a block
is determined by its address (`Tiles.eq_of_addr_eq`), addresses are aligned if
the base and spans are (`Tiles.dvd`), and the bump pointer is the base plus the
spans (`Tiles.eq_add_sum`).  Cutting at the bump pointer (`Tiles.append`) and
marking blocks (`Tiles.setLive`) keep the tiling.
-/

namespace Tiling

/-- A block of a tiled region. -/
structure Block (ι : Type) where
  addr : Nat
  cls : ι
  live : Bool
  deriving DecidableEq, Repr

variable {ι : Type} {span : ι → Nat}

/-- `Tiles span a bs b`: the blocks `bs`, each `span` of its class long, lie one
after the other from `a` to `b`. -/
def Tiles (span : ι → Nat) : Nat → List (Block ι) → Nat → Prop
  | a, [], b => a = b
  | a, x :: rest, b => x.addr = a ∧ Tiles span (a + span x.cls) rest b

/-- The blocks `bs` with the one at `a` marked used (`true`) or free. -/
def setLive (bs : List (Block ι)) (a : Nat) (v : Bool) : List (Block ι) :=
  bs.map fun x => if x.addr = a then { x with live := v } else x

/-- The total span of the blocks `bs`. -/
def spanSum (span : ι → Nat) (bs : List (Block ι)) : Nat := (bs.map fun x => span x.cls).sum

namespace Tiles

variable {a b : Nat} {bs : List (Block ι)} {x y : Block ι}

@[simp] theorem nil_iff : Tiles span a [] b ↔ a = b := Iff.rfl

@[simp] theorem cons_iff : Tiles span a (x :: bs) b ↔ x.addr = a ∧ Tiles span (a + span x.cls) bs b := Iff.rfl

theorem le (h : Tiles span a bs b) : a ≤ b := by
  induction bs generalizing a with
  | nil => exact Nat.le_of_eq h
  | cons x bs ih =>
    obtain ⟨_, hrest⟩ := h
    have := ih hrest
    omega

/-- The bump pointer is the base plus the spans. -/
theorem eq_add_sum (h : Tiles span a bs b) : b = a + spanSum span bs := by
  induction bs generalizing a with
  | nil => simp [spanSum, h.symm]
  | cons x bs ih =>
    obtain ⟨_, hrest⟩ := h
    rw [ih hrest]
    simp only [spanSum, List.map_cons, List.sum_cons]
    omega

/-- Every block lies between the base and the bump pointer. -/
theorem mem_bounds (h : Tiles span a bs b) (hx : x ∈ bs) : a ≤ x.addr ∧ x.addr + span x.cls ≤ b := by
  induction bs generalizing a with
  | nil => cases hx
  | cons y bs ih =>
    obtain ⟨hy, hrest⟩ := h
    rcases List.mem_cons.mp hx with rfl | hx
    · exact ⟨Nat.le_of_eq hy.symm, hy ▸ hrest.le⟩
    · have := ih hrest hx
      omega

/-- **Different blocks do not overlap.** -/
theorem disjoint (h : Tiles span a bs b) (hx : x ∈ bs) (hy : y ∈ bs) (hxy : x ≠ y) :
    x.addr + span x.cls ≤ y.addr ∨ y.addr + span y.cls ≤ x.addr := by
  induction bs generalizing a with
  | nil => cases hx
  | cons z bs ih =>
    obtain ⟨hz, hrest⟩ := h
    rcases List.mem_cons.mp hx with rfl | hxs
    · -- the block at the base ends before every later one
      rcases List.mem_cons.mp hy with rfl | hys
      · exact absurd rfl hxy
      · exact .inl (hz ▸ (hrest.mem_bounds hys).1)
    · rcases List.mem_cons.mp hy with rfl | hys
      · exact .inr (hz ▸ (hrest.mem_bounds hxs).1)
      · exact ih hrest hxs hys

/-- With spans of positive length, a block is determined by its address. -/
theorem eq_of_addr_eq (hpos : ∀ c, 0 < span c) (h : Tiles span a bs b) (hx : x ∈ bs) (hy : y ∈ bs)
    (haddr : x.addr = y.addr) : x = y := by
  by_contra hxy
  have := hpos x.cls
  have := hpos y.cls
  rcases h.disjoint hx hy hxy with hd | hd <;> omega

theorem nodup_addr (hpos : ∀ c, 0 < span c) (h : Tiles span a bs b) : (bs.map (·.addr)).Nodup := by
  induction bs generalizing a with
  | nil => exact List.nodup_nil
  | cons x bs ih =>
    obtain ⟨hx, hrest⟩ := h
    refine List.nodup_cons.mpr ⟨fun hmem => ?_, ih hrest⟩
    obtain ⟨y, hy, hyx⟩ := List.mem_map.mp hmem
    have hyx' : y.addr = x.addr := hyx
    have := (hrest.mem_bounds hy).1
    have := hpos x.cls
    omega

/-- Cutting a block at the bump pointer. -/
theorem append (h : Tiles span a bs b) (c : ι) (v : Bool) : Tiles span a (bs ++ [⟨b, c, v⟩]) (b + span c) := by
  induction bs generalizing a with
  | nil =>
    simp only [List.nil_append, cons_iff, nil_iff]
    exact ⟨h.symm, by rw [h]⟩
  | cons x bs ih =>
    obtain ⟨hx, hrest⟩ := h
    exact ⟨hx, ih hrest⟩

/-- Marking blocks used or free keeps the tiling. -/
theorem setLive (h : Tiles span a bs b) (a' : Nat) (v : Bool) : Tiles span a (Tiling.setLive bs a' v) b := by
  induction bs generalizing a with
  | nil => exact h
  | cons x bs ih =>
    obtain ⟨hx, hrest⟩ := h
    show Tiles span a ((if x.addr = a' then { x with live := v } else x) :: Tiling.setLive bs a' v) b
    split <;> exact ⟨hx, ih hrest⟩

/-- **Aligned blocks.**  If the base and every span are multiples of `d`, so
are every address and the bump pointer. -/
theorem dvd {d : Nat} (h : Tiles span a bs b) (ha : d ∣ a) (hspan : ∀ c, d ∣ span c) :
    (∀ x ∈ bs, d ∣ x.addr) ∧ d ∣ b := by
  induction bs generalizing a with
  | nil => exact ⟨fun _ hx => absurd hx List.not_mem_nil, h ▸ ha⟩
  | cons y bs ih =>
    obtain ⟨hy, hrest⟩ := h
    obtain ⟨hall, hb⟩ := ih hrest (Nat.dvd_add ha (hspan y.cls))
    refine ⟨fun x hx => ?_, hb⟩
    rcases List.mem_cons.mp hx with rfl | hx
    · exact hy ▸ ha
    · exact hall x hx

end Tiles

/-! ## Marking blocks -/

section SetLive

variable {bs : List (Block ι)} {a : Nat} {v : Bool} {x : Block ι}

theorem mem_setLive : x ∈ setLive bs a v ↔ ∃ y ∈ bs, (if y.addr = a then { y with live := v } else y) = x := by
  simp [setLive]

theorem mem_setLive_of_ne (hx : x.addr ≠ a) : x ∈ setLive bs a v ↔ x ∈ bs := by
  rw [mem_setLive]
  constructor
  · rintro ⟨y, hy, rfl⟩
    by_cases hya : y.addr = a
    · rw [if_pos hya] at hx
      exact absurd hya hx
    · rwa [if_neg hya]
  · intro hxs
    exact ⟨x, hxs, if_neg hx⟩

theorem live_of_mem_setLive (hx : x ∈ setLive bs a v) (haddr : x.addr = a) : x.live = v := by
  obtain ⟨y, _, rfl⟩ := mem_setLive.mp hx
  by_cases hy : y.addr = a
  · rw [if_pos hy]
  · rw [if_neg hy] at haddr
    exact absurd haddr hy

theorem exists_of_mem_setLive (hx : x ∈ setLive bs a v) : ∃ y ∈ bs, y.addr = x.addr ∧ y.cls = x.cls := by
  obtain ⟨y, hy, rfl⟩ := mem_setLive.mp hx
  refine ⟨y, hy, ?_⟩
  split <;> exact ⟨rfl, rfl⟩

theorem mem_setLive_of_mem {y : Block ι} (hy : y ∈ bs) :
    (if y.addr = a then { y with live := v } else y) ∈ setLive bs a v :=
  mem_setLive.mpr ⟨y, hy, rfl⟩

end SetLive

end Tiling
