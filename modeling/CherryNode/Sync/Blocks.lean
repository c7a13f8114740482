import Mathlib
import CherryNode.Lib.OrdMap
import CherryNode.Lib.IntType

/-!
# client-network sync: the collection of blocks being downloaded

`BlockCollection` keeps a sync's block ranges by their first block: a range is
being downloaded by some peers, or complete with its blocks.  `needed_blocks`
picks the next range to ask a peer for, `insert` stores a peer's blocks,
`drain` takes out the completed ranges following a block, and
`clear_peer_download` forgets a peer's request.

`needed_blocks` loops over consecutive entries (`rangeLoop`) through five
guarded arms (`matchArms`), and panics if the range it marks is empty.  Block
numbers are `u32` as `Nat` below `2 ^ 32`, and their sums wrap.  Every
collection reached from `new` has only non-empty ranges ending below `2 ^ 32`
(`RangesOk`), so `needed_blocks` does not panic when `count` is not zero and
`peer_best + count` fits in a `u32` (`neededBlocks_spec`).  At
`peer_best = u32::MAX`, `peer_best + 1` wraps to `0` and the call panics.
Ranges at or below `common` stay in the map and are asked for again.
-/

namespace NetworkSync

/-- `BlockData`: a block, with the peer it came from. -/
structure BlockData (β P : Type) where
  block : β
  origin : Option P

/-- `BlockRangeState`. -/
inductive BlockRangeState (β P : Type) where
  | downloading (len downloading : Nat)
  | complete (blocks : List (BlockData β P))

/-- `BlockRangeState::len`: `(blocks.len() as u32).into()` for a completed range. -/
def BlockRangeState.len {β P : Type} : BlockRangeState β P → Nat
  | .downloading len _ => len
  | .complete blocks => blocks.length % 2 ^ 32

/-- `BlockCollection`: the ranges by their first block, and the first block of
the range each peer was asked for. -/
structure BlockCollection (β P : Type) where
  blocks : OrdMap Nat (BlockRangeState β P)
  peerRequests : P → Option Nat

section Loop

variable {β P : Type}

/-- The first arm of the `match (prev, next)` in the loop of `needed_blocks`:
a range that fewer than `max_parallel` peers download is asked for again. -/
def againArm (maxParallel : Nat) : Option (Nat × BlockRangeState β P) → Option ((Nat × Nat) × Nat)
  | some (start, .downloading len downloading) =>
    if downloading < maxParallel then some ((start, U32.wrappingAdd start len), downloading) else none
  | _ => none

/-- The other arms, whose patterns do not overlap; `none` is the last arm,
which moves on to the next entry. -/
def freshArm (count firstDifferent : Nat) :
    Option (Nat × BlockRangeState β P) → Option (Nat × BlockRangeState β P) → Option ((Nat × Nat) × Nat)
  | some (start, r), some (nextStart, _) =>
    -- a gap after `prev`
    let prevEnd := U32.wrappingAdd start r.len
    if prevEnd < nextStart then some ((prevEnd, min nextStart (U32.wrappingAdd prevEnd count)), 0)
    else none
  | some (start, r), none =>
    let prevEnd := U32.wrappingAdd start r.len
    some ((prevEnd, U32.wrappingAdd prevEnd count), 0)
  | none, none => some ((firstDifferent, U32.wrappingAdd firstDifferent count), 0)
  | none, some (start, _) =>
    -- a gap before the first range
    if start > firstDifferent then
      some ((firstDifferent, min (U32.wrappingAdd firstDifferent count) start), 0)
    else none

/-- The arms of the `match (prev, next)`, in order, a guard that fails falling
through to the next arm. -/
def matchArms (count firstDifferent maxParallel : Nat)
    (prev next : Option (Nat × BlockRangeState β P)) : Option ((Nat × Nat) × Nat) :=
  (againArm maxParallel prev).or (freshArm count firstDifferent prev next)

/-- The loop of `needed_blocks` over the entries still to visit, `prev` the
one visited last: the range chosen and how many peers download it. -/
def rangeLoop (count firstDifferent maxParallel : Nat) :
    Option (Nat × BlockRangeState β P) → List (Nat × BlockRangeState β P) → (Nat × Nat) × Nat
  | prev, [] =>
    -- with no next entry an arm always matches (`matchArms_none_isSome`)
    (matchArms count firstDifferent maxParallel prev none).getD ((firstDifferent, firstDifferent + count), 0)
  | prev, next :: rest =>
    match matchArms count firstDifferent maxParallel prev (some next) with
    | some r => r
    | none => rangeLoop count firstDifferent maxParallel (some next) rest

end Loop

namespace BlockCollection

variable {β P : Type} [DecidableEq P]

/-- `BlockCollection::new`. -/
def new : BlockCollection β P := ⟨OrdMap.empty, fun _ => none⟩

/-- `clear`. -/
def clear (_self : BlockCollection β P) : BlockCollection β P := ⟨OrdMap.empty, fun _ => none⟩

/-- `insert`: a completed range replaces what starts at `start`, unless that
is a completed range at least as long. -/
def insert (self : BlockCollection β P) (start : Nat) (blocks : List β) (who : P) : BlockCollection β P :=
  if blocks.isEmpty then self
  else
    let keep := match self.blocks.get? start with
      | some (.complete existing) => decide (existing.length ≥ blocks.length)
      | _ => false
    if keep then self
    else
      { self with blocks := self.blocks.insert start (.complete (blocks.map fun b => ⟨b, some who⟩)) }

/-- `needed_blocks`: `none` is the panic on an empty range; otherwise the
collection after the call, and the range it hands out. -/
def neededBlocks (self : BlockCollection β P) (who : P) (count peerBest common maxParallel maxAhead : Nat) :
    Option (BlockCollection β P × Option (Nat × Nat)) :=
  if peerBest ≤ common then some (self, none)
  else
    let firstDifferent := U32.wrappingAdd common 1
    -- `(count as u32).into()`
    let count := count % 2 ^ 32
    let chosen := rangeLoop count firstDifferent maxParallel none self.blocks.toList
    let rangeStart := chosen.1.1
    if rangeStart > peerBest then some (self, none)
    else
      -- crop to the peer's best block
      let rangeEnd := min (U32.wrappingAdd peerBest 1) chosen.1.2
      if (self.blocks.first?.map fun e => decide (rangeStart > U32.wrappingAdd e.1 maxAhead)).getD false then
        some (self, none)
      else
        let self' : BlockCollection β P :=
          ⟨self.blocks.insert rangeStart (.downloading (rangeEnd - rangeStart) (chosen.2 + 1)),
            Function.update self.peerRequests who (some rangeStart)⟩
        if rangeEnd ≤ rangeStart then none
        else some (self', some (rangeStart, rangeEnd))

/-- The `for` loop of `drain`: the completed ranges from the first on, each
starting no later than where the one before ends; their blocks and starts. -/
def drainLoop (prev : Nat) : List (Nat × BlockRangeState β P) → List (BlockData β P) × List Nat
  | (start, .complete blocks) :: rest =>
    if start ≤ prev then
      let (drained, ranges) := drainLoop (U32.wrappingAdd start (blocks.length % 2 ^ 32)) rest
      (blocks ++ drained, start :: ranges)
    else ([], [])
  | _ => ([], [])

/-- `drain`: the collection without the drained ranges, and their blocks. -/
def drain (self : BlockCollection β P) (fromBlock : Nat) : BlockCollection β P × List (BlockData β P) :=
  let (drained, ranges) := drainLoop fromBlock self.blocks.toList
  (⟨ranges.foldl (fun m r => m.erase r) self.blocks, self.peerRequests⟩, drained)

/-- `clear_peer_download`: one peer fewer downloads the peer's range, which
goes when no peer is left. -/
def clearPeerDownload (self : BlockCollection β P) (who : P) : BlockCollection β P :=
  match self.peerRequests who with
  | none => self
  | some start =>
    let peerRequests := Function.update self.peerRequests who none
    match self.blocks.get? start with
    | some (.downloading len downloading) =>
      if downloading > 1 then ⟨self.blocks.insert start (.downloading len (downloading - 1)), peerRequests⟩
      else ⟨self.blocks.erase start, peerRequests⟩
    | _ => ⟨self.blocks, peerRequests⟩

/-- The collections built from `new` by the five operations, with any
arguments, the blocks inserted numbered below `u32::MAX`; a `needed_blocks`
that panics builds nothing. -/
inductive BlocksReachable : BlockCollection β P → Prop
  | new : BlocksReachable new
  | insert {s : BlockCollection β P} (start : Nat) (blocks : List β) (who : P) (h : start + blocks.length < 2 ^ 32) :
      BlocksReachable s → BlocksReachable (s.insert start blocks who)
  | neededBlocks {s s' : BlockCollection β P} {r : Option (Nat × Nat)} (who : P)
      (count peerBest common maxParallel maxAhead : Nat) : BlocksReachable s →
      s.neededBlocks who count peerBest common maxParallel maxAhead = some (s', r) → BlocksReachable s'
  | drain {s : BlockCollection β P} (fromBlock : Nat) : BlocksReachable s → BlocksReachable (s.drain fromBlock).1
  | clearPeerDownload {s : BlockCollection β P} (who : P) :
      BlocksReachable s → BlocksReachable (s.clearPeerDownload who)
  | clear {s : BlockCollection β P} : BlocksReachable s → BlocksReachable s.clear

/-- What every reachable collection keeps: no range in the map is empty, and
each ends below `2 ^ 32`. -/
def RangesOk (s : BlockCollection β P) : Prop :=
  ∀ k v, s.blocks.get? k = some v → 0 < v.len ∧ k + v.len < 2 ^ 32

end BlockCollection

/-! ## The range the loop chooses -/

section Chosen

variable {β P : Type} {count firstDifferent maxParallel : Nat} {L : List (Nat × BlockRangeState β P)}
  {prev next : Option (Nat × BlockRangeState β P)} {r : (Nat × Nat) × Nat}

/-- What the loop may choose from the entries `L`: a whole range fewer than
`max_parallel` peers download, or at most `count` blocks, non-empty when
`count` more blocks do not wrap, and not before `firstDifferent` when no entry
is. -/
structure Chosen (count firstDifferent maxParallel : Nat) (L : List (Nat × BlockRangeState β P))
    (r : (Nat × Nat) × Nat) : Prop where
  lt : r.1.1 + count < 2 ^ 32 → r.1.1 < r.1.2
  source : (∃ len, (r.1.1, BlockRangeState.downloading len r.2) ∈ L ∧ r.2 < maxParallel ∧
      r.1.2 = r.1.1 + len) ∨ r.1.2 - r.1.1 ≤ count
  start_ge : (∀ e ∈ L, firstDifferent ≤ e.1) → firstDifferent ≤ r.1.1

theorem matchArms_none_isSome (count firstDifferent maxParallel : Nat)
    (prev : Option (Nat × BlockRangeState β P)) :
    (matchArms count firstDifferent maxParallel prev none).isSome := by
  rcases prev with _ | ⟨start, state⟩ <;> simp [matchArms, freshArm]

theorem againArm_chosen (hpos : ∀ e ∈ L, 0 < e.2.len ∧ e.1 + e.2.len < 2 ^ 32)
    (hprev : ∀ e, prev = some e → e ∈ L)
    (h : againArm maxParallel prev = some r) : Chosen count firstDifferent maxParallel L r := by
  rcases prev with _ | ⟨start, ⟨len, downloading⟩ | blocks⟩
  · cases h
  · have hmem := hprev _ rfl
    -- the range is the whole entry, whose end does not wrap
    obtain ⟨hlen, hend⟩ : 0 < len ∧ start + len < 2 ^ 32 := hpos _ hmem
    simp only [againArm, U32.wrappingAdd_of_lt hend] at h
    split_ifs at h with hpar
    cases h
    exact ⟨fun _ => by dsimp only; omega, .inl ⟨len, hmem, hpar, rfl⟩, fun hall => hall _ hmem⟩
  · cases h

/-- A fresh range from `a` ends at most `count` blocks on, and past `a` when `a + count` does not
wrap. -/
theorem Chosen.fresh (hcount : 1 ≤ count) (hend : e ≤ U32.wrappingAdd a count)
    (hpast : a < U32.wrappingAdd a count → a < e)
    (hstart : (∀ x ∈ L, firstDifferent ≤ x.1) → firstDifferent ≤ a) :
    Chosen count firstDifferent maxParallel L ((a, e), 0) where
  lt hfit := hpast (by rw [U32.wrappingAdd_of_lt (a := a) hfit]; omega)
  source := .inr (by have := U32.wrappingAdd_le a count; dsimp only; omega)
  start_ge := hstart

theorem freshArm_chosen (hcount : 1 ≤ count) (hends : ∀ e ∈ L, e.1 + e.2.len < 2 ^ 32)
    (hprev : ∀ e, prev = some e → e ∈ L)
    (h : freshArm count firstDifferent prev next = some r) : Chosen count firstDifferent maxParallel L r := by
  rcases prev with _ | ⟨start, state⟩ <;> rcases next with _ | ⟨nextStart, _⟩
  · -- an empty map
    simp only [freshArm, Option.some_inj] at h
    subst h
    exact .fresh hcount le_rfl id fun _ => le_rfl
  · -- a gap before the first range
    simp only [freshArm] at h
    split_ifs at h with hgap
    cases h
    exact .fresh hcount (min_le_left _ _) (fun hw => lt_min hw hgap) fun _ => le_rfl
  all_goals
    -- after `prev`: the range starts where `prev` ends, which does not wrap
    have hmem := hprev _ rfl
    have hend : U32.wrappingAdd start state.len = start + state.len := U32.wrappingAdd_of_lt (hends _ hmem)
    have hstart : (∀ e ∈ L, firstDifferent ≤ e.1) → firstDifferent ≤ start + state.len :=
      fun hall => (hall _ hmem).trans (Nat.le_add_right _ _)
    simp only [freshArm, hend, Option.some_inj] at h
  · subst h
    exact .fresh hcount le_rfl id hstart
  · split_ifs at h with hgap
    cases h
    exact .fresh hcount (min_le_right _ _) (fun hw => lt_min hgap hw) hstart

theorem matchArms_chosen (hcount : 1 ≤ count) (hpos : ∀ e ∈ L, 0 < e.2.len ∧ e.1 + e.2.len < 2 ^ 32)
    (hprev : ∀ e, prev = some e → e ∈ L) (h : matchArms count firstDifferent maxParallel prev next = some r) :
    Chosen count firstDifferent maxParallel L r := by
  rcases Option.or_eq_some_iff.mp h with hagain | ⟨-, hfresh⟩
  · exact againArm_chosen hpos hprev hagain
  · exact freshArm_chosen hcount (fun e he => (hpos e he).2) hprev hfresh

/-- **The loop chooses a non-empty range** when every entry of the map is
non-empty and ends below `2 ^ 32`, `count` is not zero and nothing past the
range's start wraps. -/
theorem rangeLoop_chosen (hcount : 1 ≤ count) (hpos : ∀ e ∈ L, 0 < e.2.len ∧ e.1 + e.2.len < 2 ^ 32) :
    ∀ (l : List (Nat × BlockRangeState β P)) (prev : Option (Nat × BlockRangeState β P)),
      (∀ e, prev = some e → e ∈ L) → (∀ e ∈ l, e ∈ L) →
      Chosen count firstDifferent maxParallel L (rangeLoop count firstDifferent maxParallel prev l)
  | [], prev, hprev, _ => by
    obtain ⟨r, hr⟩ := Option.isSome_iff_exists.mp (matchArms_none_isSome count firstDifferent maxParallel prev)
    rw [rangeLoop, hr, Option.getD_some]
    exact matchArms_chosen hcount hpos hprev hr
  | next :: rest, prev, hprev, hl => by
    have hnext := hl next List.mem_cons_self
    rw [rangeLoop]
    -- an arm matches, or the loop goes on from `next`
    cases h : matchArms count firstDifferent maxParallel prev (some next) with
    | some r => exact matchArms_chosen hcount hpos hprev h
    | none =>
      exact rangeLoop_chosen hcount hpos rest (some next) (fun e he => Option.some_inj.mp he ▸ hnext)
        (fun e he => hl e (List.mem_cons_of_mem next he))

end Chosen

namespace BlockCollection

variable {β P : Type} [DecidableEq P] {s s' : BlockCollection β P} {who : P} {r : Option (Nat × Nat)}
  {count peerBest common maxParallel maxAhead : Nat}

omit [DecidableEq P] in
theorem RangesOk.entries (hs : s.RangesOk) : ∀ e ∈ s.blocks.toList, 0 < e.2.len ∧ e.1 + e.2.len < 2 ^ 32 :=
  (OrdMap.forall_get?_iff s.blocks fun k v => 0 < v.len ∧ k + v.len < 2 ^ 32).mp hs

/-! ## `needed_blocks` -/

theorem neededBlocks_cases (h : s.neededBlocks who count peerBest common maxParallel maxAhead = some (s', r)) :
    (s' = s ∧ r = none) ∨ ∃ a b d, a < b ∧ b < 2 ^ 32 ∧ r = some (a, b) ∧
      s' = ⟨s.blocks.insert a (.downloading (b - a) d), Function.update s.peerRequests who (some a)⟩ := by
  unfold neededBlocks at h
  dsimp only at h
  split_ifs at h with hpc hfar hahead hempty
  all_goals simp only [Option.some_inj, Prod.mk.injEq] at h
  · exact .inl ⟨h.1.symm, h.2.symm⟩
  · exact .inl ⟨h.1.symm, h.2.symm⟩
  · exact .inl ⟨h.1.symm, h.2.symm⟩
  · -- the end is cropped to `peer_best + 1`, a `u32`
    exact .inr ⟨_, _, _, Nat.lt_of_not_le hempty, lt_of_le_of_lt (min_le_left _ _) (U32.wrappingAdd_lt peerBest 1),
      h.2.symm, h.1.symm⟩

/-- **`needed_blocks` does not panic** on ranges that are non-empty and end
below `2 ^ 32`, when `count` is not zero and `peer_best + count` fits in a
`u32`; the range it hands out meets the claimed bounds and is marked as
downloading for `who`. -/
theorem neededBlocks_spec (hs : s.RangesOk) (who : P) (count peerBest common maxParallel maxAhead : Nat)
    (hcount : 1 ≤ count) (hfits : peerBest + count < 2 ^ 32) :
    ∃ s' r, s.neededBlocks who count peerBest common maxParallel maxAhead = some (s', r) ∧
      (peerBest ≤ common → r = none) ∧ (r = none → s' = s) ∧
      ∀ a b, r = some (a, b) →
        a < b ∧ b ≤ peerBest + 1 ∧ (∀ e, s.blocks.first? = some e → a ≤ e.1 + maxAhead) ∧
        ((∃ len d, s.blocks.get? a = some (.downloading len d) ∧ d < maxParallel ∧ b ≤ a + len) ∨
          b - a ≤ count) ∧
        (∃ d, s'.blocks.get? a = some (.downloading (b - a) d)) ∧ s'.peerRequests who = some a ∧
        ((∀ k v, s.blocks.get? k = some v → common < k) → common < a) := by
  unfold neededBlocks
  by_cases hpc : peerBest ≤ common
  · rw [if_pos hpc]
    exact ⟨s, none, rfl, fun _ => rfl, fun _ => rfl, fun _ _ h => by cases h⟩
  rw [if_neg hpc]
  dsimp only
  -- below `peer_best + count < 2 ^ 32` neither `count as u32`, `common + 1` nor `peer_best + 1` wraps
  rw [Nat.mod_eq_of_lt (show count < 2 ^ 32 by omega), U32.wrappingAdd_of_lt (show common + 1 < 2 ^ 32 by omega),
    U32.wrappingAdd_of_lt (show peerBest + 1 < 2 ^ 32 by omega)]
  -- the range the loop chooses
  have hch : Chosen count (common + 1) maxParallel s.blocks.toList
      (rangeLoop count (common + 1) maxParallel none s.blocks.toList) :=
    rangeLoop_chosen hcount hs.entries _ none (fun _ h => by cases h) (fun _ h => h)
  generalize rangeLoop count (common + 1) maxParallel none s.blocks.toList = chosen at hch ⊢
  obtain ⟨⟨a, e⟩, d⟩ := chosen
  dsimp only at hch ⊢
  by_cases hfar : a > peerBest
  · rw [if_pos hfar]
    exact ⟨s, none, rfl, fun _ => rfl, fun _ => rfl, fun _ _ h => by cases h⟩
  rw [if_neg hfar]
  by_cases hahead : (s.blocks.first?.map fun e => decide (a > U32.wrappingAdd e.1 maxAhead)).getD false = true
  · rw [if_pos hahead]
    exact ⟨s, none, rfl, fun _ => rfl, fun _ => rfl, fun _ _ h => by cases h⟩
  rw [if_neg hahead]
  -- the cropped range is still non-empty: no panic
  have hlt := hch.lt (by dsimp only; omega)
  have hne : ¬ min (peerBest + 1) e ≤ a := by dsimp only at hlt; omega
  rw [if_neg hne]
  refine ⟨_, _, rfl, ?_, ?_, ?_⟩
  · intro h
    exact absurd h hpc
  · intro h
    cases h
  intro a' b' h
  simp only [Option.some_inj, Prod.mk.injEq] at h
  obtain ⟨rfl, rfl⟩ := h
  refine ⟨by omega, by omega, fun e₀ he₀ => ?_, ?_, ⟨d + 1, OrdMap.get?_insert_self _ _ _⟩,
    Function.update_self _ _ _, fun hall => ?_⟩
  · rw [he₀] at hahead
    simp only [Option.map_some, Option.getD_some, decide_eq_true_eq] at hahead
    have := U32.wrappingAdd_le e₀.1 maxAhead
    omega
  · rcases hch.source with ⟨len, hmem, hpar, hend⟩ | hle
    · exact .inl ⟨len, d, OrdMap.get?_of_mem_toList hmem, hpar, by dsimp only at hend; omega⟩
    · exact .inr (by dsimp only at hle; omega)
  · have := hch.start_ge fun e₁ he₁ => hall e₁.1 e₁.2 (OrdMap.get?_of_mem_toList he₁)
    dsimp only at this
    omega

/-! ## No range in the map is empty -/

omit [DecidableEq P] in
theorem RangesOk.new : (new : BlockCollection β P).RangesOk := by
  intro k v h
  simp [BlockCollection.new] at h

omit [DecidableEq P] in
theorem RangesOk.clear (s : BlockCollection β P) : s.clear.RangesOk := by
  intro k v h
  simp [BlockCollection.clear] at h

omit [DecidableEq P] in
theorem RangesOk.insert (hs : s.RangesOk) {start : Nat} {blocks : List β} (hlen : start + blocks.length < 2 ^ 32)
    (who : P) : (s.insert start blocks who).RangesOk := by
  unfold BlockCollection.insert
  dsimp only
  split_ifs with hempty hkeep
  · exact hs
  · exact hs
  · -- the completed range stored holds the blocks, of which there is one at least
    intro k v h
    simp only [OrdMap.get?_insert] at h
    split_ifs at h with hk
    · cases h
      have hpos : 0 < blocks.length := by simpa [List.length_pos_iff] using hempty
      simp only [BlockRangeState.len, List.length_map, Nat.mod_eq_of_lt (show blocks.length < 2 ^ 32 by omega)]
      omega
    · exact hs k v h

theorem RangesOk.neededBlocks (hs : s.RangesOk)
    (h : s.neededBlocks who count peerBest common maxParallel maxAhead = some (s', r)) : s'.RangesOk := by
  rcases neededBlocks_cases h with ⟨rfl, -⟩ | ⟨a, b, d, hab, hb, -, rfl⟩
  · exact hs
  · intro k v hk
    simp only [OrdMap.get?_insert] at hk
    split_ifs at hk with hka
    · cases hk
      simp only [BlockRangeState.len]
      omega
    · exact hs k v hk

omit [DecidableEq P] in
theorem RangesOk.drain (hs : s.RangesOk) (fromBlock : Nat) : (s.drain fromBlock).1.RangesOk := by
  intro k v h
  unfold BlockCollection.drain at h
  rcases hd : drainLoop fromBlock s.blocks.toList with ⟨drained, ranges⟩
  simp only [hd] at h
  -- the drained ranges are removed, the others stay as they were
  rw [show (ranges.foldl (fun m r => m.erase r) s.blocks).get? k = _ from
    OrdMap.get?_foldl_erase (fun r => r) ranges s.blocks k] at h
  split_ifs at h
  exact hs k v h

theorem RangesOk.clearPeerDownload (hs : s.RangesOk) (who : P) : (s.clearPeerDownload who).RangesOk := by
  unfold BlockCollection.clearPeerDownload
  split
  · exact hs
  · rename_i start _
    split
    · -- the peer's range, with one peer fewer, or removed
      rename_i len downloading hget
      split_ifs
      · intro k v h
        simp only [OrdMap.get?_insert] at h
        split_ifs at h with hk
        · cases h
          subst hk
          have hlen := hs _ _ hget
          exact hlen
        · exact hs k v h
      · intro k v h
        simp only [OrdMap.get?_erase] at h
        split_ifs at h
        exact hs k v h
    · exact hs

/-- Every reachable collection has only non-empty ranges. -/
theorem BlocksReachable.ok (h : BlocksReachable s) : s.RangesOk := by
  induction h with
  | new => exact RangesOk.new
  | insert start blocks who hlen _ ih => exact ih.insert hlen who
  | neededBlocks who count peerBest common maxParallel maxAhead _ hstep ih => exact ih.neededBlocks hstep
  | drain fromBlock _ ih => exact ih.drain fromBlock
  | clearPeerDownload who _ ih => exact ih.clearPeerDownload who
  | clear => exact RangesOk.clear _

theorem neededBlocks_reachable_spec (hs : BlocksReachable s) (who : P)
    (count peerBest common maxParallel maxAhead : Nat) (hcount : 1 ≤ count) (hfits : peerBest + count < 2 ^ 32) :
    ∃ s' r, s.neededBlocks who count peerBest common maxParallel maxAhead = some (s', r) ∧
      (peerBest ≤ common → r = none) ∧
      ∀ a b, r = some (a, b) →
        a < b ∧ b ≤ peerBest + 1 ∧ (∀ e, s.blocks.first? = some e → a ≤ e.1 + maxAhead) ∧
        ((∃ len d, s.blocks.get? a = some (.downloading len d) ∧ d < maxParallel ∧ b ≤ a + len) ∨
          b - a ≤ count) ∧
        (∃ d, s'.blocks.get? a = some (.downloading (b - a) d)) ∧ s'.peerRequests who = some a ∧
        ((∀ k v, s.blocks.get? k = some v → common < k) → common < a) := by
  obtain ⟨s', r, h, hnone, -, hsome⟩ :=
    neededBlocks_spec hs.ok who count peerBest common maxParallel maxAhead hcount hfits
  exact ⟨s', r, h, hnone, hsome⟩

/-- After one request from `new`: one peer downloads blocks `1..11`. -/
def oneRequest : BlockCollection Unit Nat :=
  ⟨OrdMap.empty.insert 1 (.downloading 10 1), Function.update (fun _ => none) 0 (some 1)⟩

theorem neededBlocks_reachable_spec_oneRequest :
    (1 ≤ 10 ∧ 100 + 10 < 2 ^ 32) ∧ ∃ s' r, oneRequest.neededBlocks 1 10 100 0 2 1000 = some (s', r) ∧
      ∀ a b, r = some (a, b) → a < b ∧ b ≤ 101 := by
  obtain ⟨s', r, h, -, hsome⟩ :=
    neededBlocks_reachable_spec (.neededBlocks 0 10 100 0 2 1000 .new rfl : BlocksReachable oneRequest)
      1 10 100 0 2 1000 (by decide) (by decide)
  exact ⟨by decide, s', r, h, fun a b hr => ⟨(hsome a b hr).1, (hsome a b hr).2.1⟩⟩

/-- Three calls that break the claimed bounds: at `peer_best = u32::MAX` the
crop wraps to `0` and the call panics; a `count` of `2 ^ 32` is `0` as a `u32`
and the call panics; and a range handed out while `common` was `0` is handed
out again once `common` is `50`. -/
theorem neededBlocks_panics_or_repeats :
    (new : BlockCollection Unit Nat).neededBlocks 0 1 (2 ^ 32 - 1) 0 1 1 = none ∧
      (new : BlockCollection Unit Nat).neededBlocks 0 (2 ^ 32) 10 0 1 1 = none ∧
      ∃ s s' : BlockCollection Unit Nat, BlocksReachable s ∧
        s.neededBlocks 1 10 100 50 2 1000 = some (s', some (1, 11)) :=
  ⟨rfl, rfl, oneRequest, _, .neededBlocks 0 10 100 0 2 1000 .new rfl, rfl⟩

end BlockCollection

end NetworkSync
