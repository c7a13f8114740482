import Mathlib
import CherryNode.Lib.IntType

/-!
# pallet-staking: slashing spans

`SlashingSpans` keeps the ongoing span (`span_index`, starting at
`last_start`) and the earlier ones, most recent first, as lengths (`prior`).
`iter` rebuilds the spans, `end_span` closes the ongoing span after an era,
and `prune` forgets the spans ended by a window's start.

Every record reached from `new` (`SpansReachable`) keeps `SpansOk`: the
lengths sum to at most `last_start` and number at most `span_index`, so the
subtractions of `iter` and `prune` stay in range, and
`span_index ≤ last_start < 2 ^ 32`, so `span_index += 1` never wraps.  Then
`iter` counts the indices down (`iter_map_index`), each span ending where the
next starts (`iter_isChain`), tiling the eras from `last_start - sum prior` on
(`iter_countP_containsEra`); `end_span` adds a span exactly when `now + 1`
does not wrap and passes `last_start` (`endSpan_started`, `endSpan_iter`);
`prune` removes exactly the prior spans ended by the window and returns the
range of their indices (`prune_iter_tail`, `prune_eq_some_index`).  Raising
`last_start` without touching the offsets is sound: when it moves, every prior
span has ended (`priorSpans_max`).

Eras and span indices are `u32` as `Nat` below `2 ^ 32`; `end_span`'s sums
wrap.  The sums `start + length` of `contains_era` and `prune` are at most
`last_start` on every span `iter` yields.  `last_nonzero_slash` is read by
none of these functions and is left out.
-/

/-! ## The first index of an upward-closed test -/

section FindIdx

variable {α : Type} {p : α → Bool}

variable {l : List α}

theorem forall_of_isChain_imp {a : α}
    (hc : (a :: l).IsChain (fun x y => p x = true → p y = true)) (ha : p a = true) :
    ∀ x ∈ a :: l, p x = true := by
  induction l generalizing a with
  | nil =>
    intro x hx
    rw [List.mem_singleton.mp hx]
    exact ha
  | cons b t ih =>
    obtain ⟨hab, hc'⟩ := List.isChain_cons_cons.mp hc
    intro x hx
    rcases List.mem_cons.mp hx with rfl | hx
    · exact ha
    · exact ih hc' (hab ha) x hx

theorem filter_eq_take_of_findIdx_eq {o : Nat}
    (hc : l.IsChain (fun x y => p x = true → p y = true)) (h : l.findIdx? p = some o) :
    l.filter (fun x => !p x) = l.take o ∧ l.filter p = l.drop o := by
  induction l generalizing o with
  | nil => cases h
  | cons a t ih =>
    rw [List.findIdx?_cons] at h
    by_cases ha : p a = true
    · -- the head passes: so does everything after it
      rw [if_pos ha, Option.some_inj] at h
      subst h
      have hall := forall_of_isChain_imp hc ha
      refine ⟨?_, ?_⟩
      · rw [List.take_zero, List.filter_eq_nil_iff]
        intro x hx
        simp [hall x hx]
      · exact List.filter_eq_self.mpr hall
    · rw [if_neg ha] at h
      obtain ⟨o', ho', rfl⟩ := Option.map_eq_some_iff.mp h
      obtain ⟨ih₁, ih₂⟩ := ih hc.tail ho'
      have hna : p a = false := by simpa using ha
      refine ⟨?_, ?_⟩
      · rw [List.filter_cons_of_pos (by simp [hna]), ih₁, List.take_succ_cons]
      · rw [List.filter_cons_of_neg ha, ih₂, List.drop_succ_cons]

end FindIdx

namespace PalletStaking

/-- `SlashingSpan`: a range of eras; the ongoing span has no length. -/
structure SlashingSpan where
  index : Nat
  start : Nat
  length : Option Nat
  deriving DecidableEq, Repr

namespace SlashingSpan

/-- `contains_era`. -/
def containsEra (self : SlashingSpan) (era : Nat) : Bool :=
  decide (self.start ≤ era) && self.length.elim true (fun l => decide (self.start + l > era))

/-- The test `prune` makes of a span: it has ended by `windowStart`. -/
def endedBy (span : SlashingSpan) (windowStart : Nat) : Bool :=
  span.length.elim false (fun len => decide (span.start + len ≤ windowStart))

/-- The era after the span's last one, once it has a length. -/
def endEra (span : SlashingSpan) : Option Nat :=
  span.length.map (span.start + ·)

theorem endedBy_of_endEra_eq {newer older : SlashingSpan} {ws : Nat}
    (h : older.endEra = some newer.start) (hn : newer.endedBy ws = true) :
    older.endedBy ws = true := by
  obtain ⟨len, hlen⟩ : ∃ len, older.length = some len := Option.isSome_iff_exists.mp (by
    simpa [endEra] using congrArg Option.isSome h)
  obtain ⟨nlen, hnlen⟩ : ∃ nlen, newer.length = some nlen := Option.isSome_iff_exists.mp (by
    cases hn' : newer.length <;> simp_all [endedBy])
  simp only [endEra, hlen, Option.map_some, Option.some_inj] at h
  simp only [endedBy, hnlen, Option.elim, decide_eq_true_eq] at hn
  simp only [endedBy, hlen, Option.elim, decide_eq_true_eq]
  omega

end SlashingSpan

/-- `SlashingSpans`: the ongoing span's index and start, and the lengths of
the earlier spans, most recent first. -/
structure SlashingSpans where
  spanIndex : Nat
  lastStart : Nat
  prior : List Nat
  deriving DecidableEq, Repr

/-- The prior spans `iter` rebuilds from the lengths, the span after them
starting at `lastStart` with index `index`. -/
def priorSpans : Nat → Nat → List Nat → List SlashingSpan
  | _, _, [] => []
  | lastStart, index, length :: rest =>
    let start := lastStart - length
    ⟨index - 1, start, some length⟩ :: priorSpans start (index - 1) rest

namespace SlashingSpans

/-- `SlashingSpans::new`. -/
def new (windowStart : Nat) : SlashingSpans := ⟨0, windowStart, []⟩

/-- `end_span`: the record after it, and whether a span was started. -/
def endSpan (self : SlashingSpans) (now : Nat) : SlashingSpans × Bool :=
  let nextStart := U32.wrappingAdd now 1
  if nextStart ≤ self.lastStart then (self, false)
  else
    let lastLength := nextStart - self.lastStart
    (⟨U32.wrappingAdd self.spanIndex 1, nextStart, lastLength :: self.prior⟩, true)

/-- `iter`: the ongoing span, then the prior ones, most recent first. -/
def iter (self : SlashingSpans) : List SlashingSpan :=
  ⟨self.spanIndex, self.lastStart, none⟩ :: priorSpans self.lastStart self.spanIndex self.prior

/-- `prune`: the record after it, and the range of the pruned span indices. -/
def prune (self : SlashingSpans) (windowStart : Nat) : SlashingSpans × Option (Nat × Nat) :=
  let oldIdx := (self.iter.drop 1).findIdx? (·.endedBy windowStart)
  let earliestSpanIndex := self.spanIndex - self.prior.length
  -- the ongoing span is moved up to the window's start in both branches
  let lastStart := max self.lastStart windowStart
  match oldIdx with
  | some o =>
    let prior := self.prior.take o
    (⟨self.spanIndex, lastStart, prior⟩, some (earliestSpanIndex, self.spanIndex - prior.length))
  | none => (⟨self.spanIndex, lastStart, self.prior⟩, none)

/-- What every reachable record keeps: the subtractions of `iter` stay in
range. -/
structure SpansOk (s : SlashingSpans) : Prop where
  sum_le : s.prior.sum ≤ s.lastStart
  length_le : s.prior.length ≤ s.spanIndex
  spanIndex_le : s.spanIndex ≤ s.lastStart
  lastStart_lt : s.lastStart < 2 ^ 32

/-- The records built from `new` by `end_span` and `prune`, with any eras and
`u32` window starts. -/
inductive SpansReachable : SlashingSpans → Prop
  | new (windowStart : Nat) (h : windowStart < 2 ^ 32) : SpansReachable (new windowStart)
  | endSpan {s : SlashingSpans} (now : Nat) : SpansReachable s → SpansReachable (s.endSpan now).1
  | prune {s : SlashingSpans} (windowStart : Nat) (h : windowStart < 2 ^ 32) : SpansReachable s →
      SpansReachable (s.prune windowStart).1

end SlashingSpans

/-! ## The spans `iter` rebuilds -/

section PriorSpans

variable {ls idx ws era : Nat} {prior : List Nat}

@[simp] theorem priorSpans_nil : priorSpans ls idx [] = [] := rfl

@[simp] theorem priorSpans_cons (l : Nat) (rest : List Nat) :
    priorSpans ls idx (l :: rest) =
      ⟨idx - 1, ls - l, some l⟩ :: priorSpans (ls - l) (idx - 1) rest := rfl

@[simp] theorem length_priorSpans : (priorSpans ls idx prior).length = prior.length := by
  induction prior generalizing ls idx <;> simp [*]

theorem priorSpans_take (o : Nat) :
    priorSpans ls idx (prior.take o) = (priorSpans ls idx prior).take o := by
  induction prior generalizing ls idx o with
  | nil => simp
  | cons l rest ih =>
    cases o with
    | zero => simp
    | succ o => simp [ih]

theorem map_index_priorSpans :
    (priorSpans ls idx prior).map SlashingSpan.index =
      (List.range prior.length).map (fun k => idx - (k + 1)) := by
  induction prior generalizing ls idx with
  | nil => simp
  | cons l rest ih =>
    rw [priorSpans_cons, List.map_cons, ih, List.length_cons, List.range_succ_eq_map,
      List.map_cons, List.map_map]
    congr 1
    apply List.map_congr_left
    intro k _
    simp only [Function.comp, Nat.succ_eq_add_one]
    omega

theorem isChain_priorSpans (hsum : prior.sum ≤ ls) (sp : SlashingSpan) (hsp : sp.start = ls) :
    (sp :: priorSpans ls idx prior).IsChain
      (fun newer older => older.endEra = some newer.start) := by
  induction prior generalizing ls idx sp with
  | nil => exact List.isChain_singleton sp
  | cons l rest ih =>
    rw [List.sum_cons] at hsum
    rw [priorSpans_cons, List.isChain_cons_cons]
    refine ⟨?_, ih (by omega) _ rfl⟩
    simp only [SlashingSpan.endEra, Option.map_some, hsp]
    congr 1
    omega

theorem countP_containsEra_priorSpans (hsum : prior.sum ≤ ls) :
    (priorSpans ls idx prior).countP (·.containsEra era) =
      if ls - prior.sum ≤ era ∧ era < ls then 1 else 0 := by
  induction prior generalizing ls idx with
  | nil =>
    rw [priorSpans_nil, List.countP_nil, List.sum_nil]
    split_ifs <;> omega
  | cons l rest ih =>
    rw [List.sum_cons] at hsum ⊢
    rw [priorSpans_cons, List.countP_cons, ih (by omega)]
    simp only [SlashingSpan.containsEra, Option.elim, Bool.and_eq_true, decide_eq_true_eq]
    -- the head span is `[ls - l, ls)` and the rest tile `[ls - l - rest.sum, ls - l)`
    split_ifs <;> omega

/-- Raising the start of the span after them changes none of the prior spans
when none of them has ended by `ws`. -/
theorem priorSpans_max (hsum : prior.sum ≤ ls)
    (hnot : ∀ sp ∈ priorSpans ls idx prior, sp.endedBy ws = false) :
    priorSpans (max ls ws) idx prior = priorSpans ls idx prior := by
  cases prior with
  | nil => rfl
  | cons l rest =>
    -- the most recent prior span ends at `ls`, so `ws < ls`
    have hhead := hnot _ List.mem_cons_self
    simp only [SlashingSpan.endedBy, Option.elim, decide_eq_false_iff_not] at hhead
    rw [List.sum_cons] at hsum
    rw [Nat.max_eq_left (by omega)]

end PriorSpans

namespace SlashingSpans

variable {s : SlashingSpans} {now ws era : Nat}

theorem iter_tail (s : SlashingSpans) :
    s.iter.tail = priorSpans s.lastStart s.spanIndex s.prior := rfl

/-! ## `end_span` -/

theorem endSpan_of_le (h : U32.wrappingAdd now 1 ≤ s.lastStart) : s.endSpan now = (s, false) := by
  simp [endSpan, h]

theorem endSpan_of_lt (h : s.lastStart < U32.wrappingAdd now 1) :
    s.endSpan now = (⟨U32.wrappingAdd s.spanIndex 1, U32.wrappingAdd now 1,
      (U32.wrappingAdd now 1 - s.lastStart) :: s.prior⟩, true) := by
  simp [endSpan, Nat.not_le.mpr h]

/-- For a `u32` era, `now + 1` wraps only at `u32::MAX`, to `0`. -/
theorem wrappingAdd_one_eq (hnow : now < 2 ^ 32) :
    U32.wrappingAdd now 1 = if now + 1 < 2 ^ 32 then now + 1 else 0 := by
  split_ifs with h
  · exact U32.wrappingAdd_of_lt h
  · rw [U32.wrappingAdd_of_ge hnow (by norm_num) (by omega)]
    omega

theorem endSpan_started (s : SlashingSpans) (hnow : now < 2 ^ 32) :
    (s.endSpan now).2 = true ↔ now + 1 < 2 ^ 32 ∧ s.lastStart < now + 1 := by
  by_cases h : U32.wrappingAdd now 1 ≤ s.lastStart
  · simp only [endSpan_of_le h, Bool.false_eq_true, false_iff]
    rw [wrappingAdd_one_eq hnow] at h
    split_ifs at h <;> omega
  · simp only [endSpan_of_lt (Nat.not_le.mp h), true_iff]
    rw [wrappingAdd_one_eq hnow] at h
    split_ifs at h <;> omega

/-- A started span is one more span in front: the ongoing one, now ended,
keeps its index and start. -/
theorem endSpan_iter (hs : SpansOk s) (hnow : now + 1 < 2 ^ 32) (h : s.lastStart < now + 1) :
    (s.endSpan now).1.iter =
      ⟨s.spanIndex + 1, now + 1, none⟩ :: ⟨s.spanIndex, s.lastStart, some (now + 1 - s.lastStart)⟩ ::
        s.iter.tail := by
  -- neither sum wraps: `span_index ≤ last_start < now + 1`
  have hidx : U32.wrappingAdd s.spanIndex 1 = s.spanIndex + 1 := U32.wrappingAdd_of_lt (by
    have := hs.spanIndex_le
    omega)
  have hstart : now + 1 - (now + 1 - s.lastStart) = s.lastStart := by omega
  rw [endSpan_of_lt (by rwa [U32.wrappingAdd_of_lt hnow]), U32.wrappingAdd_of_lt hnow, hidx, iter_tail]
  simp only [iter, priorSpans_cons, Nat.add_sub_cancel, hstart]

theorem endSpan_unchanged (h : (s.endSpan now).2 = false) : (s.endSpan now).1 = s := by
  by_cases hle : U32.wrappingAdd now 1 ≤ s.lastStart
  · rw [endSpan_of_le hle]
  · rw [endSpan_of_lt (Nat.not_le.mp hle)] at h
    cases h

/-! ## `prune` -/

theorem exists_sub_succ_eq_iff {n o len i : Nat} (hlen : len ≤ n) (ho : o ≤ len) :
    (∃ k, (o ≤ k ∧ k < o + (len - o)) ∧ n - (k + 1) = i) ↔ n - len ≤ i ∧ i < n - o := by
  constructor
  · rintro ⟨k, ⟨hk₁, hk₂⟩, rfl⟩
    omega
  · rintro ⟨hi₁, hi₂⟩
    exact ⟨n - (i + 1), ⟨by omega, by omega⟩, by omega⟩

theorem prune_of_findIdx_some {o : Nat}
    (h : s.iter.tail.findIdx? (·.endedBy ws) = some o) :
    s.prune ws = (⟨s.spanIndex, max s.lastStart ws, s.prior.take o⟩,
      some (s.spanIndex - s.prior.length, s.spanIndex - (s.prior.take o).length)) := by
  simp only [prune, List.drop_one, h]

theorem prune_of_findIdx_none (h : s.iter.tail.findIdx? (·.endedBy ws) = none) :
    s.prune ws = (⟨s.spanIndex, max s.lastStart ws, s.prior⟩, none) := by
  simp only [prune, List.drop_one, h]

@[simp] theorem prune_spanIndex (s : SlashingSpans) (ws : Nat) : (s.prune ws).1.spanIndex = s.spanIndex := by
  cases h : s.iter.tail.findIdx? (·.endedBy ws) with
  | none => rw [prune_of_findIdx_none h]
  | some o => rw [prune_of_findIdx_some h]

@[simp] theorem prune_lastStart (s : SlashingSpans) (ws : Nat) :
    (s.prune ws).1.lastStart = max s.lastStart ws := by
  cases h : s.iter.tail.findIdx? (·.endedBy ws) with
  | none => rw [prune_of_findIdx_none h]
  | some o => rw [prune_of_findIdx_some h]

theorem prune_eq_none_iff (s : SlashingSpans) (ws : Nat) :
    (s.prune ws).2 = none ↔ ∀ sp ∈ s.iter.tail, sp.endedBy ws = false := by
  rw [← List.findIdx?_eq_none_iff]
  cases h : s.iter.tail.findIdx? (·.endedBy ws) with
  | none => simp [prune_of_findIdx_none h]
  | some o => simp [prune_of_findIdx_some h]

theorem iter_tail_isChain_endedBy (hs : SpansOk s) (ws : Nat) :
    s.iter.tail.IsChain (fun x y => x.endedBy ws = true → y.endedBy ws = true) := by
  have hc : s.iter.IsChain (fun newer older => older.endEra = some newer.start) :=
    isChain_priorSpans hs.sum_le _ rfl
  exact (hc.imp fun _ _ h => SlashingSpan.endedBy_of_endEra_eq h).tail

/-- `prune` keeps exactly the prior spans that have not ended by `ws`, with
their boundaries. -/
theorem prune_iter_tail (hs : SpansOk s) (ws : Nat) :
    (s.prune ws).1.iter.tail = s.iter.tail.filter (fun sp => !sp.endedBy ws) := by
  cases h : s.iter.tail.findIdx? (·.endedBy ws) with
  | none =>
    have hnot := List.findIdx?_eq_none_iff.mp h
    rw [prune_of_findIdx_none h, List.filter_eq_self.mpr (by simpa using hnot)]
    exact priorSpans_max hs.sum_le hnot
  | some o =>
    obtain ⟨hkeep, -⟩ := filter_eq_take_of_findIdx_eq (iter_tail_isChain_endedBy hs ws) h
    rw [prune_of_findIdx_some h, hkeep]
    -- the kept spans are the first `o`, none of which has ended by `ws`
    have hnot : ∀ sp ∈ priorSpans s.lastStart s.spanIndex (s.prior.take o), sp.endedBy ws = false := by
      intro sp hsp
      rw [priorSpans_take, ← iter_tail, ← hkeep] at hsp
      simpa using (List.mem_filter.mp hsp).2
    have hsum : (s.prior.take o).sum ≤ s.lastStart := by
      have := List.sum_take_add_sum_drop s.prior o
      have := hs.sum_le
      omega
    show priorSpans (max s.lastStart ws) s.spanIndex (s.prior.take o) = s.iter.tail.take o
    rw [priorSpans_max hsum hnot, priorSpans_take, iter_tail]

/-- The range `prune` returns is the set of the indices of the spans it
removes. -/
theorem prune_eq_some_index (hs : SpansOk s) {a b : Nat} (hab : (s.prune ws).2 = some (a, b)) (i : Nat) :
    (∃ sp ∈ s.iter.tail, sp.endedBy ws = true ∧ sp.index = i) ↔ a ≤ i ∧ i < b := by
  cases h : s.iter.tail.findIdx? (·.endedBy ws) with
  | none => simp [prune_of_findIdx_none h] at hab
  | some o =>
    rw [prune_of_findIdx_some h, Option.some_inj, Prod.mk.injEq] at hab
    obtain ⟨rfl, rfl⟩ := hab
    obtain ⟨-, hremoved⟩ := filter_eq_take_of_findIdx_eq (iter_tail_isChain_endedBy hs ws) h
    have ho : o < s.prior.length := by
      obtain ⟨ho, -⟩ := List.findIdx?_eq_some_iff_getElem.mp h
      simpa [iter_tail] using ho
    have hlen := hs.length_le
    -- the removed spans are those from position `o` on, whose indices count down
    have hmem : (∃ sp ∈ s.iter.tail, sp.endedBy ws = true ∧ sp.index = i) ↔
        i ∈ ((List.range s.prior.length).drop o).map (fun k => s.spanIndex - (k + 1)) := by
      have hindex : s.iter.tail.map SlashingSpan.index =
          (List.range s.prior.length).map (fun k => s.spanIndex - (k + 1)) := map_index_priorSpans
      rw [List.map_drop, ← hindex, ← List.map_drop, ← hremoved, List.mem_map]
      simp only [List.mem_filter]
      constructor
      · rintro ⟨sp, hsp, hend, rfl⟩
        exact ⟨sp, ⟨hsp, hend⟩, rfl⟩
      · rintro ⟨sp, ⟨hsp, hend⟩, rfl⟩
        exact ⟨sp, hsp, hend, rfl⟩
    rw [hmem, List.range_eq_range', List.drop_range', List.mem_map, List.length_take,
      Nat.min_eq_left ho.le]
    simp only [List.mem_range'_1, Nat.zero_add, Nat.mul_one]
    exact exists_sub_succ_eq_iff hlen ho.le

/-! ## The invariant over every run -/

theorem SpansOk.new {windowStart : Nat} (h : windowStart < 2 ^ 32) : SpansOk (new windowStart) :=
  ⟨Nat.zero_le _, Nat.le_refl _, Nat.zero_le _, h⟩

theorem SpansOk.endSpan (hs : SpansOk s) (now : Nat) : SpansOk (s.endSpan now).1 := by
  by_cases h : U32.wrappingAdd now 1 ≤ s.lastStart
  · rw [endSpan_of_le h]
    exact hs
  · -- the new offset is the ended span's length, so the sum grows to the new start
    rw [endSpan_of_lt (Nat.not_le.mp h)]
    have := hs.sum_le
    have := hs.length_le
    have := hs.spanIndex_le
    have hlt := U32.wrappingAdd_lt now 1
    -- the index does not wrap: it stays at most the new start
    have hidx : U32.wrappingAdd s.spanIndex 1 = s.spanIndex + 1 := U32.wrappingAdd_of_lt (by omega)
    refine ⟨?_, ?_, ?_, hlt⟩
    · simp only [List.sum_cons]
      omega
    · simp only [List.length_cons, hidx]
      omega
    · simp only [hidx]
      omega

theorem SpansOk.prune (hs : SpansOk s) {ws : Nat} (hws : ws < 2 ^ 32) : SpansOk (s.prune ws).1 := by
  have := hs.sum_le
  have := hs.length_le
  have := hs.spanIndex_le
  have := hs.lastStart_lt
  cases h : s.iter.tail.findIdx? (·.endedBy ws) with
  | none =>
    rw [prune_of_findIdx_none h]
    exact ⟨by simp only; omega, hs.length_le, by simp only; omega, by simp only; omega⟩
  | some o =>
    -- truncating `prior` only lowers its sum and length, and `last_start` only grows
    rw [prune_of_findIdx_some h]
    have := List.sum_take_add_sum_drop s.prior o
    have := List.length_take_le' o s.prior
    exact ⟨by simp only; omega, by simp only; omega, by simp only; omega, by simp only; omega⟩

/-- Every reachable record keeps the invariant. -/
theorem SpansReachable.ok (h : SpansReachable s) : SpansOk s := by
  induction h with
  | new windowStart h => exact SpansOk.new h
  | endSpan now _ ih => exact ih.endSpan now
  | prune ws h _ ih => exact ih.prune h

/-! ## `iter` on a record that keeps the invariant -/

/-- `iter` yields the indices `span_index` down to `span_index - prior.len()`. -/
theorem iter_map_index (s : SlashingSpans) :
    s.iter.map SlashingSpan.index = (List.range (s.prior.length + 1)).map (s.spanIndex - ·) := by
  rw [List.range_succ_eq_map, List.map_cons, List.map_map, iter, List.map_cons,
    map_index_priorSpans]
  rfl

theorem iter_isChain (hs : SpansOk s) :
    s.iter.IsChain (fun newer older => older.endEra = some newer.start) :=
  isChain_priorSpans hs.sum_le _ rfl

/-- The spans tile the eras from `last_start - sum prior` on: each is in
exactly one span. -/
theorem iter_countP_containsEra (hs : SpansOk s) (hera : s.lastStart - s.prior.sum ≤ era) :
    s.iter.countP (·.containsEra era) = 1 := by
  rw [iter, List.countP_cons, countP_containsEra_priorSpans hs.sum_le]
  simp only [SlashingSpan.containsEra, Option.elim, Bool.and_true, decide_eq_true_eq]
  -- the ongoing span holds the eras from `last_start` on, the prior ones those below
  split_ifs <;> omega

theorem slashingSpans_reachable_spec (hs : SpansReachable s) :
    (s.prior.sum ≤ s.lastStart ∧ s.prior.length ≤ s.spanIndex ∧ s.spanIndex ≤ s.lastStart ∧
        s.lastStart < 2 ^ 32) ∧
      s.iter.map SlashingSpan.index = (List.range (s.prior.length + 1)).map (s.spanIndex - ·) ∧
      s.iter.IsChain (fun newer older => older.endEra = some newer.start) ∧
      (∀ era, s.lastStart - s.prior.sum ≤ era → s.iter.countP (·.containsEra era) = 1) ∧
      (∀ now, now < 2 ^ 32 → ((s.endSpan now).2 = true ↔ now + 1 < 2 ^ 32 ∧ s.lastStart < now + 1) ∧
        ((s.endSpan now).2 = true → (s.endSpan now).1.iter =
          ⟨s.spanIndex + 1, now + 1, none⟩ :: ⟨s.spanIndex, s.lastStart, some (now + 1 - s.lastStart)⟩ ::
            s.iter.tail) ∧
        ((s.endSpan now).2 = false → (s.endSpan now).1 = s)) ∧
      (∀ ws, (s.prune ws).1.lastStart = max s.lastStart ws ∧ (s.prune ws).1.spanIndex = s.spanIndex ∧
        (s.prune ws).1.iter.tail = s.iter.tail.filter (fun sp => !sp.endedBy ws) ∧
        ((s.prune ws).2 = none ↔ ∀ sp ∈ s.iter.tail, sp.endedBy ws = false) ∧
        ∀ a b, (s.prune ws).2 = some (a, b) →
          ∀ i, (∃ sp ∈ s.iter.tail, sp.endedBy ws = true ∧ sp.index = i) ↔ a ≤ i ∧ i < b) := by
  have hok := hs.ok
  refine ⟨⟨hok.sum_le, hok.length_le, hok.spanIndex_le, hok.lastStart_lt⟩, iter_map_index s, iter_isChain hok,
    fun era hera => iter_countP_containsEra hok hera, fun now hnow => ?_, fun ws => ?_⟩
  · have hstarted := endSpan_started s hnow
    refine ⟨hstarted, fun h => ?_, endSpan_unchanged⟩
    obtain ⟨hfits, hlt⟩ := hstarted.mp h
    exact endSpan_iter hok hfits hlt
  · exact ⟨prune_lastStart s ws, prune_spanIndex s ws, prune_iter_tail hok ws,
      prune_eq_none_iff s ws, fun _ _ hab i => prune_eq_some_index hok hab i⟩

theorem slashingSpans_reachable_spec_two_spans :
    ((SlashingSpans.new 3).endSpan 5).1.iter = [⟨1, 6, none⟩, ⟨0, 3, some 3⟩] ∧
      (((SlashingSpans.new 3).endSpan 5).1.prune 7).2 = some (0, 1) ∧
      ∀ era, 3 ≤ era → ((SlashingSpans.new 3).endSpan 5).1.iter.countP (·.containsEra era) = 1 :=
  ⟨by decide, by decide,
    fun era h => (slashingSpans_reachable_spec (.endSpan 5 (.new 3 (by norm_num)))).2.2.2.1 era h⟩

/-- At era `u32::MAX`, `now + 1` wraps to `0`: no span is started though
`now + 1 > last_start`. -/
theorem endSpan_at_max_era :
    (SlashingSpans.new 0).lastStart < (2 ^ 32 - 1) + 1 ∧
      (SlashingSpans.new 0).endSpan (2 ^ 32 - 1) = (SlashingSpans.new 0, false) :=
  ⟨by decide, endSpan_of_le (by decide)⟩

end SlashingSpans

end PalletStaking
