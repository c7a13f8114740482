import CherryNode.StateMachine.ChangesetSpec
import CherryNode.StateMachine.OverlayedChanges
import CherryNode.Lib.Run

/-!
# The change sets of `OverlayedChanges` move in lockstep

The `expect`s of `OverlayedChanges` say every child change set and the offchain
overlay share the top one's depth, mode and `num_client_transactions`
(`OverlayedMap.sync`).  `Lockstep` states that, and that each change set
implements a stack of snapshots (`WellFormed`).  Every call keeps it
(`Lockstep.apply`), so no run from the default panics; in runtime mode a commit
or rollback at a depth at most `num_client_transactions` fails with
`NoOpenTransaction` and changes nothing, and `exit_runtime` rolls back exactly
the transactions opened since `enter_runtime`.
-/

namespace StateMachine

/-! ## One change set -/

section OneChangeset

variable {K V : Type} [LinearOrder K]
variable {m m' : OverlayedMap K V} {rollback : Bool}

/-- What change sets in lockstep agree on: the depth, the mode, and the depth
below which the runtime may not close a transaction. -/
def OverlayedMap.sync (m : OverlayedMap K V) : Nat × ExecutionMode × Nat :=
  (m.transactionDepth, m.executionMode, m.numClientTransactions)

/-- A change set that implements some stack of snapshots. -/
def OverlayedMap.WellFormed (m : OverlayedMap K V) : Prop := ∃ s, Refines m s

theorem OverlayedMap.sync_set (m : OverlayedMap K V) (key : K) (v : V) (x : Option Nat) :
    (m.set key v x).sync = m.sync := by
  show ((insertDirty m.dirtyKeys key).1.length, m.executionMode, m.numClientTransactions) = _
  rw [length_insertDirty]
  rfl

theorem OverlayedMap.sync_clearWhere {W : Type} (m : OverlayedMap K (Option W))
    (predicate : K → OverlayedEntry (Option W) → Bool) (x : Option Nat) : (m.clearWhere predicate x).sync = m.sync := by
  obtain ⟨-, -, hlen, -, hnct, hmode⟩ := clearLoop predicate x m
  unfold OverlayedMap.sync OverlayedMap.transactionDepth
  rw [hlen, hnct, hmode]

theorem OverlayedMap.sync_startTransaction (m : OverlayedMap K V) :
    m.startTransaction.sync = (m.sync.1 + 1, m.sync.2) := rfl

theorem OverlayedMap.sync_spawnChild (m : OverlayedMap K V) : m.spawnChild.sync = m.sync := by
  unfold OverlayedMap.sync OverlayedMap.spawnChild
  simp only [OverlayedMap.transactionDepth, List.length_replicate]

variable {K' V' : Type} {s : Snapshots (Level K V)}

theorem OverlayedMap.sync_eq_iff [LinearOrder K'] (m : OverlayedMap K V) (m' : OverlayedMap K' V') :
    m.sync = m'.sync ↔ m.transactionDepth = m'.transactionDepth ∧ m.executionMode = m'.executionMode ∧
      m.numClientTransactions = m'.numClientTransactions := by
  simp only [OverlayedMap.sync, Prod.mk.injEq]

theorem OverlayedMap.sync_eq_mk_iff (m : OverlayedMap K V) (d : Nat) (e : ExecutionMode) (n : Nat) :
    m.sync = (d, e, n) ↔ m.transactionDepth = d ∧ m.executionMode = e ∧ m.numClientTransactions = n := by
  simp only [OverlayedMap.sync, Prod.mk.injEq]

theorem OverlayedMap.mayClose_of_sync [LinearOrder K']
    {m' : OverlayedMap K' V'} (h : m.sync = m'.sync) (hm : m.MayClose) : m'.MayClose := by
  obtain ⟨hdepth, hmode, hnct⟩ := (OverlayedMap.sync_eq_iff m m').mp h
  intro hrt
  have := hm (hmode ▸ hrt)
  unfold OverlayedMap.hasOpenRuntimeTransactions at this ⊢
  rwa [← hdepth, ← hnct]

theorem closeTransaction_of_not_mayClose (h : ¬m.MayClose) (rollback : Bool) :
    m.closeTransaction rollback = some (.error ⟨⟩) := by
  have hguard : m.executionMode = .runtime ∧ m.hasOpenRuntimeTransactions = false := by
    by_contra hc
    refine h fun hrt => ?_
    cases hopen : m.hasOpenRuntimeTransactions
    · exact absurd ⟨hrt, hopen⟩ hc
    · rfl
  unfold OverlayedMap.closeTransaction
  rw [if_pos hguard]

theorem closeTransaction_ok_mayClose
    (h : m.closeTransaction rollback = some (.ok m')) : m.MayClose ∧ 0 < m.transactionDepth := by
  by_cases hguard : m.MayClose
  · refine ⟨hguard, Nat.pos_of_ne_zero fun h0 => ?_⟩
    have hd : m.dirtyKeys = [] := List.eq_nil_of_length_eq_zero h0
    unfold OverlayedMap.closeTransaction at h
    rw [hd] at h
    split_ifs at h <;> cases h
  · rw [closeTransaction_of_not_mayClose hguard] at h
    cases h

theorem closeTransaction_ok_sync
    (h : m.closeTransaction rollback = some (.ok m')) : m'.sync = (m.sync.1 - 1, m.sync.2) := by
  unfold OverlayedMap.closeTransaction at h
  split_ifs at h
  · cases h
  cases hd : m.dirtyKeys with
  | nil =>
    rw [hd] at h
    cases h
  | cons dk rest =>
    rw [hd] at h
    obtain ⟨m'', hloop, hm''⟩ := Option.map_eq_some_iff.mp h
    cases hm''
    obtain ⟨hlen, -, hnct, hmode⟩ := foldlM_dirtyStep (fun _ _ _ => closeKey_dirtyStep) dk _ m' hloop
    unfold OverlayedMap.sync OverlayedMap.transactionDepth
    rw [hlen, hnct, hmode, hd]
    rfl

theorem closeTransaction_ok_frame
    (h : m.closeTransaction rollback = some (.ok m')) :
    m'.transactionDepth = m.transactionDepth - 1 ∧ m'.executionMode = m.executionMode ∧
      m'.numClientTransactions = m.numClientTransactions := by
  exact (OverlayedMap.sync_eq_mk_iff _ _ _ _).mp (closeTransaction_ok_sync h)

theorem Refines.withMode (h : Refines m s)
    (mode : ExecutionMode) (n : Nat) : Refines { m with executionMode := mode, numClientTransactions := n } s :=
  ⟨h.depth, h.nodup, h.nonempty, h.agrees⟩

theorem enterRuntime_of_client (h : m.executionMode = .client) :
    m.enterRuntime = .ok { m with executionMode := .runtime, numClientTransactions := m.transactionDepth } := by
  unfold OverlayedMap.enterRuntime
  rw [if_neg (by rw [h]; exact ExecutionMode.noConfusion)]

theorem enterRuntime_of_runtime (h : m.executionMode = .runtime) :
    m.enterRuntime = .error ⟨⟩ := by
  unfold OverlayedMap.enterRuntime
  rw [if_pos h]

theorem keyAgrees_replicate (d : Nat) :
    KeyAgrees ([] : List (InnerValue V)) (List.replicate d false) (List.replicate (d + 1) (none, ∅)) := by
  induction d with
  | zero => exact .absent ∅
  | succ d ih => exact .clean ∅ ih

theorem Refines.spawnChild (m : OverlayedMap K V) :
    Refines m.spawnChild ⟨Level.empty, List.replicate m.transactionDepth Level.empty⟩ where
  depth := by
    simp only [OverlayedMap.spawnChild, OverlayedMap.transactionDepth, Snapshots.depth, List.length_replicate]
  nodup dk hdk := by
    rw [List.eq_of_mem_replicate hdk]
    exact List.nodup_nil
  nonempty _ := (Option.some_ne_none _).symm
  agrees k := by
    have hmarks : marksOf (List.replicate m.transactionDepth ([] : List K)) k = List.replicate m.transactionDepth false := by
      simp [marksOf, List.map_replicate]
    show KeyAgrees [] (marksOf (List.replicate m.transactionDepth []) k)
      ((Level.empty :: List.replicate m.transactionDepth Level.empty).map (·.atKey k))
    rw [hmarks, List.map_cons, List.map_replicate, ← List.replicate_succ]
    exact keyAgrees_replicate m.transactionDepth

theorem OverlayedMap.WellFormed.closeTransaction (h : m.WellFormed) (hguard : m.MayClose)
    (hpos : 0 < m.transactionDepth) (rollback : Bool) :
    ∃ m', m.closeTransaction rollback = some (.ok m') ∧ m'.WellFormed := by
  obtain ⟨s, hs⟩ := h
  have hpos' : 0 < s.depth := hs.depth ▸ hpos
  cases rollback with
  | true =>
    obtain ⟨m', s', hm', -, hr, -⟩ := hs.rollbackTransaction hguard hpos'
    exact ⟨m', hm', s', hr⟩
  | false =>
    obtain ⟨m', s', hm', -, hr, -⟩ := hs.commitTransaction hguard hpos'
    exact ⟨m', hm', s', hr⟩

/-- **The loop of `exit_runtime`** (the mode already back to client): it rolls
back one transaction a round until the depth is `num_client_transactions`, so
the stack loses exactly its top `depth - num_client_transactions` levels. -/
theorem Refines.rollbackRuntimeTransactions :
    ∀ (fuel : Nat) (m : OverlayedMap K V) (s : Snapshots (Level K V)), Refines m s →
      m.executionMode = .client → m.numClientTransactions ≤ m.transactionDepth →
      m.transactionDepth - m.numClientTransactions ≤ fuel →
      ∃ m', OverlayedMap.rollbackRuntimeTransactions fuel m = some m' ∧
        Refines m' ((fun s => s.rollback.getD s)^[m.transactionDepth - m.numClientTransactions] s) ∧
        m'.transactionDepth = m.numClientTransactions ∧ m'.numClientTransactions = m.numClientTransactions ∧
        m'.executionMode = .client
  | 0, m, s, h, hmode, hle, hfuel => by
    have hd : m.transactionDepth - m.numClientTransactions = 0 := Nat.le_zero.mp hfuel
    refine ⟨m, rfl, by rw [hd]; exact h, by omega, rfl, hmode⟩
  | fuel + 1, m, s, h, hmode, hle, hfuel => by
    unfold OverlayedMap.rollbackRuntimeTransactions
    by_cases hopen : m.hasOpenRuntimeTransactions = true
    · rw [if_pos hopen]
      have hlt : m.numClientTransactions < m.transactionDepth := by
        simpa [OverlayedMap.hasOpenRuntimeTransactions] using hopen
      have hguard : m.MayClose := fun hrt => by rw [hmode] at hrt; cases hrt
      obtain ⟨m₁, s₁, hm₁, hs₁, hr₁, hnct₁, hmode₁⟩ :=
        h.rollbackTransaction hguard (h.depth ▸ Nat.lt_of_le_of_lt (Nat.zero_le _) hlt)
      -- one round pops one level
      have hdepth₁ : m₁.transactionDepth + 1 = m.transactionDepth := by
        rw [hr₁.depth, h.depth]
        exact Snapshots.depth_of_rollback hs₁
      rw [hm₁]
      obtain ⟨m', hm', hr', hd', hnct', hmode'⟩ :=
        Refines.rollbackRuntimeTransactions fuel m₁ s₁ hr₁ (hmode₁.trans hmode) (by omega) (by omega)
      refine ⟨m', hm', ?_, by omega, by omega, hmode'⟩
      have hsteps : m.transactionDepth - m.numClientTransactions =
          m₁.transactionDepth - m₁.numClientTransactions + 1 := by omega
      rw [hsteps, Function.iterate_succ_apply, hs₁, Option.getD_some]
      exact hr'
    · rw [if_neg hopen]
      have hd : m.transactionDepth - m.numClientTransactions = 0 := by
        simp [OverlayedMap.hasOpenRuntimeTransactions] at hopen
        omega
      exact ⟨m, rfl, by rw [hd]; exact h, by omega, rfl, hmode⟩

theorem Refines.exitRuntime (h : Refines m s)
    (hmode : m.executionMode = .runtime) (hle : m.numClientTransactions ≤ m.transactionDepth) :
    ∃ m', m.exitRuntime = some (.ok m') ∧
      Refines m' ((fun s => s.rollback.getD s)^[m.transactionDepth - m.numClientTransactions] s) ∧
      m'.sync = (m.numClientTransactions, .client, m.numClientTransactions) := by
  obtain ⟨m', hm', hr, hd, hnct, hmode'⟩ := Refines.rollbackRuntimeTransactions m.transactionDepth
    { m with executionMode := .client } s (h.withMode _ _) rfl hle (Nat.sub_le _ _)
  refine ⟨m', ?_, hr, ?_⟩
  · unfold OverlayedMap.exitRuntime
    rw [if_neg (by rw [hmode]; exact ExecutionMode.noConfusion), hm']
    rfl
  · unfold OverlayedMap.sync
    rw [hd, hnct, hmode']

/-! ### A change set in step with the top one makes the top one's call -/

section InStep

variable {K' V' : Type} [LinearOrder K'] {cs : OverlayedMap K' V'} {top : OverlayedMap K V}

theorem closeTransaction_inStep (hsync : cs.sync = top.sync) (hwf : cs.WellFormed)
    {top' : OverlayedMap K V} (htop : top.closeTransaction rollback = some (.ok top')) :
    ∃ cs', cs.closeTransaction rollback = some (.ok cs') ∧ cs'.sync = top'.sync ∧ cs'.WellFormed := by
  obtain ⟨hguard, hpos⟩ := closeTransaction_ok_mayClose htop
  have hdepth := ((OverlayedMap.sync_eq_iff cs top).mp hsync).1
  obtain ⟨cs', hcs', hwf'⟩ :=
    hwf.closeTransaction (OverlayedMap.mayClose_of_sync hsync.symm hguard) (hdepth ▸ hpos) rollback
  refine ⟨cs', hcs', ?_, hwf'⟩
  rw [closeTransaction_ok_sync hcs', closeTransaction_ok_sync htop, hsync]

theorem enterRuntime_inStep (hsync : cs.sync = top.sync) (hclient : top.executionMode = .client) :
    ∃ cs', cs.enterRuntime = .ok cs' ∧ cs'.sync = (top.transactionDepth, .runtime, top.transactionDepth) ∧
      (cs.WellFormed → cs'.WellFormed) := by
  obtain ⟨hdepth, hmode, -⟩ := (OverlayedMap.sync_eq_iff cs top).mp hsync
  refine ⟨_, enterRuntime_of_client (hmode.trans hclient), ?_, fun ⟨s, hs⟩ => ⟨s, hs.withMode _ _⟩⟩
  unfold OverlayedMap.sync
  rw [← hdepth]
  rfl

theorem exitRuntime_inStep (hsync : cs.sync = top.sync) (hwf : cs.WellFormed) (hruntime : top.executionMode = .runtime)
    (hle : top.numClientTransactions ≤ top.transactionDepth) :
    ∃ cs', cs.exitRuntime = some (.ok cs') ∧
      cs'.sync = (top.numClientTransactions, .client, top.numClientTransactions) ∧ cs'.WellFormed := by
  obtain ⟨hdepth, hmode, hnct⟩ := (OverlayedMap.sync_eq_iff cs top).mp hsync
  obtain ⟨s, hs⟩ := hwf
  obtain ⟨cs', hcs', hr, hsync'⟩ := hs.exitRuntime (hmode.trans hruntime) (by rw [hdepth, hnct]; exact hle)
  exact ⟨cs', hcs', by rw [hsync', hnct], _, hr⟩

end InStep

end OneChangeset

/-! ## `OverlayedChanges` -/

section Changes

variable {K W : Type} [LinearOrder K] {o : OverlayedChanges K W}

/-- **Lockstep**: every child change set and the offchain overlay share the
top one's depth, mode and protected depth; every change set is well formed;
and in runtime mode the protected depth is at most the depth. -/
structure Lockstep (o : OverlayedChanges K W) : Prop where
  top : o.top.WellFormed
  runtime : o.top.executionMode = .runtime → o.top.numClientTransactions ≤ o.top.transactionDepth
  children : ∀ storageKey changeset, o.children.get? storageKey = some changeset →
    changeset.sync = o.top.sync ∧ changeset.WellFormed
  offchain : o.offchain.sync = o.top.sync ∧ o.offchain.WellFormed

theorem Lockstep.default : Lockstep (default : OverlayedChanges K W) where
  top := ⟨_, Refines.default⟩
  runtime h := nomatch h
  children _ _ h := nomatch h
  offchain := ⟨rfl, _, Refines.default⟩

variable {top' : OverlayedMap K (Option W)}

theorem Lockstep.withTop (h : Lockstep o) (hsync : top'.sync = o.top.sync)
    (hwf : top'.WellFormed) : Lockstep { o with top := top' } where
  top := hwf
  runtime hrt := by
    obtain ⟨hdepth, hmode, hnct⟩ := (OverlayedMap.sync_eq_iff top' o.top).mp hsync
    dsimp only at hrt ⊢
    rw [hdepth, hnct]
    exact h.runtime (hmode ▸ hrt)
  children sk cs hcs := ⟨(h.children sk cs hcs).1.trans hsync.symm, (h.children sk cs hcs).2⟩
  offchain := ⟨h.offchain.1.trans hsync.symm, h.offchain.2⟩

theorem Lockstep.withChild (h : Lockstep o) (storageKey : K)
    {write : OverlayedMap K (Option W) → OverlayedMap K (Option W)}
    (hwrite : ∀ cs, cs.WellFormed → (write cs).sync = cs.sync ∧ (write cs).WellFormed) :
    Lockstep (o.withChild storageKey write) where
  top := h.top
  runtime := h.runtime
  children sk cs hcs := by
    unfold OverlayedChanges.withChild at hcs
    dsimp only at hcs ⊢
    rw [OrdMap.get?_insert] at hcs
    split_ifs at hcs with hk
    · -- the child written: the one there, or one spawned from the top one
      cases hcs
      cases hget : o.children.get? storageKey with
      | none =>
        obtain ⟨hsync, hwf⟩ := hwrite _ ⟨_, Refines.spawnChild o.top⟩
        exact ⟨hsync.trans (OverlayedMap.sync_spawnChild o.top), hwf⟩
      | some cs₀ =>
        obtain ⟨hsync₀, hwf₀⟩ := h.children storageKey cs₀ hget
        obtain ⟨hsync, hwf⟩ := hwrite cs₀ hwf₀
        exact ⟨hsync.trans hsync₀, hwf⟩
    · exact h.children sk cs hcs
  offchain := h.offchain

theorem Lockstep.setStorage (h : Lockstep o) (key : K) (val : Option W) (x : Option Nat) :
    Lockstep (o.setStorage key val x) :=
  let ⟨_, hs⟩ := h.top
  h.withTop (OverlayedMap.sync_set _ _ _ _) ⟨_, hs.set key val x⟩

theorem Lockstep.clearPrefix (h : Lockstep o) (hasPrefix : K → Bool) (x : Option Nat) :
    Lockstep (o.clearPrefix hasPrefix x) :=
  let ⟨_, hs⟩ := h.top
  h.withTop (OverlayedMap.sync_clearWhere _ _ _) ⟨_, hs.clearWhere hasPrefix x⟩

theorem Lockstep.setChildStorage (h : Lockstep o) (storageKey key : K) (val : Option W) (x : Option Nat) :
    Lockstep (o.setChildStorage storageKey key val x) :=
  h.withChild storageKey fun _ ⟨_, hs⟩ => ⟨OverlayedMap.sync_set _ _ _ _, _, hs.set key val x⟩

theorem Lockstep.clearChildStorage (h : Lockstep o) (storageKey : K) (x : Option Nat) :
    Lockstep (o.clearChildStorage storageKey x) :=
  h.withChild storageKey fun _ ⟨_, hs⟩ => ⟨OverlayedMap.sync_clearWhere _ _ _, _, hs.clearWhere (fun _ => true) x⟩

theorem Lockstep.clearChildPrefix (h : Lockstep o) (storageKey : K) (hasPrefix : K → Bool) (x : Option Nat) :
    Lockstep (o.clearChildPrefix storageKey hasPrefix x) :=
  h.withChild storageKey fun _ ⟨_, hs⟩ => ⟨OverlayedMap.sync_clearWhere _ _ _, _, hs.clearWhere hasPrefix x⟩

theorem Lockstep.setOffchainStorage (h : Lockstep o) (storagePrefix key : K) (value : Option W) :
    Lockstep (o.setOffchainStorage storagePrefix key value) :=
  let ⟨_, hs⟩ := h.offchain.2
  { h with offchain := ⟨(OverlayedMap.sync_set _ _ _ _).trans h.offchain.1, _, hs.set _ _ none⟩ }

theorem Lockstep.startTransaction (h : Lockstep o) : Lockstep o.startTransaction where
  top := let ⟨_, hs⟩ := h.top; ⟨_, hs.startTransaction⟩
  runtime hrt := Nat.le_succ_of_le (h.runtime hrt)
  children sk cs hcs := by
    dsimp only [OverlayedChanges.startTransaction] at hcs ⊢
    rw [OrdMap.get?_mapValues] at hcs
    obtain ⟨cs₀, hget, rfl⟩ := Option.map_eq_some_iff.mp hcs
    obtain ⟨hsync, _, hs⟩ := h.children sk cs₀ hget
    exact ⟨by rw [OverlayedMap.sync_startTransaction, OverlayedMap.sync_startTransaction, hsync], _,
      hs.startTransaction⟩
  offchain := by
    obtain ⟨hsync, _, hs⟩ := h.offchain
    refine ⟨?_, _, hs.startTransaction⟩
    show o.offchain.startTransaction.sync = o.top.startTransaction.sync
    rw [OverlayedMap.sync_startTransaction, OverlayedMap.sync_startTransaction, hsync]

/-! ### Closing a transaction -/

theorem Lockstep.top_close (h : Lockstep o) (rollback : Bool) :
    o.top.closeTransaction rollback = some (.error ⟨⟩) ∨
      ∃ top', o.top.closeTransaction rollback = some (.ok top') ∧ top'.WellFormed := by
  obtain ⟨s, hs⟩ := h.top
  by_cases hguard : o.top.MayClose
  · by_cases h0 : s.depth = 0
    · exact .inl (hs.closeTransaction_of_depth_zero h0 rollback)
    · exact .inr (h.top.closeTransaction hguard (hs.depth ▸ Nat.pos_of_ne_zero h0) rollback)
  · exact .inl (closeTransaction_of_not_mayClose hguard rollback)

theorem Lockstep.close_ok {rollback : Bool} (h : Lockstep o)
    (htop : o.top.closeTransaction rollback = some (.ok top')) (hwf : top'.WellFormed)
    (keep : OverlayedMap K (Option W) → Option (OverlayedMap K (Option W)))
    (hkeep : ∀ cs cs', keep cs = some cs' → cs' = cs) :
    ∃ children offchain,
      o.children.filterMapM (fun _ cs => ((cs.closeTransaction rollback).bind Except.toOption).map keep) =
        some children ∧
      (o.offchain.closeTransaction rollback).bind Except.toOption = some offchain ∧
      Lockstep ⟨top', children, offchain⟩ := by
  obtain ⟨children, hc, hget⟩ := OrdMap.filterMapM_forall
    (fun _ cs => ((cs.closeTransaction rollback).bind Except.toOption).map keep) o.children
    (fun (c : OverlayedMap K (Option W)) => c.sync = top'.sync ∧ c.WellFormed)
    fun sk cs hcs => by
      obtain ⟨cs', hcs', hsync, hwf'⟩ := closeTransaction_inStep (h.children sk cs hcs).1 (h.children sk cs hcs).2 htop
      refine ⟨keep cs', by rw [hcs']; rfl, fun c hc => ?_⟩
      rw [hkeep cs' c hc]
      exact ⟨hsync, hwf'⟩
  obtain ⟨off', hoff, hsync', hwf'⟩ := closeTransaction_inStep h.offchain.1 h.offchain.2 htop
  refine ⟨children, off', hc, by rw [hoff]; rfl, hwf, fun hrt => ?_, hget, hsync', hwf'⟩
  -- the runtime closed one of its own transactions, above the client's
  obtain ⟨hdepth, hmode, hnct⟩ := closeTransaction_ok_frame htop
  have hopen := (closeTransaction_ok_mayClose htop).1 (hmode ▸ hrt)
  simp only [OverlayedMap.hasOpenRuntimeTransactions, decide_eq_true_eq] at hopen
  show top'.numClientTransactions ≤ top'.transactionDepth
  omega

theorem Lockstep.rollbackTransaction (h : Lockstep o) :
    o.rollbackTransaction = some (.error ⟨⟩) ∨ ∃ o', o.rollbackTransaction = some (.ok o') ∧ Lockstep o' ∧
      o'.top.numClientTransactions = o.top.numClientTransactions := by
  unfold OverlayedChanges.rollbackTransaction
  simp only [OverlayedMap.rollbackTransaction]
  rcases h.top_close true with herr | ⟨top', htop, hwf⟩
  · exact .inl (by rw [herr])
  · -- a rolled back child left empty is dropped
    obtain ⟨children, off', hc, hoff, hl⟩ := h.close_ok htop hwf (fun cs => if cs.isEmpty then none else some cs)
      fun cs cs' hkeep => by
        split_ifs at hkeep
        exact (Option.some.inj hkeep).symm
    refine .inr ⟨_, ?_, hl, (closeTransaction_ok_frame htop).2.2⟩
    rw [htop, hc, hoff]
    rfl

theorem Lockstep.commitTransaction (h : Lockstep o) :
    o.commitTransaction = some (.error ⟨⟩) ∨ ∃ o', o.commitTransaction = some (.ok o') ∧ Lockstep o' ∧
      o'.top.numClientTransactions = o.top.numClientTransactions := by
  unfold OverlayedChanges.commitTransaction
  simp only [OverlayedMap.commitTransaction]
  rcases h.top_close false with herr | ⟨top', htop, hwf⟩
  · exact .inl (by rw [herr])
  · obtain ⟨children, off', hc, hoff, hl⟩ := h.close_ok htop hwf some fun _ _ hkeep => (Option.some.inj hkeep).symm
    refine .inr ⟨_, ?_, hl, (closeTransaction_ok_frame htop).2.2⟩
    rw [htop, hc, hoff]
    rfl

/-! ### Entering and leaving the runtime -/

theorem Lockstep.enterRuntime_client (h : Lockstep o) (hmode : o.top.executionMode = .client) :
    ∃ o', o.enterRuntime = some (.ok o') ∧ Lockstep o' ∧ o'.top.executionMode = .runtime ∧
      o'.top.numClientTransactions = o.transactionDepth := by
  -- every change set records the depth as the client's
  obtain ⟨children, hc, hget⟩ := OrdMap.filterMapM_forall
    (fun _ changeset => changeset.enterRuntime.toOption.map some) o.children
    (fun (c : OverlayedMap K (Option W)) =>
      c.sync = (o.top.transactionDepth, .runtime, o.top.transactionDepth) ∧ c.WellFormed)
    fun sk cs hcs => by
      obtain ⟨cs', hcs', hsync, hwf⟩ := enterRuntime_inStep (h.children sk cs hcs).1 hmode
      refine ⟨some cs', by rw [hcs']; rfl, fun c hc => ?_⟩
      cases hc
      exact ⟨hsync, hwf (h.children sk cs hcs).2⟩
  obtain ⟨off', hoff, hsync', hwf'⟩ := enterRuntime_inStep h.offchain.1 hmode
  refine ⟨⟨{ o.top with executionMode := .runtime, numClientTransactions := o.top.transactionDepth },
    children, off'⟩, ?_, ⟨?_, fun _ => le_refl _, hget, hsync', hwf' h.offchain.2⟩, rfl, rfl⟩
  · unfold OverlayedChanges.enterRuntime
    rw [enterRuntime_of_client hmode, hc, hoff]
    rfl
  · obtain ⟨s, hs⟩ := h.top
    exact ⟨s, hs.withMode _ _⟩

theorem enterRuntime_of_runtime_mode (hmode : o.top.executionMode = .runtime) :
    o.enterRuntime = some (.error ⟨⟩) := by
  unfold OverlayedChanges.enterRuntime
  rw [enterRuntime_of_runtime hmode]

theorem Lockstep.enterRuntime (h : Lockstep o) :
    o.enterRuntime = some (.error ⟨⟩) ∨ ∃ o', o.enterRuntime = some (.ok o') ∧ Lockstep o' ∧
      o.top.executionMode = .client ∧ o'.top.executionMode = .runtime ∧
      o'.top.numClientTransactions = o.transactionDepth := by
  cases hmode : o.top.executionMode with
  | runtime => exact .inl (enterRuntime_of_runtime_mode hmode)
  | client =>
    obtain ⟨o', ho', hl, hruntime, hdepth⟩ := h.enterRuntime_client hmode
    exact .inr ⟨o', ho', hl, rfl, hruntime, hdepth⟩

theorem exitRuntime_of_client (hmode : o.top.executionMode = .client) : o.exitRuntime = some (.error ⟨⟩) := by
  unfold OverlayedChanges.exitRuntime OverlayedMap.exitRuntime
  rw [if_pos hmode]

/-- **`exit_runtime`**: every change set rolls back the transactions the
runtime left open, down to the depth `enter_runtime` recorded. -/
theorem Lockstep.exitRuntime (h : Lockstep o) (hmode : o.top.executionMode = .runtime) :
    ∃ o', o.exitRuntime = some (.ok o') ∧ Lockstep o' ∧
      o'.top.sync = (o.top.numClientTransactions, .client, o.top.numClientTransactions) ∧
      ∀ s, Refines o.top s →
        Refines o'.top ((fun s => s.rollback.getD s)^[o.top.transactionDepth - o.top.numClientTransactions] s) := by
  have hle := h.runtime hmode
  obtain ⟨s₀, hs₀⟩ := h.top
  obtain ⟨top', htop, -, hsync⟩ := hs₀.exitRuntime hmode hle
  obtain ⟨children, hc, hget⟩ := OrdMap.filterMapM_forall
    (fun _ changeset => (changeset.exitRuntime.bind Except.toOption).map some) o.children
    (fun (c : OverlayedMap K (Option W)) => c.sync = top'.sync ∧ c.WellFormed)
    fun sk cs hcs => by
      obtain ⟨cs', hcs', hsync', hwf'⟩ :=
        exitRuntime_inStep (h.children sk cs hcs).1 (h.children sk cs hcs).2 hmode hle
      refine ⟨some cs', by rw [hcs']; rfl, fun c hc => ?_⟩
      cases hc
      exact ⟨hsync'.trans hsync.symm, hwf'⟩
  obtain ⟨off', hoff, hsync', hwf'⟩ := exitRuntime_inStep h.offchain.1 h.offchain.2 hmode hle
  -- what the loop made of the top change set, for every stack it implements
  have hrefines : ∀ s, Refines o.top s →
      Refines top' ((fun s => s.rollback.getD s)^[o.top.transactionDepth - o.top.numClientTransactions] s) :=
    fun s hs => by
      obtain ⟨top'', htop'', hr, -⟩ := hs.exitRuntime hmode hle
      rw [htop] at htop''
      cases htop''
      exact hr
  refine ⟨⟨top', children, off'⟩, ?_, ⟨⟨_, hrefines s₀ hs₀⟩, fun hrt => ?_, hget, hsync'.trans hsync.symm, hwf'⟩,
    hsync, hrefines⟩
  · unfold OverlayedChanges.exitRuntime
    rw [htop]
    rw [hc, hoff]
    rfl
  · -- back in client mode
    have hclient : top'.executionMode = .client := ((OverlayedMap.sync_eq_mk_iff _ _ _ _).mp hsync).2.1
    dsimp only at hrt
    rw [hclient] at hrt
    cases hrt

/-! ### Runs -/

/-- **One call** keeps the change sets in lockstep and never panics. -/
theorem Lockstep.apply (h : Lockstep o) (op : ChangesOp K W) : ∃ o', op.apply o = some o' ∧ Lockstep o' := by
  cases op with
  | setStorage key val x => exact ⟨_, rfl, h.setStorage key val x⟩
  | setChildStorage storageKey key val x => exact ⟨_, rfl, h.setChildStorage storageKey key val x⟩
  | clearChildStorage storageKey x => exact ⟨_, rfl, h.clearChildStorage storageKey x⟩
  | clearPrefix hasPrefix x => exact ⟨_, rfl, h.clearPrefix hasPrefix x⟩
  | clearChildPrefix storageKey hasPrefix x => exact ⟨_, rfl, h.clearChildPrefix storageKey hasPrefix x⟩
  | setOffchainStorage storagePrefix key value => exact ⟨_, rfl, h.setOffchainStorage storagePrefix key value⟩
  | startTransaction => exact ⟨_, rfl, h.startTransaction⟩
  | commitTransaction =>
    -- a call that fails leaves everything as it was
    rcases h.commitTransaction with herr | ⟨o', ho', hl, -⟩
    · exact ⟨o, by rw [ChangesOp.apply, herr]; rfl, h⟩
    · exact ⟨o', by rw [ChangesOp.apply, ho']; rfl, hl⟩
  | rollbackTransaction =>
    rcases h.rollbackTransaction with herr | ⟨o', ho', hl, -⟩
    · exact ⟨o, by rw [ChangesOp.apply, herr]; rfl, h⟩
    · exact ⟨o', by rw [ChangesOp.apply, ho']; rfl, hl⟩
  | enterRuntime =>
    rcases h.enterRuntime with herr | ⟨o', ho', hl, -⟩
    · exact ⟨o, by rw [ChangesOp.apply, herr]; rfl, h⟩
    · exact ⟨o', by rw [ChangesOp.apply, ho']; rfl, hl⟩
  | exitRuntime =>
    cases hmode : o.top.executionMode with
    | client => exact ⟨o, by rw [ChangesOp.apply, exitRuntime_of_client hmode]; rfl, h⟩
    | runtime =>
      obtain ⟨o', ho', hl, -⟩ := h.exitRuntime hmode
      exact ⟨o', by rw [ChangesOp.apply, ho']; rfl, hl⟩

theorem Lockstep.apply_numClientTransactions (h : Lockstep o) {op : ChangesOp K W} {o' : OverlayedChanges K W}
    (ho' : op.apply o = some o') :
    o'.top.numClientTransactions = o.top.numClientTransactions ∨
      (o.top.executionMode = .client ∧ o'.top.executionMode = .runtime ∧
        o'.top.numClientTransactions = o.transactionDepth) := by
  cases op with
  | setStorage => cases ho'; exact .inl rfl
  | setChildStorage => cases ho'; exact .inl rfl
  | clearChildStorage => cases ho'; exact .inl rfl
  | clearPrefix hasPrefix x =>
    cases ho'
    exact .inl (clearLoop (fun key _ => hasPrefix key) x o.top).2.2.2.2.1
  | clearChildPrefix => cases ho'; exact .inl rfl
  | setOffchainStorage => cases ho'; exact .inl rfl
  | startTransaction => cases ho'; exact .inl rfl
  | commitTransaction =>
    rcases h.commitTransaction with herr | ⟨o₁, ho₁, -, hnct⟩
    · rw [ChangesOp.apply, herr] at ho'
      cases ho'
      exact .inl rfl
    · rw [ChangesOp.apply, ho₁] at ho'
      cases ho'
      exact .inl hnct
  | rollbackTransaction =>
    rcases h.rollbackTransaction with herr | ⟨o₁, ho₁, -, hnct⟩
    · rw [ChangesOp.apply, herr] at ho'
      cases ho'
      exact .inl rfl
    · rw [ChangesOp.apply, ho₁] at ho'
      cases ho'
      exact .inl hnct
  | enterRuntime =>
    rcases h.enterRuntime with herr | ⟨o₁, ho₁, -, hentered⟩
    · rw [ChangesOp.apply, herr] at ho'
      cases ho'
      exact .inl rfl
    · rw [ChangesOp.apply, ho₁] at ho'
      cases ho'
      exact .inr hentered
  | exitRuntime =>
    cases hmode : o.top.executionMode with
    | client =>
      rw [ChangesOp.apply, exitRuntime_of_client hmode] at ho'
      cases ho'
      exact .inl rfl
    | runtime =>
      obtain ⟨o₁, ho₁, -, hsync, -⟩ := h.exitRuntime hmode
      rw [ChangesOp.apply, ho₁] at ho'
      cases ho'
      exact .inl ((OverlayedMap.sync_eq_mk_iff _ _ _ _).mp hsync).2.2

theorem closeTransaction_of_protected (hmode : o.top.executionMode = .runtime)
    (hle : o.transactionDepth ≤ o.top.numClientTransactions) (rollback : Bool) :
    o.top.closeTransaction rollback = some (.error ⟨⟩) := by
  refine closeTransaction_of_not_mayClose (fun hguard => ?_) rollback
  have hopen := hguard hmode
  simp only [OverlayedMap.hasOpenRuntimeTransactions, decide_eq_true_eq] at hopen
  exact absurd hle (Nat.not_le_of_lt hopen)

/-- **Runs**: from a state in lockstep, no run panics and every run ends in
lockstep. -/
theorem Lockstep.run (h : Lockstep o) (ops : List (ChangesOp K W)) :
    ∃ o', ops.foldlM ChangesOp.apply o = some o' ∧ Lockstep o' :=
  StepRun.foldlM_invariant_some Lockstep (fun _ op h => h.apply op) ops o h

end Changes

end StateMachine
