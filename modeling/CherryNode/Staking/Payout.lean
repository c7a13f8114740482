import CherryNode.Staking.Pallet
import CherryNode.Arithmetic.PerThing
import CherryNode.Lib.BinarySearch
import CherryNode.Lib.OrdMap

/-!
# pallet-staking: `payout_stakers` and `bond`

`do_payout_stakers(validator_stash, era)` pays an era's reward to a validator
and the nominators of its clipped exposure.  The guard against a second payout
is the ledger's `claimed_rewards`: eras past the history are dropped, the era
must be missing, and it is inserted where `binary_search` says.  `bond` seeds a
new ledger with the history's eras before the current one.

The amounts read era storage only (`payoutCalls`): the validator's
`from_rational` share of the reward, its commission off the top, and the rest
split by `from_rational` shares of the exposure, each product rounded to the
nearest.

`T::Currency` is what `bond` reads of it: the stash's free balance, its
providers (`inc_consumers` refuses an account without any), and the
existential deposit.  `make_payout`'s deposits are not modelled, except that
`RewardDestination::Staked` adds to the stash's ledger.  Two ghost logs record
each payout past the guard (`claims`) and each `make_payout` with its era
(`payouts`).  Events and weights are left out.
-/

namespace PalletStaking

open Frame EStateRun SpArithmetic

/-- `Perbill`. -/
abbrev Perbill := PerThing 1000000000

/-- `RewardDestination`. -/
inductive RewardDestination (Acc : Type)
  | staked
  | stash
  | controller
  | account (dest : Acc)
  | none
  deriving DecidableEq, Repr

/-- `IndividualExposure`. -/
structure IndividualExposure (Acc : Type) where
  who : Acc
  value : Nat
  deriving DecidableEq, Repr

/-- `Exposure`. -/
structure Exposure (Acc : Type) where
  total : Nat
  own : Nat
  others : List (IndividualExposure Acc)
  deriving DecidableEq, Repr

variable {Acc : Type} [LinearOrder Acc]
variable {l : StakingLedger Acc}

/-- `EraRewardPoints`. -/
structure EraRewardPoints (Acc : Type) [LinearOrder Acc] where
  total : Nat
  individual : OrdMap Acc Nat

/-- `ValidatorPrefs`, as far as the payout reads it. -/
structure ValidatorPrefs where
  commission : Perbill

/-- The storage `payout_stakers` reads and neither call writes. -/
structure Eras (Acc : Type) [LinearOrder Acc] where
  historyDepth : Nat
  erasValidatorReward : Nat → Option Nat
  erasRewardPoints : Nat → EraRewardPoints Acc
  erasStakersClipped : Nat → Acc → Exposure Acc
  erasValidatorPrefs : Nat → Acc → ValidatorPrefs

/-- The storage `bond` and `payout_stakers` write, and the ghost logs: the
payouts that got past the guard, as (validator stash, era), and the
`make_payout` calls, as (era, stash, amount). -/
structure PayoutSt (Acc : Type) where
  staking : St Acc
  payee : Acc → RewardDestination Acc
  claims : List (Acc × Nat)
  payouts : List (Nat × Acc × Nat)

abbrev PayoutM (Acc : Type) := Call (PayoutSt Acc) Error

section Calls

variable (eras : Eras Acc)

/-- `RewardDestination::Staked`: the amount joins the stash's bond. -/
def St.bondReward (s : St Acc) (stash : Acc) (amount : Nat) : St Acc :=
  match s.bonded stash with
  | none => s
  | some controller =>
    match s.ledger controller with
    | none => s
    | some l => s.setLedger controller { l with active := l.active + amount, total := l.total + amount }

/-- `make_payout(stash, amount)`, logged with the era it pays. -/
def makePayout (era : Nat) (stash : Acc) (amount : Nat) : PayoutM Acc Unit :=
  modify fun s =>
    { s with
      staking :=
        match s.payee stash with
        | .staked => s.staking.bondReward stash amount
        | _ => s.staking
      payouts := s.payouts ++ [(era, stash, amount)] }

/-- The `make_payout` calls of `do_payout_stakers` once the claim is stored,
as (stash, amount): none without reward points; else the validator's share
of its part of `era_payout` with its commission, then each nominator's share
of the leftover. -/
def payoutCalls (era eraPayout : Nat) (validatorStash stash : Acc) : List (Acc × Nat) :=
  let eraRewardPoints := eras.erasRewardPoints era
  let totalRewardPoints := eraRewardPoints.total
  let validatorRewardPoints := (eraRewardPoints.individual.get? stash).getD 0
  if validatorRewardPoints = 0 then []
  else
    let validatorTotalRewardPart : Perbill := PerThing.fromRational validatorRewardPoints totalRewardPoints
    let validatorTotalPayout := validatorTotalRewardPart.mul eraPayout
    let validatorCommission := (eras.erasValidatorPrefs era validatorStash).commission
    let validatorCommissionPayout := validatorCommission.mul validatorTotalPayout
    let validatorLeftoverPayout := validatorTotalPayout - validatorCommissionPayout
    let exposure := eras.erasStakersClipped era stash
    let validatorExposurePart : Perbill := PerThing.fromRational exposure.own exposure.total
    let validatorStakingPayout := validatorExposurePart.mul validatorLeftoverPayout
    (stash, validatorStakingPayout + validatorCommissionPayout) ::
      exposure.others.map fun nominator =>
        let nominatorExposurePart : Perbill := PerThing.fromRational nominator.value exposure.total
        (nominator.who, nominatorExposurePart.mul validatorLeftoverPayout)

/-- `do_payout_stakers`: every check comes before the ledger is stored, and
nothing fails after it. -/
def doPayoutStakers (validatorStash : Acc) (era : Nat) : PayoutM Acc Unit := do
  let s ← get
  let currentEra ← okOr s.staking.currentEra .invalidEraToReward
  ensure (era ≤ currentEra ∧ era ≥ currentEra - eras.historyDepth) .invalidEraToReward
  let eraPayout ← okOr (eras.erasValidatorReward era) .invalidEraToReward
  let controller ← okOr (s.staking.bonded validatorStash) .notStash
  let ledger ← okOr (s.staking.ledger controller) .notController
  let claimedRewards := ledger.claimedRewards.filter fun x => x ≥ currentEra - eras.historyDepth
  match Slice.binarySearch claimedRewards era with
  | .ok _ => throw (.module .alreadyClaimed)
  | .error pos =>
    -- `insert(pos, era)`: the window of the search never leaves the slice
    let ledger := { ledger with claimedRewards := claimedRewards.insertIdx pos era }
    modify fun s =>
      { s with
        staking := s.staking.setLedger controller ledger
        claims := s.claims ++ [(validatorStash, era)] }
    (payoutCalls eras era eraPayout validatorStash ledger.stash).forM fun c => makePayout era c.1 c.2

/-- `payout_stakers`: any signed origin. -/
def payoutStakers (origin : Origin Acc) (validatorStash : Acc) (era : Nat) : PayoutM Acc Unit := do
  let _ ← ensureSigned origin
  doPayoutStakers eras validatorStash era

/-- `bond`; `stashBalance` is the stash's free balance and `stashProviders`
its providers, which `inc_consumers` needs to be positive. -/
def bond (cfg : Config) (origin : Origin Acc) (controller : Acc) (value : Nat) (payee : RewardDestination Acc)
    (stashBalance stashProviders : Nat) : PayoutM Acc Unit := do
  let stash ← ensureSigned origin
  let s ← get
  ensure (s.staking.bonded stash = none) .alreadyBonded
  ensure (s.staking.ledger controller = none) .alreadyPaired
  ensure (value ≥ cfg.minimumBalance) .insufficientBond
  ensure (0 < stashProviders) .badState
  let currentEra := s.staking.currentEra.getD 0
  let lastRewardEra := currentEra - eras.historyDepth
  let value := min value stashBalance
  let item : StakingLedger Acc :=
    ⟨stash, value, value, [], List.range' lastRewardEra (currentEra - lastRewardEra)⟩
  modify fun s =>
    { s with
      staking := { s.staking with bonded := Function.update s.staking.bonded stash (some controller) }.setLedger
        controller item
      payee := Function.update s.payee stash payee }

/-- A call of a run. -/
inductive PayoutOp (Acc : Type)
  | payoutStakers (origin : Origin Acc) (validatorStash : Acc) (era : Nat)
  | bond (origin : Origin Acc) (controller : Acc) (value : Nat) (payee : RewardDestination Acc)
      (stashBalance stashProviders : Nat)

/-- The storage after one call. -/
def PayoutOp.apply (cfg : Config) (s : PayoutSt Acc) : PayoutOp Acc → PayoutSt Acc
  | .payoutStakers origin validatorStash era =>
    applyCall (PalletStaking.payoutStakers eras origin validatorStash era) s
  | .bond origin controller value payee stashBalance stashProviders =>
    applyCall (PalletStaking.bond eras cfg origin controller value payee stashBalance stashProviders) s

end Calls

/-! ## What `make_payout` keeps -/

/-- What `make_payout` leaves as it was: the pairing, `CurrentEra`, the
claims, and each ledger's stash and claimed eras. -/
structure Keeps (s s' : PayoutSt Acc) : Prop where
  bonded : s'.staking.bonded = s.staking.bonded
  currentEra : s'.staking.currentEra = s.staking.currentEra
  claims : s'.claims = s.claims
  ledger : ∀ c, (s'.staking.ledger c).map (fun l => (l.stash, l.claimedRewards)) =
    (s.staking.ledger c).map fun l => (l.stash, l.claimedRewards)

omit [LinearOrder Acc] in
theorem Keeps.refl (s : PayoutSt Acc) : Keeps s s := ⟨rfl, rfl, rfl, fun _ => rfl⟩

omit [LinearOrder Acc] in
theorem Keeps.trans {s₁ s₂ s₃ : PayoutSt Acc} (h₁ : Keeps s₁ s₂) (h₂ : Keeps s₂ s₃) : Keeps s₁ s₃ :=
  ⟨h₂.bonded.trans h₁.bonded, h₂.currentEra.trans h₁.currentEra, h₂.claims.trans h₁.claims,
    fun c => (h₂.ledger c).trans (h₁.ledger c)⟩

theorem St.bondReward_keeps (s : PayoutSt Acc) (stash : Acc) (amount : Nat) (payouts : List (Nat × Acc × Nat)) :
    Keeps s { s with staking := s.staking.bondReward stash amount, payouts } := by
  refine ⟨?_, ?_, rfl, fun c => ?_⟩ <;> unfold St.bondReward <;> split
  all_goals try rfl
  all_goals split
  all_goals try rfl
  rename_i controller _ _ l hl
  by_cases hc : c = controller
  · subst hc
    simp [hl]
  · simp [Function.update_of_ne hc]

theorem makePayout_keeps (era : Nat) (stash : Acc) (amount : Nat) (s : PayoutSt Acc) :
    ∃ s', makePayout era stash amount s = .ok () s' ∧ Keeps s s' ∧ s'.payouts = s.payouts ++ [(era, stash, amount)] := by
  refine ⟨_, rfl, ?_, rfl⟩
  dsimp only
  -- only `Staked` writes staking storage
  split
  · exact St.bondReward_keeps s stash amount _
  · exact ⟨rfl, rfl, rfl, fun _ => rfl⟩

theorem forM_makePayout (era : Nat) :
    ∀ (calls : List (Acc × Nat)) (s : PayoutSt Acc), ∃ s',
      (calls.forM fun c => makePayout era c.1 c.2) s = .ok () s' ∧ Keeps s s' ∧
        s'.payouts = s.payouts ++ calls.map fun c => (era, c)
  | [], s => ⟨s, rfl, Keeps.refl s, by simp⟩
  | c :: calls, s => by
    obtain ⟨s₁, h₁, hk₁, hp₁⟩ := makePayout_keeps era c.1 c.2 s
    obtain ⟨s₂, h₂, hk₂, hp₂⟩ := forM_makePayout era calls s₁
    refine ⟨s₂, ?_, hk₁.trans hk₂, by rw [hp₂, hp₁]; simp⟩
    show (makePayout era c.1 c.2 >>= fun _ => calls.forM fun c => makePayout era c.1 c.2) s = _
    rw [Frame.bind_apply, h₁]
    exact h₂

theorem St.ledger_setLedger_eq_some {st : St Acc} {c c' : Acc} {l l' : StakingLedger Acc} :
    (st.setLedger c l).ledger c' = some l' ↔ (c' = c ∧ l' = l) ∨ (c' ≠ c ∧ st.ledger c' = some l') := by
  by_cases hc : c' = c
  · subst hc
    simp [eq_comm]
  · simp [hc]

variable {s s' : PayoutSt Acc}

omit [LinearOrder Acc] in
theorem Keeps.ledger_of_new (hk : Keeps s s') {c : Acc} {l' : StakingLedger Acc}
    (h : s'.staking.ledger c = some l') :
    ∃ l, s.staking.ledger c = some l ∧ l.stash = l'.stash ∧ l.claimedRewards = l'.claimedRewards := by
  have hmap := hk.ledger c
  rw [h] at hmap
  cases hl : s.staking.ledger c with
  | none =>
    rw [hl] at hmap
    cases hmap
  | some l =>
    rw [hl, Option.map_some, Option.map_some, Option.some.injEq, Prod.mk.injEq] at hmap
    exact ⟨l, rfl, hmap.1.symm, hmap.2.symm⟩

omit [LinearOrder Acc] in
theorem Keeps.ledger_of_old (hk : Keeps s s') {c : Acc}
    (h : s.staking.ledger c = some l) :
    ∃ l', s'.staking.ledger c = some l' ∧ l'.stash = l.stash ∧ l'.claimedRewards = l.claimedRewards := by
  have hmap := hk.ledger c
  rw [h] at hmap
  cases hl : s'.staking.ledger c with
  | none =>
    rw [hl] at hmap
    cases hmap
  | some l' =>
    rw [hl, Option.map_some, Option.map_some, Option.some.injEq, Prod.mk.injEq] at hmap
    exact ⟨l', rfl, hmap.1, hmap.2⟩

/-! ## The invariant of a run -/

/-- Every ledger is its stash's, and its claimed eras are sorted. -/
structure Paired (st : St Acc) : Prop where
  ledger_of_bonded : ∀ v c, st.bonded v = some c → ∃ l, st.ledger c = some l ∧ l.stash = v
  bonded_of_ledger : ∀ c l, st.ledger c = some l → st.bonded l.stash = some c
  sorted : ∀ c l, st.ledger c = some l → l.claimedRewards.Pairwise (· < ·)

section Inv

variable (eras : Eras Acc)

/-- Paired ledgers, and every logged payout claimed, once, in its validator's
ledger at an era the history keeps. -/
structure ClaimsInv (s : PayoutSt Acc) : Prop where
  paired : Paired s.staking
  claimed : ∀ v era, (v, era) ∈ s.claims → ∃ cur c l, s.staking.currentEra = some cur ∧
    cur - eras.historyDepth ≤ era ∧ s.staking.bonded v = some c ∧ s.staking.ledger c = some l ∧
      era ∈ l.claimedRewards
  claims_nodup : s.claims.Nodup

/-- The invariant of a run: the claims are guarded, and the calls logged for
an era are those its claims make, in order. -/
structure PayoutInv (s : PayoutSt Acc) : Prop extends ClaimsInv eras s where
  payouts : ∀ era, (s.payouts.filter (·.1 = era)).map (·.2) =
    (s.claims.filter (·.2 = era)).flatMap fun c => payoutCalls eras era ((eras.erasValidatorReward era).getD 0) c.1 c.1

variable {eras}

variable {s s' : PayoutSt Acc} {v c : Acc}

omit [LinearOrder Acc] in
theorem Paired.of_keeps (h : Paired s.staking) (hk : Keeps s s') : Paired s'.staking where
  ledger_of_bonded v c hb := by
    rw [hk.bonded] at hb
    obtain ⟨l, hl, rfl⟩ := h.ledger_of_bonded v c hb
    obtain ⟨l', hl', hstash, -⟩ := hk.ledger_of_old hl
    exact ⟨l', hl', hstash⟩
  bonded_of_ledger c l' hl' := by
    obtain ⟨l, hl, hstash, -⟩ := hk.ledger_of_new hl'
    rw [hk.bonded, ← hstash]
    exact h.bonded_of_ledger c l hl
  sorted c l' hl' := by
    obtain ⟨l, hl, -, hclaimed⟩ := hk.ledger_of_new hl'
    rw [← hclaimed]
    exact h.sorted c l hl

theorem ClaimsInv.of_keeps (h : ClaimsInv eras s) (hk : Keeps s s') : ClaimsInv eras s' where
  paired := h.paired.of_keeps hk
  claimed v era hmem := by
    rw [hk.claims] at hmem
    obtain ⟨cur, c, l, hcur, hera, hb, hl, hin⟩ := h.claimed v era hmem
    obtain ⟨l', hl', -, hclaimed⟩ := hk.ledger_of_old hl
    exact ⟨cur, c, l', hk.currentEra.trans hcur, hera, (congrFun hk.bonded v).trans hb, hl', hclaimed ▸ hin⟩
  claims_nodup := hk.claims ▸ h.claims_nodup

/-- The claim `do_payout_stakers` stores: the era inserted into the ledger's
retained eras, where the search missed it. -/
theorem ClaimsInv.claim (h : ClaimsInv eras s)
    {cur era pos : Nat} (hcur : s.staking.currentEra = some cur) (hera : cur - eras.historyDepth ≤ era)
    (hb : s.staking.bonded v = some c) (hl : s.staking.ledger c = some l)
    (hpos : Slice.binarySearch (l.claimedRewards.filter fun x => x ≥ cur - eras.historyDepth) era = .error pos) :
    ClaimsInv eras
      { s with
        staking := s.staking.setLedger c
          { l with claimedRewards := (l.claimedRewards.filter fun x => x ≥ cur - eras.historyDepth).insertIdx pos era }
        claims := s.claims ++ [(v, era)] } := by
  have hsorted : (l.claimedRewards.filter fun x => x ≥ cur - eras.historyDepth).Pairwise (· < ·) :=
    (h.paired.sorted c l hl).filter _
  have hlen := Slice.le_length_of_binarySearch_eq_error hsorted hpos
  -- the retained eras stay, and the era joins them
  have hkeep : ∀ x ∈ l.claimedRewards, cur - eras.historyDepth ≤ x →
      x ∈ (l.claimedRewards.filter fun x => x ≥ cur - eras.historyDepth).insertIdx pos era :=
    fun x hx hge => (List.mem_insertIdx hlen).mpr (.inr (List.mem_filter.mpr ⟨hx, by simpa using hge⟩))
  have hnew : era ∈ (l.claimedRewards.filter fun x => x ≥ cur - eras.historyDepth).insertIdx pos era :=
    (List.mem_insertIdx hlen).mpr (.inl rfl)
  -- a claim already logged would have been found
  have hfresh : (v, era) ∉ s.claims := by
    intro hmem
    obtain ⟨cur', c', l', hcur', hera', hb', hl', hin⟩ := h.claimed v era hmem
    obtain rfl : cur' = cur := Option.some.inj (hcur'.symm.trans hcur)
    obtain rfl : c' = c := Option.some.inj (hb'.symm.trans hb)
    obtain rfl : l' = l := Option.some.inj (hl'.symm.trans hl)
    obtain ⟨i, hi⟩ := Slice.binarySearch_eq_ok_of_mem hsorted (List.mem_filter.mpr ⟨hin, by simpa using hera'⟩)
    rw [hi] at hpos
    cases hpos
  refine ⟨⟨fun v' c' hb' => ?_, fun c' l' hl' => ?_, fun c' l' hl' => ?_⟩, fun v' era' hmem => ?_, ?_⟩
  · obtain ⟨l'', hl'', hstash⟩ := h.paired.ledger_of_bonded v' c' hb'
    by_cases hc : c' = c
    · subst hc
      obtain rfl : l'' = l := Option.some.inj (hl''.symm.trans hl)
      exact ⟨_, St.ledger_setLedger_eq_some.mpr (.inl ⟨rfl, rfl⟩), hstash⟩
    · exact ⟨l'', St.ledger_setLedger_eq_some.mpr (.inr ⟨hc, hl''⟩), hstash⟩
  · rcases St.ledger_setLedger_eq_some.mp hl' with ⟨rfl, rfl⟩ | ⟨_, hl'⟩
    · exact h.paired.bonded_of_ledger c' l hl
    · exact h.paired.bonded_of_ledger c' l' hl'
  · rcases St.ledger_setLedger_eq_some.mp hl' with ⟨rfl, rfl⟩ | ⟨_, hl'⟩
    · exact Slice.pairwise_insertIdx_of_binarySearch hsorted hpos
    · exact h.paired.sorted c' l' hl'
  · rcases List.mem_append.mp hmem with hmem | hmem
    · obtain ⟨cur', c', l', hcur', hera', hb', hl', hin⟩ := h.claimed v' era' hmem
      by_cases hc : c' = c
      · subst hc
        obtain rfl : l' = l := Option.some.inj (hl'.symm.trans hl)
        obtain rfl : cur' = cur := Option.some.inj (hcur'.symm.trans hcur)
        exact ⟨cur', c', _, hcur', hera', hb', St.ledger_setLedger_eq_some.mpr (.inl ⟨rfl, rfl⟩),
          hkeep era' hin hera'⟩
      · exact ⟨cur', c', l', hcur', hera', hb', St.ledger_setLedger_eq_some.mpr (.inr ⟨hc, hl'⟩), hin⟩
    · obtain ⟨rfl, rfl⟩ := Prod.mk.inj (List.mem_singleton.mp hmem)
      exact ⟨cur, c, _, hcur, hera, hb, St.ledger_setLedger_eq_some.mpr (.inl ⟨rfl, rfl⟩), hnew⟩
  · exact h.claims_nodup.append (List.nodup_singleton _) (List.disjoint_singleton.mpr hfresh)

/-- `bond` pairs a stash with no controller and a controller with no ledger. -/
theorem ClaimsInv.bond (h : ClaimsInv eras s) {stash controller : Acc}
    {item : StakingLedger Acc} (hb : s.staking.bonded stash = none) (hl : s.staking.ledger controller = none)
    (hstash : item.stash = stash) (hsorted : item.claimedRewards.Pairwise (· < ·))
    (payee : Acc → RewardDestination Acc) :
    ClaimsInv eras
      { s with
        staking := { s.staking with bonded := Function.update s.staking.bonded stash (some controller) }.setLedger
          controller item
        payee } := by
  -- the stashes and controllers already paired are neither of the new pair
  have hv : ∀ v c, s.staking.bonded v = some c → v ≠ stash ∧ c ≠ controller := by
    intro v c hvc
    refine ⟨fun hvs => ?_, fun hcc => ?_⟩
    · rw [hvs, hb] at hvc
      cases hvc
    · obtain ⟨l, hl', -⟩ := h.paired.ledger_of_bonded v c hvc
      rw [hcc, hl] at hl'
      cases hl'
  refine ⟨⟨fun v c hvc => ?_, fun c l' hl' => ?_, fun c l' hl' => ?_⟩, fun v era hmem => ?_, h.claims_nodup⟩
  · rw [St.setLedger_bonded] at hvc
    by_cases hvs : v = stash
    · subst hvs
      simp only [Function.update_self, Option.some.injEq] at hvc
      subst hvc
      exact ⟨item, St.ledger_setLedger_eq_some.mpr (.inl ⟨rfl, rfl⟩), hstash⟩
    · simp only [Function.update_of_ne hvs] at hvc
      obtain ⟨l, hl', hls⟩ := h.paired.ledger_of_bonded v c hvc
      exact ⟨l, St.ledger_setLedger_eq_some.mpr (.inr ⟨(hv v c hvc).2, hl'⟩), hls⟩
  · rcases St.ledger_setLedger_eq_some.mp hl' with ⟨rfl, rfl⟩ | ⟨_, hl'⟩
    · simp [hstash]
    · have hold := h.paired.bonded_of_ledger c l' hl'
      simp [Function.update_of_ne (hv _ _ hold).1, hold]
  · rcases St.ledger_setLedger_eq_some.mp hl' with ⟨rfl, rfl⟩ | ⟨_, hl'⟩
    · exact hsorted
    · exact h.paired.sorted c l' hl'
  · obtain ⟨cur, c, l, hcur, hera, hvc, hl', hin⟩ := h.claimed v era hmem
    exact ⟨cur, c, l, hcur, hera, by simp [Function.update_of_ne (hv v c hvc).1, hvc],
      St.ledger_setLedger_eq_some.mpr (.inr ⟨(hv v c hvc).2, hl'⟩), hin⟩

omit [LinearOrder Acc] in
theorem map_filter_era (era era' : Nat) (calls : List (Acc × Nat)) :
    ((calls.map fun c => (era, c)).filter (·.1 = era')).map (·.2) = if era = era' then calls else [] := by
  split_ifs with h
  · subst h
    simp [List.filter_map, Function.comp_def]
  · simp [List.filter_map, Function.comp_def, h]

/-- A stored claim and the payouts it makes keep the invariant. -/
theorem PayoutInv.payout (h : PayoutInv eras s)
    {cur era R pos : Nat} (hcur : s.staking.currentEra = some cur) (hera : cur - eras.historyDepth ≤ era)
    (hR : eras.erasValidatorReward era = some R) (hb : s.staking.bonded v = some c)
    (hl : s.staking.ledger c = some l)
    (hpos : Slice.binarySearch (l.claimedRewards.filter fun x => x ≥ cur - eras.historyDepth) era = .error pos)
    (hk : Keeps
      { s with
        staking := s.staking.setLedger c
          { l with claimedRewards := (l.claimedRewards.filter fun x => x ≥ cur - eras.historyDepth).insertIdx pos era }
        claims := s.claims ++ [(v, era)] } s')
    (hpay : s'.payouts = s.payouts ++ (payoutCalls eras era R v l.stash).map fun c => (era, c)) :
    PayoutInv eras s' where
  toClaimsInv := (h.claim hcur hera hb hl hpos).of_keeps hk
  payouts era' := by
    -- the ledger is the validator's, so the calls are those of the claim `(v, era)`
    obtain ⟨l', hl', hstash⟩ := h.paired.ledger_of_bonded v c hb
    obtain rfl : l' = l := Option.some.inj (hl'.symm.trans hl)
    rw [hpay, hk.claims, List.filter_append, List.map_append, List.filter_append, List.flatMap_append,
      h.payouts era', map_filter_era, hstash]
    congr 1
    by_cases heq : era = era'
    · subst heq
      simp [hR]
    · simp [heq]

theorem doPayoutStakers_sat (hs : PayoutInv eras s) (v : Acc) (era : Nat) :
    Sat (doPayoutStakers eras v era s) (fun _ s' => PayoutInv eras s') (fun _ s' => s' = s) := by
  cases hcur : s.staking.currentEra with
  | none => simp [doPayoutStakers, hcur]
  | some cur =>
    by_cases hera : era ≤ cur ∧ era ≥ cur - eras.historyDepth
    swap
    · simp only [doPayoutStakers, Frame.bind_apply, Frame.get_apply, hcur, okOr_some, ensure_apply, if_neg hera,
        sat_error]
    cases hR : eras.erasValidatorReward era with
    | none => simp [doPayoutStakers, hcur, hera, hR]
    | some R =>
      cases hb : s.staking.bonded v with
      | none => simp [doPayoutStakers, hcur, hera, hR, hb]
      | some c =>
        cases hl : s.staking.ledger c with
        | none => simp [doPayoutStakers, hcur, hera, hR, hb, hl]
        | some l =>
          cases hpos : Slice.binarySearch (l.claimedRewards.filter fun x => x ≥ cur - eras.historyDepth) era with
          | ok i =>
            simp only [doPayoutStakers, Frame.bind_apply, Frame.get_apply, hcur, okOr_some, ensure_apply, if_pos hera,
              hR, hb, hl, hpos, Frame.throw_apply, sat_error]
          | error pos =>
            obtain ⟨s', hrun, hk, hpay⟩ := forM_makePayout era (payoutCalls eras era R v l.stash)
              { s with
                staking := s.staking.setLedger c
                  { l with
                    claimedRewards := (l.claimedRewards.filter fun x => x ≥ cur - eras.historyDepth).insertIdx pos era }
                claims := s.claims ++ [(v, era)] }
            simp only [doPayoutStakers, Frame.bind_apply, Frame.get_apply, hcur, okOr_some, ensure_apply, if_pos hera,
              hR, hb, hl, hpos, Frame.modify_apply]
            rw [hrun]
            exact hs.payout hcur hera.2 hR hb hl hpos hk hpay

theorem payoutStakers_sat (hs : PayoutInv eras s) (origin : Origin Acc) (v : Acc) (era : Nat) :
    Sat (payoutStakers eras origin v era s) (fun _ s' => PayoutInv eras s') (fun _ s' => s' = s) := by
  cases origin with
  | root => simp [payoutStakers]
  | none => simp [payoutStakers]
  | signed who =>
    simp only [payoutStakers, Frame.bind_apply, ensureSigned_signed]
    exact doPayoutStakers_sat hs v era

theorem bond_sat (hs : PayoutInv eras s) (cfg : Config) (origin : Origin Acc) (controller : Acc)
    (value : Nat) (payee : RewardDestination Acc) (stashBalance stashProviders : Nat) :
    Sat (bond eras cfg origin controller value payee stashBalance stashProviders s) (fun _ s' => PayoutInv eras s')
      (fun _ s' => s' = s) := by
  cases origin with
  | root => simp [bond]
  | none => simp [bond]
  | signed stash =>
    simp only [bond, Frame.bind_apply, ensureSigned_signed, Frame.get_apply, ensure_apply]
    -- each check refuses without a write
    by_cases hb : s.staking.bonded stash = none
    swap
    · simp only [if_neg hb, sat_error]
    by_cases hl : s.staking.ledger controller = none
    swap
    · simp only [if_pos hb, if_neg hl, sat_error]
    by_cases hv : value ≥ cfg.minimumBalance
    swap
    · simp only [if_pos hb, if_pos hl, if_neg hv, sat_error]
    by_cases hp : 0 < stashProviders
    swap
    · simp only [if_pos hb, if_pos hl, if_pos hv, if_neg hp, sat_error]
    simp only [if_pos hb, if_pos hl, if_pos hv, if_pos hp, Frame.modify_apply, sat_ok]
    exact ⟨hs.toClaimsInv.bond hb hl rfl List.pairwise_lt_range' _, hs.payouts⟩

/-- **Step.**  Every call keeps the invariant. -/
theorem PayoutOp.apply_inv (cfg : Config) (hs : PayoutInv eras s) (op : PayoutOp Acc) :
    PayoutInv eras (op.apply eras cfg s) := by
  cases op with
  | payoutStakers origin v era => exact applyCall_of_sat hs (payoutStakers_sat hs origin v era)
  | bond origin controller value payee stashBalance stashProviders =>
    exact applyCall_of_sat hs (bond_sat hs cfg origin controller value payee stashBalance stashProviders)

/-- **Run.** -/
theorem PayoutInv.run (cfg : Config) (hs : PayoutInv eras s) (ops : List (PayoutOp Acc)) :
    PayoutInv eras (ops.foldl (PayoutOp.apply eras cfg) s) :=
  (StepRun.reachable_foldl (PayoutOp.apply eras cfg) s ops .init).rec_invariant (PayoutInv eras) hs
    fun _ op h => PayoutOp.apply_inv cfg h op

/-- Paired ledgers, before anything is logged. -/
theorem PayoutInv.init {st : St Acc} (h : Paired st) (payee : Acc → RewardDestination Acc) :
    PayoutInv eras ⟨st, payee, [], []⟩ :=
  ⟨⟨h, fun _ _ hmem => absurd hmem List.not_mem_nil, List.nodup_nil⟩, fun _ => rfl⟩

end Inv

/-! ## What an era pays -/

section Rewards

variable {eras : Eras Acc} {e R : Nat}

/-- One validator's payout: at most its share of the era's reward, plus half a
unit per call. -/
theorem two_mul_sum_payoutCalls_le (validatorStash stash : Acc)
    (hexposure : (eras.erasStakersClipped e stash).own + ((eras.erasStakersClipped e stash).others.map (·.value)).sum ≤
      (eras.erasStakersClipped e stash).total) :
    2 * ((payoutCalls eras e R validatorStash stash).map (·.2)).sum ≤
      2 * (PerThing.fromRational (((eras.erasRewardPoints e).individual.get? stash).getD 0)
        (eras.erasRewardPoints e).total : Perbill).mul R + (payoutCalls eras e R validatorStash stash).length := by
  unfold payoutCalls
  dsimp only
  split_ifs with hzero
  · simp
  set exposure := eras.erasStakersClipped e stash
  set payout := (PerThing.fromRational (((eras.erasRewardPoints e).individual.get? stash).getD 0)
    (eras.erasRewardPoints e).total : Perbill).mul R
  set commission := (eras.erasValidatorPrefs e validatorStash).commission.mul payout
  -- the exposure's shares add up to at most one, so their products exceed the leftover by half a unit each
  have hparts := sum_fromRationalParts_le 1000000000 exposure.total (exposure.own :: exposure.others.map (·.value))
    (by simpa using hexposure)
  have hshares := PerThing.two_mul_sum_mul_le (by norm_num)
    ((PerThing.fromRational exposure.own exposure.total : Perbill) ::
      exposure.others.map fun n => PerThing.fromRational n.value exposure.total)
    (by simpa [List.map_map, Function.comp_def] using hparts) (payout - commission)
  have hcommission : commission ≤ payout := PerThing.mul_le _ _
  simp only [List.map_cons, List.map_map, List.sum_cons, List.length_cons, List.length_map,
    Function.comp_def] at hshares ⊢
  omega

/-- Distinct validators paid for one era: the amounts add up to at most the
era's reward plus one unit per call. -/
theorem sum_payoutCalls_le
    (hpoints : (eras.erasRewardPoints e).total = ((eras.erasRewardPoints e).individual.toList.map fun p => p.2).sum)
    (hexposure : ∀ v, (eras.erasStakersClipped e v).own + ((eras.erasStakersClipped e v).others.map (·.value)).sum ≤
      (eras.erasStakersClipped e v).total)
    {vs : List Acc} (hvs : vs.Nodup) :
    ((vs.flatMap fun v => payoutCalls eras e R v v).map (·.2)).sum ≤
      R + (vs.flatMap fun v => payoutCalls eras e R v v).length := by
  set points := fun v => ((eras.erasRewardPoints e).individual.get? v).getD 0
  set part := fun v => (PerThing.fromRational (points v) (eras.erasRewardPoints e).total : Perbill).mul R
  set calls := fun v => payoutCalls eras e R v v
  have hper : ∀ v, 2 * ((calls v).map (·.2)).sum ≤ 2 * part v + (calls v).length :=
    fun v => two_mul_sum_payoutCalls_le v v (hexposure v)
  -- a validator without points has no part and makes no call; one with points makes one at least
  have hzero : ∀ v, ¬ points v ≠ 0 → part v = 0 := fun v h =>
    PerThing.mul_eq_zero_of_parts (by simp [not_not.mp h]) R
  have hcalls : ∀ v, points v ≠ 0 → 1 ≤ (calls v).length := by
    intro v h
    simp only [calls, payoutCalls]
    rw [if_neg h, List.length_cons]
    omega
  -- the points of the validators with points add up to at most the era's total
  have hsub : ((vs.filter (points · ≠ 0)).map points).sum ≤ (eras.erasRewardPoints e).total := by
    have hall := OrdMap.sum_getD_le_sum_values id (eras.erasRewardPoints e).individual hvs
    calc ((vs.filter (points · ≠ 0)).map points).sum ≤ (vs.map points).sum :=
          (List.filter_sublist.map points).sum_le_sum fun _ _ => Nat.zero_le _
      _ ≤ (eras.erasRewardPoints e).total := by
          rw [hpoints]
          simpa [points] using hall
  have hparts := sum_fromRationalParts_le 1000000000 (eras.erasRewardPoints e).total _ hsub
  have hshares := PerThing.two_mul_sum_mul_le (by norm_num)
    ((vs.filter (points · ≠ 0)).map fun v => (PerThing.fromRational (points v) (eras.erasRewardPoints e).total : Perbill))
    (by simpa [List.map_map, Function.comp_def] using hparts) R
  simp only [List.map_map, Function.comp_def, List.length_map] at hshares
  -- so the parts exceed the reward by half a unit per validator with points
  have hpart : 2 * (vs.map part).sum ≤ 2 * R + (vs.filter (points · ≠ 0)).length := by
    rw [← List.sum_map_filter_add_sum_map_filter_not (points · ≠ 0) part vs,
      List.sum_eq_zero (l := (vs.filter fun v => ¬ points v ≠ 0).map part) (by
        intro x hx
        obtain ⟨v, hv, rfl⟩ := List.mem_map.mp hx
        exact hzero v (by simpa using (List.mem_filter.mp hv).2))]
    simpa using hshares
  have hcount : (vs.filter (points · ≠ 0)).length ≤ (vs.map fun v => (calls v).length).sum := by
    calc (vs.filter (points · ≠ 0)).length = ((vs.filter (points · ≠ 0)).map fun v => (calls v).length).length :=
          (List.length_map _).symm
      _ ≤ ((vs.filter (points · ≠ 0)).map fun v => (calls v).length).sum :=
          List.length_le_sum_of_one_le _ (by
            intro n hn
            obtain ⟨v, hv, rfl⟩ := List.mem_map.mp hn
            exact hcalls v (by simpa using (List.mem_filter.mp hv).2))
      _ ≤ (vs.map fun v => (calls v).length).sum :=
          (List.filter_sublist.map _).sum_le_sum fun _ _ => Nat.zero_le _
  have hsum : 2 * (vs.map fun v => ((calls v).map (·.2)).sum).sum ≤
      2 * (vs.map part).sum + (vs.map fun v => (calls v).length).sum := by
    rw [← List.sum_map_mul_left, ← List.sum_map_mul_left, ← List.sum_map_add]
    exact List.sum_le_sum fun v _ => hper v
  have hflat : ((vs.flatMap calls).map (·.2)).sum = (vs.map fun v => ((calls v).map (·.2)).sum).sum := by
    rw [List.map_flatMap, List.flatMap_def, List.sum_flatten, List.map_map]
    rfl
  rw [hflat, List.length_flatMap]
  omega

end Rewards

/-! ## Whole runs -/

omit [LinearOrder Acc] in
theorem nodup_claims_era {claims : List (Acc × Nat)} (h : claims.Nodup) (e : Nat) :
    ((claims.filter (·.2 = e)).map (·.1)).Nodup := by
  refine (h.filter _).map_on fun x hx y hy hxy => Prod.ext hxy ?_
  have hxe : x.2 = e := by simpa using (List.mem_filter.mp hx).2
  have hye : y.2 = e := by simpa using (List.mem_filter.mp hy).2
  rw [hxe, hye]

/-- Over every run of `payout_stakers` and `bond`, no validator is paid twice
for an era, and an era's payouts add up to at most its reward plus one per
call. -/
theorem payouts_within_era_reward (cfg : Config) (eras : Eras Acc) {e R : Nat}
    (hR : eras.erasValidatorReward e = some R)
    (hpoints : (eras.erasRewardPoints e).total = ((eras.erasRewardPoints e).individual.toList.map fun p => p.2).sum)
    (hexposure : ∀ v, (eras.erasStakersClipped e v).own + ((eras.erasStakersClipped e v).others.map (·.value)).sum ≤
      (eras.erasStakersClipped e v).total)
    (st : St Acc) (hst : Paired st) (payee : Acc → RewardDestination Acc) (ops : List (PayoutOp Acc)) :
    (∀ v, (ops.foldl (PayoutOp.apply eras cfg) ⟨st, payee, [], []⟩).claims.count (v, e) ≤ 1) ∧
      (((ops.foldl (PayoutOp.apply eras cfg) ⟨st, payee, [], []⟩).payouts.filter (·.1 = e)).map (·.2.2)).sum ≤
        R + ((ops.foldl (PayoutOp.apply eras cfg) ⟨st, payee, [], []⟩).payouts.filter (·.1 = e)).length := by
  have hinv : PayoutInv eras (ops.foldl (PayoutOp.apply eras cfg) ⟨st, payee, [], []⟩) :=
    (PayoutInv.init hst payee).run cfg ops
  refine ⟨fun v => List.nodup_iff_count_le_one.mp hinv.claims_nodup (v, e), ?_⟩
  -- the calls logged for the era are those its claims make, by distinct validators
  have hlog := hinv.payouts e
  rw [hR, Option.getD_some] at hlog
  have hbound := sum_payoutCalls_le (R := R) hpoints hexposure (nodup_claims_era hinv.claims_nodup e)
  rw [List.flatMap_map, ← hlog] at hbound
  simpa only [List.map_map, List.length_map, Function.comp_def] using hbound

/-- Era `0` pays `1000`; validator `1` has all `10` points, a commission of a
tenth, and an exposure of `100`: `60` its own and `40` of nominator `2`. -/
def oneValidatorEras : Eras Nat where
  historyDepth := 84
  erasValidatorReward := fun era => if era = 0 then some 1000 else none
  erasRewardPoints := fun _ => ⟨10, OrdMap.empty.insert 1 10⟩
  erasStakersClipped := fun _ _ => ⟨100, 60, [⟨2, 40⟩]⟩
  erasValidatorPrefs := fun _ _ => ⟨PerThing.fromParts 100000000⟩

/-- Stash `1` bonded to controller `11`, in era `1`. -/
def bondedValidator : St Nat where
  bonded := fun a => if a = 1 then some 11 else none
  ledger := fun c => if c = 11 then some ⟨1, 60, 60, [], []⟩ else none
  currentEra := some 1
  nominators := fun _ => false
  validators := fun a => a = 1
  slashingSpans := fun _ => none

theorem paired_bondedValidator : Paired bondedValidator where
  ledger_of_bonded v c h := by
    simp only [bondedValidator] at h
    split_ifs at h with hv
    cases h
    subst hv
    exact ⟨_, rfl, rfl⟩
  bonded_of_ledger c l h := by
    simp only [bondedValidator] at h
    split_ifs at h with hc
    cases h
    subst hc
    rfl
  sorted c l h := by
    simp only [bondedValidator] at h
    split_ifs at h
    cases h
    exact List.Pairwise.nil

/-- The validator's payout asked for twice, around the bond of stash `2`. -/
theorem payouts_within_era_reward_oneValidator :
    oneValidatorEras.erasValidatorReward 0 = some 1000 ∧
      (oneValidatorEras.erasRewardPoints 0).total =
        ((oneValidatorEras.erasRewardPoints 0).individual.toList.map fun p => p.2).sum ∧
      (∀ v, (oneValidatorEras.erasStakersClipped 0 v).own +
        ((oneValidatorEras.erasStakersClipped 0 v).others.map (·.value)).sum ≤
          (oneValidatorEras.erasStakersClipped 0 v).total) ∧
      Paired bondedValidator ∧
      (∀ v, ([.payoutStakers (.signed 5) 1 0, .bond (.signed 2) 22 50 .staked 100 1,
          .payoutStakers (.signed 2) 1 0].foldl (PayoutOp.apply oneValidatorEras smallConfig)
            ⟨bondedValidator, fun _ => .staked, [], []⟩).claims.count (v, 0) ≤ 1) ∧
      ((([.payoutStakers (.signed 5) 1 0, .bond (.signed 2) 22 50 .staked 100 1,
          .payoutStakers (.signed 2) 1 0].foldl (PayoutOp.apply oneValidatorEras smallConfig)
            ⟨bondedValidator, fun _ => .staked, [], []⟩).payouts.filter (·.1 = 0)).map (·.2.2)).sum ≤
        1000 + (([.payoutStakers (.signed 5) 1 0, .bond (.signed 2) 22 50 .staked 100 1,
          .payoutStakers (.signed 2) 1 0].foldl (PayoutOp.apply oneValidatorEras smallConfig)
            ⟨bondedValidator, fun _ => .staked, [], []⟩).payouts.filter (·.1 = 0)).length :=
  have hR : oneValidatorEras.erasValidatorReward 0 = some 1000 := rfl
  have hpoints : (oneValidatorEras.erasRewardPoints 0).total =
      ((oneValidatorEras.erasRewardPoints 0).individual.toList.map fun p => p.2).sum := by decide
  have hexposure : ∀ v, (oneValidatorEras.erasStakersClipped 0 v).own +
      ((oneValidatorEras.erasStakersClipped 0 v).others.map (·.value)).sum ≤
        (oneValidatorEras.erasStakersClipped 0 v).total := fun _ => Nat.le_refl 100
  ⟨hR, hpoints, hexposure, paired_bondedValidator,
    payouts_within_era_reward smallConfig oneValidatorEras hR hpoints hexposure bondedValidator
      paired_bondedValidator (fun _ => .staked)
      [.payoutStakers (.signed 5) 1 0, .bond (.signed 2) 22 50 .staked 100 1, .payoutStakers (.signed 2) 1 0]⟩

end PalletStaking
