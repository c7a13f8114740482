import CherryNode.Updater.Pallet

/-!
# pallet-updater: the storage invariant and the vote tally

One equation per dispatchable gives the storage after it (`applyCall_*`), and
every call keeps `UpdaterInv`: unique members, at most one proposal with
`ProposalCount` its length, `Voting` entries exactly for the proposals, and a
pending proposal hashing the code stored at index `0`
(`updater_storage_invariant`).  `MaxMembers` is never read: `add_member` grows
past it (`addMember_exceeds_maxMembers`).

`close_vote` compares the *lengths* of `ayes` and `nays` with the member count.
The vote lists stay duplicate-free and disjoint (`VotingWF`), so while every
voter is a member this means every member voted
(`closeVote_sound_of_current_voters`); but `remove_member` leaves a departed
member's vote standing in for a member that never voted
(`closeVote_counts_departed_voter`).
-/

namespace PalletUpdater

open Frame

attribute [local instance] byte_neZero

variable {Acc H : Type} {signer : Acc} {p : H} {i : Nat} {v v' : Votes Acc} {approve : Bool} {members : List Acc}
    {code : Bytes} {s : St Acc H} {f : Acc → Option Bool}

/-- Whether the length-based tally of `close_vote` says every seat has voted:
`yes_votes + no_votes == seats`, all three `as MemberCount`. -/
def AllSeatsVoted (s : St Acc H) (v : Votes Acc) : Prop :=
  u32Wrap (u32Wrap v.ayes.length + u32Wrap v.nays.length) = u32Wrap s.members.length

instance (s : St Acc H) (v : Votes Acc) : Decidable (AllSeatsVoted s v) :=
  inferInstanceAs (Decidable (_ = _))

/-! ## What each call does to storage -/

section Spec

variable [DecidableEq Acc] [DecidableEq H] (hashOf : Bytes → H) (canSetCode : Bytes → Except SystemError Unit)
  (motionDuration : Nat) (s : St Acc H)

omit [DecidableEq H] in
theorem applyCall_addMember (o : Origin Acc) (a : Acc) :
    applyCall (addMember o a) s =
      if o = .root ∧ a ∉ s.members then { s with members := s.members ++ [a] } else s := by
  cases o <;> by_cases h : a ∈ s.members <;> simp [applyCall, addMember, ensureRoot, h]

omit [DecidableEq H] in
theorem applyCall_removeMember (o : Origin Acc) (a : Acc) :
    applyCall (removeMember o a) s =
      if o = .root ∧ a ∈ s.members then { s with members := s.members.filter (· ≠ a) }
      else s := by
  cases o <;> by_cases h : a ∈ s.members <;> simp [applyCall, removeMember, ensureRoot, h]

theorem applyCall_unsigned (o : Origin Acc) (ho : ∀ a, o ≠ .signed a)
    (c : UpdaterCall Acc H) (hc : ∀ a, c ≠ .addMember a) (hc' : ∀ a, c ≠ .removeMember a) :
    applyCall (dispatch hashOf canSetCode motionDuration o c) s = s := by
  cases o with
  | signed a => exact absurd rfl (ho a)
  | root => cases c <;> first | rfl | simp_all
  | none => cases c <;> rfl

theorem step_preserves (P : St Acc H → Prop) (hs : P s)
    (hadd : ∀ o a, P (applyCall (addMember o a) s))
    (hremove : ∀ o a, P (applyCall (removeMember o a) s))
    (hpropose : ∀ signer code,
      P (applyCall (proposeCode hashOf motionDuration (.signed signer) code) s))
    (hvote : ∀ signer p i approve, P (applyCall (voteCode (.signed signer) p i approve) s))
    (hclose : ∀ signer p i, P (applyCall (closeVote canSetCode (.signed signer) p i) s))
    (e : Origin Acc × UpdaterCall Acc H) : P (step hashOf canSetCode motionDuration s e) := by
  obtain ⟨o, c⟩ := e
  have hunsigned : (∀ a, o ≠ .signed a) → (∀ a, c ≠ .addMember a) →
      (∀ a, c ≠ .removeMember a) → P (step hashOf canSetCode motionDuration s (o, c)) :=
    fun ho hc hc' => by rwa [step, applyCall_unsigned hashOf canSetCode motionDuration s o ho c hc hc']
  cases c with
  | addMember a => exact hadd o a
  | removeMember a => exact hremove o a
  | proposeCode code =>
    cases o with
    | signed signer => exact hpropose signer code
    | _ => exact hunsigned (by simp) (by simp) (by simp)
  | voteCode p i approve =>
    cases o with
    | signed signer => exact hvote signer p i approve
    | _ => exact hunsigned (by simp) (by simp) (by simp)
  | closeVote p i =>
    cases o with
    | signed signer => exact hclose signer p i
    | _ => exact hunsigned (by simp) (by simp) (by simp)

theorem applyCall_proposeCode (signer : Acc) (code : Bytes) :
    applyCall (proposeCode hashOf motionDuration (.signed signer) code) s =
      if signer ∈ s.members ∧ s.proposals = [] then
        { s with proposals := [hashOf code], proposalCount := u32Wrap (s.proposalCount + 1),
                 codes := code,
                 voting := Function.update s.voting (hashOf code)
                   (some { index := s.proposalCount, threshold := u32Wrap s.members.length,
                           ayes := [], nays := [],
                           voteEnd := s.blockNumber + motionDuration }) }
      else s := by
  by_cases h1 : signer ∈ s.members
  · by_cases h2 : s.proposals = []
    · simp [applyCall, proposeCode, h1, h2]
    · by_cases h3 : hashOf code ∈ s.proposals <;> simp [applyCall, proposeCode, h1, h2, h3]
  · simp [applyCall, proposeCode, h1]

theorem applyCall_voteCode (signer : Acc) (p : H) (i : Nat) (approve : Bool) :
    applyCall (voteCode (.signed signer) p i approve) s =
      match s.voting p with
      | some v =>
        if signer ∈ s.members ∧ v.index = i then
          match tallyVote v signer approve with
          | some v' => { s with voting := Function.update s.voting p (some v') }
          | none => s
        else s
      | none => s := by
  by_cases h1 : signer ∈ s.members
  · rcases h2 : s.voting p with _ | v
    · simp [applyCall, voteCode, h1, h2]
    · by_cases h3 : v.index = i
      · rcases h4 : tallyVote v signer approve with _ | v' <;>
          simp [applyCall, voteCode, h1, h2, h3, h4]
      · simp [applyCall, voteCode, h1, h2, h3]
  · rcases s.voting p with _ | v <;> simp [applyCall, voteCode, h1]

theorem applyCall_closeVote (signer : Acc) (p : H) (i : Nat) :
    applyCall (closeVote canSetCode (.signed signer) p i) s =
      match s.voting p with
      | some v =>
        if signer ∈ s.members ∧ v.index = i ∧ AllSeatsVoted s v then
          if v.threshold ≤ u32Wrap v.ayes.length then
            match canSetCode s.codes with
            | .ok () => removeProposal p { s with code := s.codes }
            | .error _ => s
          else removeProposal p s
        else s
      | none => s := by
  by_cases h1 : signer ∈ s.members
  · rcases h2 : s.voting p with _ | v
    · simp [applyCall, closeVote, h1, h2]
    · by_cases h3 : v.index = i
      · by_cases h4 : AllSeatsVoted s v
        · unfold AllSeatsVoted at h4
          by_cases h5 : v.threshold ≤ u32Wrap v.ayes.length
          · rcases h6 : canSetCode s.codes with e | ⟨⟩ <;>
              simp [applyCall, closeVote, AllSeatsVoted, h1, h2, h3, h4, h5, h6]
          · simp [applyCall, closeVote, AllSeatsVoted, h1, h2, h3, h4, h5]
        · unfold AllSeatsVoted at h4
          simp [applyCall, closeVote, AllSeatsVoted, h1, h2, h3, h4]
      · simp [applyCall, closeVote, h1, h2, h3]
  · rcases s.voting p with _ | v <;> simp [applyCall, closeVote, h1]

theorem callResult_closeVote_ok
    (h : callResult (closeVote canSetCode (.signed signer) p i) s = .ok ()) :
    ∃ v, s.voting p = some v ∧ signer ∈ s.members ∧ v.index = i ∧ AllSeatsVoted s v ∧
      (v.threshold ≤ u32Wrap v.ayes.length → canSetCode s.codes = .ok ()) := by
  by_cases h1 : signer ∈ s.members
  · rcases h2 : s.voting p with _ | v
    · simp [callResult, closeVote, h1, h2] at h
    · by_cases h3 : v.index = i
      · by_cases h4 : AllSeatsVoted s v
        · refine ⟨v, rfl, h1, h3, h4, fun h5 => ?_⟩
          unfold AllSeatsVoted at h4
          rcases h6 : canSetCode s.codes with e | ⟨⟩
          · simp [callResult, closeVote, h1, h2, h3, h4, h5, h6] at h
          · rfl
        · unfold AllSeatsVoted at h4
          simp [callResult, closeVote, h1, h2, h3, h4] at h
      · simp [callResult, closeVote, h1, h2, h3] at h
  · simp [callResult, closeVote, h1] at h

end Spec

/-! ## The storage invariant -/

section Invariant

variable (hashOf : Bytes → H)

/-- No proposal: no hash in `Proposals` and no `Voting` entry. -/
structure Idle (s : St Acc H) : Prop where
  proposals_eq : s.proposals = []
  proposalCount_eq : s.proposalCount = 0
  voting_eq : ∀ p, s.voting p = none

/-- Proposal `h` is pending with votes `v`: its entry is the only one of
`Voting`, at index `0`, and `h` is the hash of `Codes`. -/
structure Pending (s : St Acc H) (h : H) (v : Votes Acc) : Prop where
  proposals_eq : s.proposals = [h]
  proposalCount_eq : s.proposalCount = 1
  voting_self : s.voting h = some v
  voting_other : ∀ p, p ≠ h → s.voting p = none
  index_eq : v.index = 0
  hash_codes : hashOf s.codes = h

/-- The invariant of pallet-updater's storage. -/
structure UpdaterInv (s : St Acc H) : Prop where
  members_nodup : s.members.Nodup
  phase : Idle s ∨ ∃ h v, Pending hashOf s h v

variable {hashOf} {s s' : St Acc H}

theorem Idle.congr (hs : Idle s) (hp : s'.proposals = s.proposals)
    (hc : s'.proposalCount = s.proposalCount) (hv : s'.voting = s.voting) : Idle s' :=
  ⟨hp.trans hs.proposals_eq, hc.trans hs.proposalCount_eq, fun p => by
    rw [hv]; exact hs.voting_eq p⟩

theorem Pending.congr {h : H} (hs : Pending hashOf s h v)
    (hp : s'.proposals = s.proposals) (hc : s'.proposalCount = s.proposalCount)
    (hv : s'.voting = s.voting) (hcodes : s'.codes = s.codes) : Pending hashOf s' h v where
  proposals_eq := hp.trans hs.proposals_eq
  proposalCount_eq := hc.trans hs.proposalCount_eq
  voting_self := by rw [hv]; exact hs.voting_self
  voting_other p hp := by rw [hv]; exact hs.voting_other p hp
  index_eq := hs.index_eq
  hash_codes := by rw [hcodes]; exact hs.hash_codes

theorem UpdaterInv.congr (hi : UpdaterInv hashOf s) (hm : s'.members.Nodup)
    (hp : s'.proposals = s.proposals) (hc : s'.proposalCount = s.proposalCount)
    (hv : s'.voting = s.voting) (hcodes : s'.codes = s.codes) : UpdaterInv hashOf s' := by
  refine ⟨hm, ?_⟩
  rcases hi.phase with hidle | ⟨h, v, hpend⟩
  · exact .inl (hidle.congr hp hc hv)
  · exact .inr ⟨h, v, hpend.congr hp hc hv hcodes⟩

theorem UpdaterInv.pending_of_voting (hi : UpdaterInv hashOf s)
    (hv : s.voting p = some v) : Pending hashOf s p v := by
  rcases hi.phase with hidle | ⟨h, v₀, hpend⟩
  · simp [hidle.voting_eq p] at hv
  · by_cases hph : p = h
    · subst hph
      rw [hpend.voting_self] at hv
      cases hv
      exact hpend
    · simp [hpend.voting_other p hph] at hv

/-! ### What the invariant says about the five storage items -/

theorem UpdaterInv.length_proposals_le_one (hi : UpdaterInv hashOf s) :
    s.proposals.length ≤ 1 := by
  rcases hi.phase with hidle | ⟨h, v, hpend⟩
  · simp [hidle.proposals_eq]
  · simp [hpend.proposals_eq]

theorem UpdaterInv.proposalCount_eq_length (hi : UpdaterInv hashOf s) :
    s.proposalCount = s.proposals.length := by
  rcases hi.phase with hidle | ⟨h, v, hpend⟩
  · simp [hidle.proposals_eq, hidle.proposalCount_eq]
  · simp [hpend.proposals_eq, hpend.proposalCount_eq]

theorem UpdaterInv.pending_of_mem (hi : UpdaterInv hashOf s) (hp : p ∈ s.proposals) :
    hashOf s.codes = p ∧ ∃ v, s.voting p = some v ∧ v.index = 0 := by
  rcases hi.phase with hidle | ⟨h, v, hpend⟩
  · simp [hidle.proposals_eq] at hp
  · have hph : p = h := by simpa [hpend.proposals_eq] using hp
    subst hph
    exact ⟨hpend.hash_codes, v, hpend.voting_self, hpend.index_eq⟩

theorem UpdaterInv.voting_isSome_iff (hi : UpdaterInv hashOf s) (p : H) :
    (s.voting p).isSome ↔ p ∈ s.proposals := by
  constructor
  · intro hsome
    obtain ⟨v, hv⟩ := Option.isSome_iff_exists.mp hsome
    simp [(hi.pending_of_voting hv).proposals_eq]
  · intro hp
    obtain ⟨-, v, hv, -⟩ := hi.pending_of_mem hp
    simp [hv]

/-! ### One step -/

variable [DecidableEq Acc] [DecidableEq H]

omit [DecidableEq Acc] in
theorem Pending.idle_removeProposal {h : H} (hs : Pending hashOf s h v) :
    Idle (removeProposal h s) where
  proposals_eq := rfl
  proposalCount_eq := rfl
  voting_eq p := by
    by_cases hp : p = h
    · subst hp; simp [removeProposal]
    · simp [removeProposal, hp, hs.voting_other p hp]

omit [DecidableEq H] in
theorem tallyVote_index
    (h : tallyVote v signer approve = some v') : v'.index = v.index := by
  unfold tallyVote at h
  split at h <;> split at h <;> cases h <;> rfl

omit [DecidableEq H] in
theorem UpdaterInv.addMember (hi : UpdaterInv hashOf s) (o : Origin Acc) (a : Acc) :
    UpdaterInv hashOf (applyCall (addMember o a) s) := by
  rw [applyCall_addMember]
  split_ifs with h
  · exact hi.congr (hi.members_nodup.append_singleton h.2) rfl rfl rfl rfl
  · exact hi

omit [DecidableEq H] in
theorem UpdaterInv.removeMember (hi : UpdaterInv hashOf s) (o : Origin Acc) (a : Acc) :
    UpdaterInv hashOf (applyCall (removeMember o a) s) := by
  rw [applyCall_removeMember]
  split_ifs
  · exact hi.congr (hi.members_nodup.filter _) rfl rfl rfl rfl
  · exact hi

theorem UpdaterInv.proposeCode (hi : UpdaterInv hashOf s) (motionDuration : Nat)
    (signer : Acc) (code : Bytes) :
    UpdaterInv hashOf (applyCall (proposeCode hashOf motionDuration (.signed signer) code) s) := by
  rw [applyCall_proposeCode]
  split_ifs with h
  · -- `proposals = []` rules out a pending proposal, so the state was idle
    have hidle : Idle s := by
      rcases hi.phase with hidle | ⟨_, _, hpend⟩
      · exact hidle
      · simp [hpend.proposals_eq] at h
    refine ⟨hi.members_nodup, .inr ⟨hashOf code,
      { index := s.proposalCount, threshold := u32Wrap s.members.length, ayes := [], nays := [],
        voteEnd := s.blockNumber + motionDuration }, ?_⟩⟩
    exact {
      proposals_eq := rfl
      proposalCount_eq := by simp [hidle.proposalCount_eq, u32Wrap]
      voting_self := by simp
      voting_other := fun p hp => by simp [hp, hidle.voting_eq p]
      index_eq := hidle.proposalCount_eq
      hash_codes := rfl }
  · exact hi

theorem UpdaterInv.voteCode (hi : UpdaterInv hashOf s) (signer : Acc) (p : H) (i : Nat)
    (approve : Bool) : UpdaterInv hashOf (applyCall (voteCode (.signed signer) p i approve) s) := by
  rw [applyCall_voteCode]
  rcases hv : s.voting p with _ | v
  · exact hi
  · simp only
    split_ifs
    · rcases ht : tallyVote v signer approve with _ | v'
      · exact hi
      · -- the new entry replaces the pending one and keeps its index
        have hpend := hi.pending_of_voting hv
        refine ⟨hi.members_nodup, .inr ⟨p, v', ?_⟩⟩
        exact {
          proposals_eq := hpend.proposals_eq
          proposalCount_eq := hpend.proposalCount_eq
          voting_self := by simp
          voting_other := fun q hq => by simp [hq, hpend.voting_other q hq]
          index_eq := (tallyVote_index ht).trans hpend.index_eq
          hash_codes := hpend.hash_codes }
    · exact hi

theorem UpdaterInv.closeVote (hi : UpdaterInv hashOf s)
    (canSetCode : Bytes → Except SystemError Unit) (signer : Acc) (p : H) (i : Nat) :
    UpdaterInv hashOf (applyCall (closeVote canSetCode (.signed signer) p i) s) := by
  rw [applyCall_closeVote]
  rcases hv : s.voting p with _ | v
  · exact hi
  · have hpend := hi.pending_of_voting hv
    -- both outcomes of a finished vote remove the proposal; `:code` is outside the invariant
    have hremove : ∀ s' : St Acc H, s'.members = s.members → s'.voting = s.voting →
        s'.proposals = s.proposals → s'.proposalCount = s.proposalCount → s'.codes = s.codes →
        UpdaterInv hashOf (removeProposal p s') := fun s' hm hvs hp hc hcodes =>
      ⟨hm ▸ hi.members_nodup, .inl (hpend.congr hp hc hvs hcodes).idle_removeProposal⟩
    simp only
    split_ifs
    · rcases canSetCode s.codes with _ | ⟨⟩
      · exact hi
      · exact hremove _ rfl rfl rfl rfl rfl
    · exact hremove _ rfl rfl rfl rfl rfl
    · exact hi

variable (canSetCode : Bytes → Except SystemError Unit) (motionDuration : Nat)

theorem UpdaterInv.step (hi : UpdaterInv hashOf s) (e : Origin Acc × UpdaterCall Acc H) :
    UpdaterInv hashOf (step hashOf canSetCode motionDuration s e) :=
  step_preserves hashOf canSetCode motionDuration s (UpdaterInv hashOf) hi hi.addMember
    hi.removeMember (hi.proposeCode motionDuration) hi.voteCode (hi.closeVote canSetCode) e

/-! ### Every run -/

omit [DecidableEq H] in
theorem UpdaterInv.genesis {s₀ : St Acc H}
    (h : genesisBuild members code = some s₀) : UpdaterInv hashOf s₀ := by
  unfold genesisBuild at h
  split_ifs at h with hnd
  cases h
  exact ⟨hnd, .inl ⟨rfl, rfl, fun _ => rfl⟩⟩

theorem UpdaterInv.of_reachable
    (h : Reachable hashOf canSetCode motionDuration members code s) : UpdaterInv hashOf s := by
  obtain ⟨s₀, hg, hr⟩ := h
  exact hr.rec_invariant (UpdaterInv hashOf) (.genesis hg)
    fun _ e hi => hi.step canSetCode motionDuration e

variable (hashOf)

/-- From a genesis with unique members, every run keeps the storage items in
agreement: unique members, at most one proposal counted by `ProposalCount`,
and votes for exactly the pending hash, which is that of `Codes`. -/
theorem updater_storage_invariant (members : List Acc) (code : Bytes) (s : St Acc H)
    (h : Reachable hashOf canSetCode motionDuration members code s) :
    s.members.Nodup ∧ s.proposals.length ≤ 1 ∧ s.proposalCount = s.proposals.length ∧
      (∀ p, (s.voting p).isSome ↔ p ∈ s.proposals) ∧
      ∀ p ∈ s.proposals, hashOf s.codes = p ∧ ∃ v, s.voting p = some v ∧ v.index = 0 := by
  have hi := UpdaterInv.of_reachable canSetCode motionDuration h
  exact ⟨hi.members_nodup, hi.length_proposals_le_one, hi.proposalCount_eq_length,
    hi.voting_isSome_iff, fun p hp => hi.pending_of_mem hp⟩

/-- Member `1` proposes the code `[5]`, whose hash (here its length) is `1`. -/
def proposeFive : List (Origin Nat × UpdaterCall Nat Nat) := [(.signed 1, .proposeCode [5])]

theorem updater_storage_invariant_proposeFive :
    Reachable List.length (fun _ => .ok ()) 0 [1, 2] []
      (proposeFive.foldl (PalletUpdater.step List.length (fun _ => .ok ()) 0)
        (genesisState [1, 2] [])) ∧
    let s := proposeFive.foldl (PalletUpdater.step List.length (fun _ => .ok ()) 0)
      (genesisState [1, 2] [])
    s.members.Nodup ∧ s.proposals.length ≤ 1 ∧ s.proposalCount = s.proposals.length ∧
      (∀ p, (s.voting p).isSome ↔ p ∈ s.proposals) ∧
      ∀ p ∈ s.proposals, List.length s.codes = p ∧ ∃ v, s.voting p = some v ∧ v.index = 0 := by
  have hr : Reachable List.length (fun _ => .ok ()) 0 [1, 2] []
      (proposeFive.foldl (PalletUpdater.step List.length (fun _ => .ok ()) 0)
        (genesisState [1, 2] [])) :=
    ⟨_, rfl, StepRun.reachable_foldl _ _ _ .init⟩
  exact ⟨hr, updater_storage_invariant List.length (fun _ => .ok ()) 0 [1, 2] [] _ hr⟩

/-- `Config::MaxMembers` of the runtime (`MaxMemberCnt`).  No call reads it. -/
def maxMemberCnt : Nat := 3

/-- Three genesis members, and root adds a fourth. -/
def addFourth : List (Origin Nat × UpdaterCall Nat Nat) := [(.root, .addMember 4)]

theorem addMember_exceeds_maxMembers :
    Reachable List.length (fun _ => .ok ()) 0 [1, 2, 3] []
      (addFourth.foldl (PalletUpdater.step List.length (fun _ => .ok ()) 0)
        (genesisState [1, 2, 3] [])) ∧
    maxMemberCnt < (addFourth.foldl (PalletUpdater.step List.length (fun _ => .ok ()) 0)
      (genesisState [1, 2, 3] [])).members.length :=
  ⟨⟨_, rfl, StepRun.reachable_foldl _ _ _ .init⟩, by decide⟩

end Invariant

/-! ## The tally of `close_vote` -/

section Tally

/-- The vote lists `vote_code` builds: no account twice, none on both sides. -/
structure VotesWF (v : Votes Acc) : Prop where
  ayes_nodup : v.ayes.Nodup
  nays_nodup : v.nays.Nodup
  disjoint : ∀ a ∈ v.ayes, a ∉ v.nays

variable [DecidableEq Acc] [DecidableEq H]

theorem VotesWF.push_swapRemoveFirst {side other : List Acc} (hside : side.Nodup)
    (hother : other.Nodup) (hdisj : ∀ a ∈ side, a ∉ other)
    (hs : signer ∉ side) :
    (side ++ [signer]).Nodup ∧ (other.swapRemoveFirst signer).Nodup ∧
      ∀ a ∈ side ++ [signer], a ∉ other.swapRemoveFirst signer := by
  refine ⟨hside.append_singleton hs, hother.swapRemoveFirst signer, ?_⟩
  intro a ha
  by_cases has : signer = a
  · subst has
    exact List.not_mem_swapRemoveFirst hother signer
  · have ha' : a ∈ side := by simpa [Ne.symm has] using ha
    rw [List.mem_swapRemoveFirst_of_ne has]
    exact hdisj a ha'

omit [DecidableEq H] in
theorem VotesWF.tallyVote (hv : VotesWF v)
    (h : tallyVote v signer approve = some v') : VotesWF v' := by
  unfold PalletUpdater.tallyVote at h
  split at h
  · split at h
    · cases h
    · rename_i hnone
      cases h
      obtain ⟨h1, h2, h3⟩ := push_swapRemoveFirst hv.ayes_nodup hv.nays_nodup hv.disjoint
        (List.idxOf?_eq_none_iff.mp hnone)
      exact ⟨h1, h2, h3⟩
  · split at h
    · cases h
    · rename_i hnone
      cases h
      -- the same step with the two sides exchanged
      obtain ⟨h1, h2, h3⟩ := push_swapRemoveFirst hv.nays_nodup hv.ayes_nodup
        (fun a ha hb => hv.disjoint a hb ha) (List.idxOf?_eq_none_iff.mp hnone)
      exact ⟨h2, h1, fun a ha hb => h3 a hb ha⟩

/-- Every `Voting` entry is well formed. -/
def VotingWF (s : St Acc H) : Prop := ∀ p v, s.voting p = some v → VotesWF v

section Step

variable (hashOf : Bytes → H) (canSetCode : Bytes → Except SystemError Unit)
  (motionDuration : Nat) {s : St Acc H}

omit [DecidableEq Acc] in
theorem VotingWF.update (hs : VotingWF s) (p : H) {w : Option (Votes Acc)}
    (hw : ∀ v, w = some v → VotesWF v) : VotingWF { s with voting := Function.update s.voting p w } := by
  intro q v hv
  by_cases hq : q = p
  · subst hq
    exact hw v (by simpa using hv)
  · exact hs q v (by simpa [hq] using hv)

theorem VotingWF.step (hs : VotingWF s) (e : Origin Acc × UpdaterCall Acc H) :
    VotingWF (step hashOf canSetCode motionDuration s e) := by
  refine step_preserves hashOf canSetCode motionDuration s VotingWF hs ?_ ?_ ?_ ?_ ?_ e
  · intro o a
    rw [applyCall_addMember]
    split_ifs <;> exact hs
  · intro o a
    rw [applyCall_removeMember]
    split_ifs <;> exact hs
  · intro signer code
    rw [applyCall_proposeCode]
    split_ifs
    · -- the new entry has no votes yet
      exact VotingWF.update (s := { s with proposals := _, proposalCount := _, codes := _ }) hs _
        (fun v hv => by cases hv; exact ⟨List.nodup_nil, List.nodup_nil, by simp⟩)
    · exact hs
  · intro signer p i approve
    rw [applyCall_voteCode]
    rcases hv : s.voting p with _ | v
    · exact hs
    · simp only
      split_ifs
      · rcases ht : tallyVote v signer approve with _ | v'
        · exact hs
        · exact hs.update p (fun w hw => by cases hw; exact (hs p v hv).tallyVote ht)
      · exact hs
  · intro signer p i
    rw [applyCall_closeVote]
    rcases s.voting p with _ | v
    · exact hs
    · -- `remove_proposal` only deletes the entry
      have hremove : ∀ s' : St Acc H, VotingWF s' → VotingWF (removeProposal p s') :=
        fun s' hs' => VotingWF.update (s := { s' with codes := [], proposals := [], proposalCount := 0 })
          hs' p (fun _ hw => by cases hw)
      simp only
      split_ifs
      · rcases canSetCode s.codes with _ | ⟨⟩
        · exact hs
        · exact hremove _ hs
      · exact hremove _ hs
      · exact hs

theorem VotingWF.of_reachable
    (h : Reachable hashOf canSetCode motionDuration members code s) : VotingWF s := by
  obtain ⟨s₀, hg, hr⟩ := h
  refine hr.rec_invariant VotingWF ?_ fun _ e hs => hs.step hashOf canSetCode motionDuration e
  unfold genesisBuild at hg
  split_ifs at hg
  cases hg
  intro p v hv
  cases hv

end Step

omit [DecidableEq Acc] [DecidableEq H] in
theorem VotesWF.all_voted (hv : VotesWF v)
    (hlen : s.members.length < 2 ^ 32)
    (hvoters : ∀ a, a ∈ v.ayes ∨ a ∈ v.nays → a ∈ s.members) (hall : AllSeatsVoted s v) :
    ∀ a ∈ s.members, a ∈ v.ayes ∨ a ∈ v.nays := by
  have hnd : (v.ayes ++ v.nays).Nodup :=
    List.nodup_append.mpr ⟨hv.ayes_nodup, hv.nays_nodup, fun a ha b hb hab =>
      hv.disjoint a ha (hab ▸ hb)⟩
  have hsub : (v.ayes ++ v.nays).Subperm s.members :=
    List.subperm_of_subset hnd fun a ha => hvoters a (List.mem_append.mp ha)
  -- the voters fit in the members, so no count wraps and the lengths agree
  have hle : v.ayes.length + v.nays.length ≤ s.members.length := by
    simpa using hsub.length_le
  have heq : v.ayes.length + v.nays.length = s.members.length := by
    unfold AllSeatsVoted u32Wrap at hall
    rwa [Nat.mod_eq_of_lt (a := v.ayes.length) (by omega),
      Nat.mod_eq_of_lt (a := v.nays.length) (by omega), Nat.mod_eq_of_lt (by omega),
      Nat.mod_eq_of_lt hlen] at hall
  have hperm := hsub.perm_of_length_le (by simp [heq])
  intro a ha
  exact List.mem_append.mp (hperm.mem_iff.mpr ha)

variable (hashOf : Bytes → H) (canSetCode : Bytes → Except SystemError Unit)
  (motionDuration : Nat)

/-- On a reachable state whose votes for `p` were all cast by current members,
a successful `close_vote` has heard every member, and it writes `:code` exactly
when at least `threshold` current members are in `ayes`. -/
theorem closeVote_sound_of_current_voters
    (hr : Reachable hashOf canSetCode motionDuration members code s)
    (hlen : s.members.length < 2 ^ 32)
    (hvoters : ∀ v, s.voting p = some v → ∀ a, a ∈ v.ayes ∨ a ∈ v.nays → a ∈ s.members)
    (hok : callResult (closeVote canSetCode (.signed signer) p i) s = .ok ()) :
    ∃ v, s.voting p = some v ∧ (∀ a ∈ s.members, a ∈ v.ayes ∨ a ∈ v.nays) ∧
      (applyCall (closeVote canSetCode (.signed signer) p i) s).code =
        if v.threshold ≤ (v.ayes.filter (· ∈ s.members)).length then s.codes else s.code := by
  obtain ⟨v, hv, h1, h2, h3, h4⟩ := callResult_closeVote_ok canSetCode s hok
  have hwf := VotingWF.of_reachable hashOf canSetCode motionDuration hr p v hv
  have hcur := hvoters v hv
  refine ⟨v, hv, hwf.all_voted hlen hcur h3, ?_⟩
  -- all ayes are members, and fewer than `2 ^ 32` of them
  have hfilter : v.ayes.filter (· ∈ s.members) = v.ayes :=
    List.filter_eq_self.mpr fun a ha => by simpa using hcur a (.inl ha)
  have hwrap : u32Wrap v.ayes.length = v.ayes.length := by
    have : v.ayes.length ≤ s.members.length :=
      (List.subperm_of_subset hwf.ayes_nodup fun a ha => hcur a (.inl ha)).length_le
    exact Nat.mod_eq_of_lt (by omega)
  rw [applyCall_closeVote, hfilter]
  simp only [hv, h1, h2, h3, true_and, if_true]
  rw [hwrap] at h4 ⊢
  by_cases h5 : v.threshold ≤ v.ayes.length
  · simp [h5, h4 h5, removeProposal]
  · simp [h5, removeProposal]

/-- Members `1` and `2`: member `1` proposes `[5]`, and both vote aye. -/
def bothVoteState : St Nat Nat :=
  [(.signed 1, .proposeCode [5]), (.signed 1, .voteCode 1 0 true), (.signed 2, .voteCode 1 0 true)].foldl
    (step List.length (fun _ => .ok ()) 0) (genesisState [1, 2] [])

theorem closeVote_sound_bothVote :
    ∃ v, bothVoteState.voting 1 = some v ∧ ∀ a ∈ bothVoteState.members, a ∈ v.ayes ∨ a ∈ v.nays := by
  have hr : Reachable List.length (fun _ => .ok ()) 0 [1, 2] [] bothVoteState :=
    ⟨_, rfl, StepRun.reachable_foldl _ _ _ .init⟩
  have hvoters : ∀ v, bothVoteState.voting 1 = some v → ∀ a, a ∈ v.ayes ∨ a ∈ v.nays → a ∈ bothVoteState.members := by
    intro v hv a ha
    have hvote : bothVoteState.voting 1 =
        some { index := 0, threshold := 2, ayes := [1, 2], nays := [], voteEnd := 0 } := by decide
    rw [hvote, Option.some.injEq] at hv
    subst hv
    rw [show bothVoteState.members = [1, 2] by decide]
    simpa using ha
  have hok : callResult (closeVote (fun _ => .ok ()) (.signed 2) 1 0) bothVoteState = .ok () := by decide
  obtain ⟨v, h1, h2, -⟩ :=
    closeVote_sound_of_current_voters List.length (fun _ => .ok ()) 0 hr (by decide) hvoters hok
  exact ⟨v, h1, h2⟩

/-- Members `1` and `2`.  Member `1` proposes `[5]` (threshold `2`) and votes
aye; root removes `1` and adds `3`; member `2` votes aye. -/
def departedVoter : List (Origin Nat × UpdaterCall Nat Nat) :=
  [(.signed 1, .proposeCode [5]), (.signed 1, .voteCode 1 0 true), (.root, .removeMember 1),
   (.root, .addMember 3), (.signed 2, .voteCode 1 0 true)]

def departedVoterState : St Nat Nat :=
  departedVoter.foldl (step List.length (fun _ => .ok ()) 0) (genesisState [1, 2] [])

/-- `close_vote` by `2` succeeds and sets `:code` to `[5]`, with members
`[2, 3]`: member `3` never voted, the aye of the removed `1` is counted, and
one current member is in `ayes` against a threshold of `2`. -/
theorem closeVote_counts_departed_voter :
    Reachable List.length (fun _ => .ok ()) 0 [1, 2] [] departedVoterState ∧
    departedVoterState.members = [2, 3] ∧
    departedVoterState.voting 1 =
      some { index := 0, threshold := 2, ayes := [1, 2], nays := [], voteEnd := 0 } ∧
    callResult (closeVote (fun _ => .ok ()) (.signed 2) 1 0) departedVoterState = .ok () ∧
    (applyCall (closeVote (fun _ => .ok ()) (.signed 2) 1 0) departedVoterState).code = [5] :=
  ⟨⟨_, rfl, StepRun.reachable_foldl _ _ _ .init⟩, by decide, by decide, by decide, by decide⟩

end Tally

/-! ## The last vote wins

`vote_code` keeps, for each proposal, what an account's *last* vote was: the
abstract tally is a map from voter to `Option Bool`, and a successful vote
overwrites the voter's entry.  `Denotes v f` says the two vote lists hold that
map; one lemma per outcome of `tallyVote` carries it, and a run of successful
calls is then an induction over the calls. -/

section LastVote

/-- The votes recorded in `v`, read as a map from voter to its side. -/
def tallyOf [DecidableEq Acc] (v : Votes Acc) (a : Acc) : Option Bool :=
  if a ∈ v.ayes then some true else if a ∈ v.nays then some false else none

/-- The latest vote of `a` among `votes` (oldest first), else its vote in `prior`. -/
def lastVote [DecidableEq Acc] (votes : List (Acc × Bool)) (prior : Acc → Option Bool) (a : Acc) :
    Option Bool :=
  ((votes.reverse.find? (·.1 = a)).map (·.2)).or (prior a)

/-- The vote lists `v` hold the map `f`: each is duplicate-free and holds
exactly the voters whose vote is its side. -/
structure Denotes (v : Votes Acc) (f : Acc → Option Bool) : Prop where
  ayes_nodup : v.ayes.Nodup
  nays_nodup : v.nays.Nodup
  mem_ayes : ∀ a, a ∈ v.ayes ↔ f a = some true
  mem_nays : ∀ a, a ∈ v.nays ↔ f a = some false

variable [DecidableEq Acc]

theorem lastVote_nil (prior : Acc → Option Bool) : lastVote [] prior = prior := by
  funext a
  simp [lastVote]

theorem lastVote_cons (e : Acc × Bool) (votes : List (Acc × Bool)) (prior : Acc → Option Bool) :
    lastVote (e :: votes) prior = lastVote votes (Function.update prior e.1 (some e.2)) := by
  funext a
  obtain ⟨b, approve⟩ := e
  -- the older vote `(b, approve)` is looked at only when `votes` has none of `a`
  rcases h : (votes.reverse.find? (·.1 = a)) with _ | x
  · by_cases hab : a = b
    · subst hab
      simp [lastVote, List.find?_append, h]
    · simp [lastVote, List.find?_append, h, hab, Ne.symm hab]
  · simp [lastVote, List.find?_append, h]

omit [DecidableEq Acc] in
theorem Denotes.votesWF (hd : Denotes v f) : VotesWF v := by
  refine ⟨hd.ayes_nodup, hd.nays_nodup, fun a ha hn => ?_⟩
  have h1 := (hd.mem_ayes a).mp ha
  have h2 := (hd.mem_nays a).mp hn
  rw [h1] at h2
  cases h2

theorem Denotes.of_votesWF (hv : VotesWF v) : Denotes v (tallyOf v) := by
  refine ⟨hv.ayes_nodup, hv.nays_nodup, fun a => ?_, fun a => ?_⟩
  · by_cases ha : a ∈ v.ayes
    · simp [tallyOf, ha]
    · by_cases hn : a ∈ v.nays <;> simp [tallyOf, ha, hn]
  · by_cases ha : a ∈ v.ayes
    · simp [tallyOf, ha, hv.disjoint a ha]
    · by_cases hn : a ∈ v.nays <;> simp [tallyOf, ha, hn]

/-- Recording a vote for side `b`: pushed on its own list, swap-removed from the other. -/
theorem Denotes.record {side other : List Acc} {b : Bool}
    (hside : side.Nodup) (hother : other.Nodup) (hs : ∀ a, a ∈ side ↔ f a = some b)
    (ho : ∀ a, a ∈ other ↔ f a = some !b) (hsig : signer ∉ side) :
    (side ++ [signer]).Nodup ∧ (other.swapRemoveFirst signer).Nodup ∧
      (∀ a, a ∈ side ++ [signer] ↔ Function.update f signer (some b) a = some b) ∧
      (∀ a, a ∈ other.swapRemoveFirst signer ↔ Function.update f signer (some b) a = some !b) := by
  refine ⟨hside.append_singleton hsig, hother.swapRemoveFirst signer, fun a => ?_, fun a => ?_⟩
  · by_cases ha : a = signer
    · subst ha
      simp
    · simp [ha, hs a]
  · by_cases ha : a = signer
    · subst ha
      simp [List.not_mem_swapRemoveFirst hother]
    · rw [List.mem_swapRemoveFirst_of_ne (Ne.symm ha), ho a]
      simp [ha]

/-- A recorded vote overwrites the voter's entry of the map. -/
theorem Denotes.tallyVote (hd : Denotes v f)
    (h : PalletUpdater.tallyVote v signer approve = some v') :
    Denotes v' (Function.update f signer (some approve)) := by
  unfold PalletUpdater.tallyVote at h
  cases approve
  · rcases hidx : v.nays.idxOf? signer with _ | k
    · simp only [hidx, Bool.false_eq_true, if_false, Option.some.injEq] at h
      subst h
      obtain ⟨h1, h2, h3, h4⟩ := Denotes.record hd.nays_nodup hd.ayes_nodup hd.mem_nays hd.mem_ayes
        (List.idxOf?_eq_none_iff.mp hidx)
      exact ⟨h2, h1, h4, h3⟩
    · simp [hidx] at h
  · rcases hidx : v.ayes.idxOf? signer with _ | k
    · simp only [hidx, if_true, Option.some.injEq] at h
      subst h
      obtain ⟨h1, h2, h3, h4⟩ := Denotes.record hd.ayes_nodup hd.nays_nodup hd.mem_ayes hd.mem_nays
        (List.idxOf?_eq_none_iff.mp hidx)
      exact ⟨h1, h2, h3, h4⟩
    · simp [hidx] at h

variable [DecidableEq H]

/-- One `vote_code` on proposal `p` at index `i`, by `e.1` for side `e.2`. -/
def voteStep (p : H) (i : Nat) (s : St Acc H) (e : Acc × Bool) : St Acc H :=
  applyCall (voteCode (.signed e.1) p i e.2) s

theorem Denotes.voteStep
    (hv : s.voting p = some v) (hd : Denotes v f) {e : Acc × Bool}
    (hok : callResult (voteCode (.signed e.1) p i e.2) s = .ok ()) :
    ∃ v', (PalletUpdater.voteStep p i s e).voting p = some v' ∧
      Denotes v' (Function.update f e.1 (some e.2)) := by
  obtain ⟨signer, approve⟩ := e
  by_cases h1 : signer ∈ s.members
  · by_cases h2 : v.index = i
    · rcases h3 : PalletUpdater.tallyVote v signer approve with _ | v'
      · simp [callResult, voteCode, h1, hv, h2, h3] at hok
      · refine ⟨v', ?_, hd.tallyVote h3⟩
        simp [PalletUpdater.voteStep, applyCall_voteCode, hv, h1, h2, h3]
    · simp [callResult, voteCode, h1, hv, h2] at hok
  · simp [callResult, voteCode, h1] at hok

/-- **Run lemma.**  Over a run of successful calls, the proposal's lists hold
the map of last votes. -/
theorem Denotes.foldl_voteStep :
    ∀ (votes : List (Acc × Bool)) {s : St Acc H} {v : Votes Acc} {f : Acc → Option Bool},
      s.voting p = some v → Denotes v f →
      StepRun.Guarded (PalletUpdater.voteStep p i)
        (fun s e => callResult (voteCode (.signed e.1) p i e.2) s = .ok ()) s votes →
      ∃ v', (votes.foldl (PalletUpdater.voteStep p i) s).voting p = some v' ∧
        Denotes v' (lastVote votes f)
  | [], _, v, f, hv, hd, _ => ⟨v, hv, by rw [lastVote_nil]; exact hd⟩
  | e :: votes, _, _, _, hv, hd, ⟨he, hg⟩ => by
    obtain ⟨v₁, hv₁, hd₁⟩ := hd.voteStep hv he
    rw [List.foldl_cons, lastVote_cons]
    exact Denotes.foldl_voteStep votes hv₁ hd₁ hg

/-- Every error of `vote_code` is returned before its only write. -/
theorem voteCode_error_keeps_state {o : Origin Acc}
    {e : DispatchError Error}
    (he : callResult (voteCode o p i approve) s = .error e) : applyCall (voteCode o p i approve) s = s := by
  rcases o with _ | signer | _
  · rfl
  · rw [applyCall_voteCode]
    rcases hv : s.voting p with _ | v
    · rfl
    · dsimp only
      split_ifs with h
      · rcases h3 : tallyVote v signer approve with _ | v'
        · rfl
        · simp [callResult, voteCode, h.1, hv, h.2, h3] at he
      · rfl
  · rfl

theorem voteCode_last_vote_wins (s : St Acc H) (p : H) (i : Nat) (v : Votes Acc)
    (hv : s.voting p = some v) (hwf : VotesWF v) (votes : List (Acc × Bool))
    (hok : StepRun.Guarded (voteStep p i) (fun s e => callResult (voteCode (.signed e.1) p i e.2) s = .ok ())
      s votes) :
    (∃ v', (votes.foldl (voteStep p i) s).voting p = some v' ∧ v'.ayes.Nodup ∧ v'.nays.Nodup ∧
      (∀ a, a ∈ v'.ayes ↔ lastVote votes (tallyOf v) a = some true) ∧
      (∀ a, a ∈ v'.nays ↔ lastVote votes (tallyOf v) a = some false) ∧
      ∀ a ∈ v'.ayes, a ∉ v'.nays) ∧
    ∀ (t : St Acc H) (o : Origin Acc) (approve : Bool),
      callResult (voteCode o p i approve) t = .error (.module .duplicateVote) →
        (applyCall (voteCode o p i approve) t).voting = t.voting := by
  obtain ⟨v', hv', hd⟩ := Denotes.foldl_voteStep votes hv (Denotes.of_votesWF hwf) hok
  refine ⟨⟨v', hv', hd.ayes_nodup, hd.nays_nodup, hd.mem_ayes, hd.mem_nays, hd.votesWF.disjoint⟩, ?_⟩
  intro t o approve he
  rw [voteCode_error_keeps_state he]

/-- Member `1` proposes `[5]` (hash `1`, index `0`). -/
def proposedState : St Nat Nat :=
  proposeFive.foldl (step List.length (fun _ => .ok ()) 0) (genesisState [1, 2] [])

/-- `1` votes aye, `2` nay, then `1` changes its vote to nay. -/
def flipVotes : List (Nat × Bool) := [(1, true), (2, false), (1, false)]

theorem voteCode_last_vote_wins_flip :
    proposedState.voting 1 = some ⟨0, 2, [], [], 0⟩ ∧ VotesWF (⟨0, 2, [], [], 0⟩ : Votes Nat) ∧
    StepRun.Guarded (voteStep 1 0) (fun s e => callResult (voteCode (.signed e.1) 1 0 e.2) s = .ok ())
      proposedState flipVotes ∧
    ((∃ v', (flipVotes.foldl (voteStep 1 0) proposedState).voting 1 = some v' ∧ v'.ayes.Nodup ∧
      v'.nays.Nodup ∧
      (∀ a, a ∈ v'.ayes ↔ lastVote flipVotes (tallyOf ⟨0, 2, [], [], 0⟩) a = some true) ∧
      (∀ a, a ∈ v'.nays ↔ lastVote flipVotes (tallyOf ⟨0, 2, [], [], 0⟩) a = some false) ∧
      ∀ a ∈ v'.ayes, a ∉ v'.nays) ∧
    ∀ (t : St Nat Nat) (o : Origin Nat) (approve : Bool),
      callResult (voteCode o 1 0 approve) t = .error (.module .duplicateVote) →
        (applyCall (voteCode o 1 0 approve) t).voting = t.voting) := by
  have hv : proposedState.voting 1 = some ⟨0, 2, [], [], 0⟩ := by decide
  have hwf : VotesWF (⟨0, 2, [], [], 0⟩ : Votes Nat) := ⟨List.nodup_nil, List.nodup_nil, by simp⟩
  have hok : StepRun.Guarded (voteStep 1 0)
      (fun s e => callResult (voteCode (.signed e.1) 1 0 e.2) s = .ok ()) proposedState flipVotes := by
    decide
  exact ⟨hv, hwf, hok, voteCode_last_vote_wins proposedState 1 0 _ hv hwf flipVotes hok⟩

end LastVote

end PalletUpdater
