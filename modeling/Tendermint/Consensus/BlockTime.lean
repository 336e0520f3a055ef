import Tendermint.State.Time
import Tendermint.Consensus.State

/-!
`voteTime` and the time of the next block. A precommit for a block is signed by a
node that is locked on it, so its time is after the block's. A precommit for nil
has no block to come after: its time is the node's clock, which may lag. The next
block is late enough exactly when the lagging votes do not hold the median.
-/

namespace Tendermint.Consensus

open Types
open SM (signers stampAt medianTime OwnAddresses)
open Quorum (weight)

/-- The node's clock, and the block that it knows, are too early for a vote after `time`. -/
def Lags (out : Outcomes) (cs : State) (time : Time) : Prop :=
  out.now cs.height cs.round .precommit ≤ time ∧
    ∀ known ∈ cs.lockedBlock.or cs.proposalBlock, known.header.time + 1000000 ≤ time

instance (out : Outcomes) (cs : State) (time : Time) : Decidable (Lags out cs time) :=
  inferInstanceAs (Decidable (_ ∧ _))

theorem later_le_iff {first second time : Int} :
    (if first < second then second else first) ≤ time ↔ second ≤ time ∧ first ≤ time := by
  split <;> omega

theorem vote_time_le_iff (out : Outcomes) (cs : State) (time : Time) :
    voteTime out cs .precommit ≤ time ↔ Lags out cs time := by
  unfold voteTime Lags
  cases locked : cs.lockedBlock with
  | some block =>
    simp only [Option.some_or, Option.mem_def, Option.some.injEq, forall_eq']
    exact later_le_iff
  | none =>
  cases proposed : cs.proposalBlock with
  | some block =>
    simp only [Option.none_or, Option.mem_def, Option.some.injEq, forall_eq']
    exact later_le_iff
  | none => simp

/-- The correct signers' precommits: each is stamped by `voteTime` in the state
of its node at that moment, which is locked on the block if the vote is for it. -/
structure Precommitted (block : Block) (commit : Commit) (faulty : Finset Nat)
    (voter : Nat → Outcomes × State) : Prop where
  stamped : ∀ index ∈ signers commit, index ∉ faulty →
    stampAt commit index = voteTime (voter index).1 (voter index).2 .precommit
  locked : ∀ (index : Nat) (sig : CommitSig), commit.signatures[index]? = some sig →
    index ∉ faulty → sig.forBlock = true → (voter index).2.lockedBlock = some block

def forBlockSigners (commit : Commit) : Finset Nat :=
  (signers commit).filter fun index => (commit.signatures[index]?.any (·.forBlock)) = true

/-- The signers that can hold the median back: the faulty ones with times up to
the block's, and the correct ones that voted nil and lag. -/
def lagging (block : Block) (commit : Commit) (faulty : Finset Nat)
    (voter : Nat → Outcomes × State) : Finset Nat :=
  (signers commit).filter fun index =>
    if index ∈ faulty then stampAt commit index ≤ block.header.time
    else index ∉ forBlockSigners commit ∧ Lags (voter index).1 (voter index).2 block.header.time

section Next

variable {vals : ValidatorSet} {commit : Commit} {block : Block} {faulty : Finset Nat}
  {voter : Nat → Outcomes × State}

theorem mem_for_block (index : Nat) : index ∈ forBlockSigners commit ↔
    ∃ sig, commit.signatures[index]? = some sig ∧ sig.forBlock = true := by
  rw [forBlockSigners, Finset.mem_filter, SM.mem_signers]
  constructor
  · rintro ⟨⟨sig, found, _⟩, voted⟩
    exact ⟨sig, found, by simpa [found] using voted⟩
  · rintro ⟨sig, found, voted⟩
    refine ⟨⟨sig, found, ?_⟩, by simp [found, voted]⟩
    simp only [CommitSig.forBlock, beq_iff_eq] at voted
    simp [CommitSig.absent, voted]

theorem lagging_eq (voted : Precommitted block commit faulty voter) :
    lagging block commit faulty voter =
      (signers commit).filter fun index => stampAt commit index ≤ block.header.time := by
  apply Finset.filter_congr
  intro index signer
  by_cases incorrect : index ∈ faulty
  · rw [if_pos incorrect]
  · rw [if_neg incorrect, voted.stamped index signer incorrect, vote_time_le_iff]
    constructor
    · exact And.right
    · intro lags
      refine ⟨?_, lags⟩
      intro forBlock
      obtain ⟨sig, found, own⟩ := (mem_for_block index).mp forBlock
      have later : (block.header.time : Int) + 1000000 ≤ block.header.time :=
        lags.2 block (by simp [voted.locked index sig found incorrect own])
      exact absurd later (Int.not_le.mpr (Int.lt_add_of_pos_right _ (by decide)))

theorem median_after_iff (wellFormed : vals.WellFormed) (own : OwnAddresses vals commit)
    (inRange : ∀ index ∈ signers commit, InInt64 (stampAt commit index))
    (signed : (signers commit).Nonempty) (voted : Precommitted block commit faulty voter) :
    block.header.time < medianTime commit vals ↔
      weight vals.power (lagging block commit faulty voter) = 0 ∨
      weight vals.power (lagging block commit faulty voter) <
        weight vals.power (signers commit) / 2 := by
  rw [lagging_eq voted]
  obtain ⟨⟨middle, signs, same⟩, reaches, below⟩ :=
    SM.median_time_spec wellFormed own inRange signed
  have nonneg := ValidatorSet.power_nonneg wellFormed
  constructor
  · intro after
    by_cases none : (signers commit).filter
        (fun index => stampAt commit index ≤ block.header.time) = ∅
    · exact Or.inl (by rw [none]; rfl)
    · right
      obtain ⟨index, member⟩ := Finset.nonempty_iff_ne_empty.mpr none
      obtain ⟨signer, early⟩ := Finset.mem_filter.mp member
      refine Int.lt_of_le_of_lt (Quorum.weight_mono vals.power _ _ ?_ fun index _ => nonneg index)
        (below ⟨index, signer, Int.lt_of_le_of_lt early after⟩)
      exact Finset.monotone_filter_right _ fun index _ first => Int.lt_of_le_of_lt first after
  · intro held
    by_contra before
    have within : (signers commit).filter (fun index =>
        stampAt commit index ≤ medianTime commit vals) ⊆
        (signers commit).filter fun index => stampAt commit index ≤ block.header.time :=
      Finset.monotone_filter_right _ fun index _ first =>
        Int.le_trans first (Int.not_lt.mp before)
    have covered := Quorum.weight_mono vals.power _ _ within fun index _ => nonneg index
    -- the signer whose time was picked lags, so that the lagging power is not zero
    have picked := within (Finset.mem_filter.mpr ⟨signs, by rw [same]⟩)
    have alone := Quorum.weight_mono vals.power {middle} _ (Finset.singleton_subset_iff.mpr picked)
      fun index _ => nonneg index
    have single : weight vals.power {middle} = vals.power middle := Finset.sum_singleton _ _
    have positive := SM.power_pos wellFormed own middle signs
    omega

/-- The next block is built with a time after the decided one's, and passes the
check, exactly when the signers that lag do not hold the median. -/
theorem next_block_time_iff (wellFormed : vals.WellFormed) (own : OwnAddresses vals commit)
    (inRange : ∀ index ∈ signers commit, InInt64 (stampAt commit index))
    (decided : 2 * weight vals.power (Finset.range vals.size) <
      3 * weight vals.power (forBlockSigners commit))
    (voted : Precommitted block commit faulty voter)
    (state : SM.State) (last : state.lastBlockTime = block.header.time)
    (lastVals : state.lastValidators = vals) (next : Block) (contained : next.lastCommit = commit)
    (later : state.initialHeight < next.header.height)
    (made : next.header.time = state.makeBlockTime next.header.height commit) :
    (block.header.time < medianTime commit vals ∧ state.validateBlockTime next = none) ↔
      weight vals.power (lagging block commit faulty voter) = 0 ∨
      weight vals.power (lagging block commit faulty voter) <
        weight vals.power (signers commit) / 2 := by
  have signed : (signers commit).Nonempty := by
    by_contra none
    have nobody : forBlockSigners commit = ∅ := by
      rw [forBlockSigners, Finset.not_nonempty_iff_eq_empty.mp none, Finset.filter_empty]
    have total := (ValidatorSet.weight_fits vals wellFormed (Finset.Subset.refl _)).1
    rw [nobody] at decided
    have zero : weight vals.power ∅ = 0 := rfl
    omega
  rw [← median_after_iff wellFormed own inRange signed voted,
    SM.made_time_passes_iff (by rw [contained]; exact made) later, last, lastVals,
    contained, and_self]

end Next

section Lagging

def timedBlock (height : Int) (time : Time) (commit : Commit) : Block :=
  ⟨⟨⟨11, 0⟩, [], height, time, .zero, [], [], [], [], [], [], [], [], []⟩, [], [], commit⟩

def decidedBlock : Block := timedBlock 5 1000 ⟨4, 0, .zero, []⟩

def slowClock : Outcomes where
  now _ _ _ := 500
  loadSeenCommit := none
  loadBlockCommit _ := none

def threeVals : ValidatorSet where
  validators := [⟨[1], ⟨.ed25519, [1]⟩, 3, 0⟩, ⟨[2], ⟨.ed25519, [2]⟩, 4, 0⟩,
    ⟨[3], ⟨.ed25519, [3]⟩, 3, 0⟩]
  proposer := none
  cachedVotingPower := 10

def afterDecided : SM.State where
  version := ⟨⟨11, 0⟩, ""⟩
  chainID := []
  initialHeight := 1
  lastBlockHeight := 5
  lastBlockID := .zero
  lastBlockTime := 1000
  nextValidators := threeVals
  validators := threeVals
  lastValidators := threeVals
  lastHeightValidatorsChanged := 1
  consensusParams := ⟨⟨1, -1⟩, ⟨1, 1, 0⟩, ⟨["ed25519"]⟩, ⟨0⟩⟩
  lastHeightConsensusParamsChanged := 1
  lastResultsHash := []
  appHash := []

def precommitting (locked : Option Block) : State where
  height := 5
  round := 0
  proposalBlock := none
  lockedBlock := locked

def slowVoter (index : Nat) : Outcomes × State :=
  (slowClock, precommitting (if index = 1 then some decidedBlock else none))

/-- The first two precommit the block and the third nil, each with its clock at
500. The first is faulty and picks its time. -/
def laggingCommit (faultyTime : Time) : Commit :=
  ⟨5, 0, ⟨[9], ⟨1, [9]⟩⟩, [⟨.commit, [1], faultyTime, [7]⟩, ⟨.commit, [2], 1001000, [7]⟩,
    ⟨.nil, [3], 500, [7]⟩]⟩

theorem three_vals_well_formed : threeVals.WellFormed :=
  ⟨by decide, by decide, by decide, by decide⟩

theorem lagging_commit_own (faultyTime : Time) :
    OwnAddresses threeVals (laggingCommit faultyTime) := by
  refine ⟨rfl, ?_⟩
  intro index sig found _
  match index, found with
  | 0, found | 1, found | 2, found =>
    cases found
    exact ⟨_, rfl, rfl⟩

theorem lagging_commit_voted (faultyTime : Time) :
    Precommitted decidedBlock (laggingCommit faultyTime) {0} slowVoter := by
  constructor
  · intro index signer correct
    obtain ⟨sig, found, _⟩ := (SM.mem_signers _ index).mp signer
    match index, found with
    | 0, _ => exact absurd (Finset.mem_singleton_self 0) correct
    | 1, _ => rfl
    | 2, _ => rfl
  · intro index sig found correct forBlock
    match index, found with
    | 0, _ => exact absurd (Finset.mem_singleton_self 0) correct
    | 1, _ => rfl
    | 2, found =>
      cases found
      cases forBlock

theorem next_block_time_punctual :
    decidedBlock.header.time < medianTime (laggingCommit 2000) threeVals ∧
    afterDecided.validateBlockTime (timedBlock 6 2000 (laggingCommit 2000)) = none :=
  (next_block_time_iff three_vals_well_formed (lagging_commit_own 2000)
    (by unfold InInt64; decide) (by decide) (lagging_commit_voted 2000) afterDecided rfl rfl
    (timedBlock 6 2000 (laggingCommit 2000)) rfl (by decide) (by decide)).mpr
    (Or.inr (by decide))

/-- A faulty third and a third that voted nil with a lagging clock take the time
of the next block back before the decided block's. -/
theorem lagging_nil_votes_hold_median :
    threeVals.WellFormed ∧ OwnAddresses threeVals (laggingCommit 0) ∧
    3 * weight threeVals.power ({0} ∩ Finset.range threeVals.size) <
      weight threeVals.power (Finset.range threeVals.size) ∧
    2 * weight threeVals.power (Finset.range threeVals.size) <
      3 * weight threeVals.power (forBlockSigners (laggingCommit 0)) ∧
    Precommitted decidedBlock (laggingCommit 0) {0} slowVoter ∧
    medianTime (laggingCommit 0) threeVals = 500 ∧ decidedBlock.header.time = 1000 ∧
    afterDecided.makeBlockTime 6 (laggingCommit 0) = 500 ∧
    afterDecided.validateBlockTime (timedBlock 6 500 (laggingCommit 0)) =
      some (.notGreater 500 1000) :=
  ⟨three_vals_well_formed, lagging_commit_own 0, by decide, by decide, lagging_commit_voted 0,
    by decide, by decide, by decide, by decide⟩

end Lagging

end Tendermint.Consensus
