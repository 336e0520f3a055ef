import Tendermint.State.Execution
import Tendermint.Types.Light

/-!
internal/statesync/stateprovider.go: the state that a node starts from when it
restores a snapshot, built from three light blocks and the consensus parameters
that a peer sends. The light client is a parameter; so is the first answer of the
peers to the request for the parameters of a height.
-/

namespace Tendermint.StateSync

open Types
open SM
open Merkle (Hashing)

structure StateProviderP2P where
  chainID : ChainID
  initialHeight : Int
  verifyLightBlockAtHeight : Int → Except String LightBlock

/-- version.TMVersion -/
def tmVersion : String := "0.35.0-unreleased"

inductive StateError where
  | lightBlock (text : String)
  | consensusParams (text : String)
  | hashMismatch (height : Int) (expected got : Bytes)
  deriving DecidableEq, Repr

namespace StateProviderP2P

variable (provider : StateProviderP2P)

/-- The height is unsigned and goes to the light client as an int64. -/
def lightBlockAt (height : Nat) : Except StateError LightBlock :=
  match provider.verifyLightBlockAtHeight (int64 height) with
  | .error text => .error (.lightBlock text)
  | .ok block => .ok block

def appHash (height : Nat) : Except StateError Bytes := do
  let block ← provider.lightBlockAt (height + 1)
  -- the block that the state will need is fetched now, so that the restore waits for it
  let _ ← provider.lightBlockAt (height + 2)
  pure block.header.appHash

def commit (height : Nat) : Except StateError Commit := do
  let block ← provider.lightBlockAt height
  pure block.signedHeader.commit

def stateOf (last current next : LightBlock) (params : ConsensusParams) : State where
  version := ⟨current.header.version, tmVersion⟩
  chainID := provider.chainID
  initialHeight := if provider.initialHeight = 0 then 1 else provider.initialHeight
  lastBlockHeight := last.header.height
  lastBlockID := last.signedHeader.commit.blockID
  lastBlockTime := last.header.time
  nextValidators := next.validatorSet
  validators := current.validatorSet
  lastValidators := last.validatorSet
  lastHeightValidatorsChanged := next.header.height
  consensusParams := params
  lastHeightConsensusParamsChanged := current.header.height
  lastResultsHash := current.header.lastResultsHash
  appHash := current.header.appHash

/-- The parameters are those of the current height; the hash they are compared with
is in the header of the next. -/
def state (hashing : Hashing) (consensusParams : Int → Except String ConsensusParams)
    (height : Nat) : Except StateError State := do
  let last ← provider.lightBlockAt height
  let current ← provider.lightBlockAt (height + 1)
  let next ← provider.lightBlockAt (height + 2)
  match consensusParams current.header.height with
  | .error text => throw (.consensusParams text)
  | .ok params =>
    if next.header.consensusHash ≠ params.hashConsensusParams hashing then
      throw (.hashMismatch current.header.height next.header.consensusHash
        (params.hashConsensusParams hashing))
    pure (provider.stateOf last current next params)

def Canonical (chain : List Decision) : Prop :=
  ∀ decision ∈ chain, ∃ block,
    provider.verifyLightBlockAtHeight decision.block.header.height = .ok block ∧
    block.header = decision.block.header

section

variable {provider} {hashing : Hashing} {peers : Int → Except String ConsensusParams}
  {height : Nat} {last current next : LightBlock}

section

variable (lastFetched : provider.lightBlockAt height = .ok last)
  (currentFetched : provider.lightBlockAt (height + 1) = .ok current)
  (nextFetched : provider.lightBlockAt (height + 2) = .ok next)

include lastFetched currentFetched nextFetched

theorem state_eq {params : ConsensusParams} (answered : peers current.header.height = .ok params) :
    provider.state hashing peers height =
      if next.header.consensusHash ≠ params.hashConsensusParams hashing then
        .error (.hashMismatch current.header.height next.header.consensusHash
          (params.hashConsensusParams hashing))
      else .ok (provider.stateOf last current next params) := by
  simp only [state, lastFetched, currentFetched, nextFetched, answered, bind_eq, pure_eq, throw_eq]

theorem state_ok {built : State} (returned : provider.state hashing peers height = .ok built) :
    peers current.header.height = .ok built.consensusParams ∧
    built.consensusParams.hashConsensusParams hashing = next.header.consensusHash := by
  cases answered : peers current.header.height with
  | error text =>
    simp [state, lastFetched, currentFetched, nextFetched, answered] at returned
  | ok params =>
  rw [state_eq lastFetched currentFetched nextFetched answered] at returned
  split at returned
  · cases returned
  · rename_i same
    cases returned
    exact ⟨rfl, (not_not.mp same).symm⟩

end

theorem light_block_at_ok (fetched : provider.lightBlockAt height = .ok last) :
    ∃ requested, provider.verifyLightBlockAtHeight requested = .ok last := by
  refine ⟨int64 height, ?_⟩
  unfold lightBlockAt at fetched
  split at fetched
  · cases fetched
  · rename_i block returned
    cases fetched
    exact returned

theorem commit_ok {commit : Commit} (given : provider.commit height = .ok commit) :
    ∃ last, provider.lightBlockAt height = .ok last ∧ commit = last.signedHeader.commit := by
  cases fetched : provider.lightBlockAt height with
  | error error => simp [StateProviderP2P.commit, fetched] at given
  | ok last =>
    simp only [StateProviderP2P.commit, fetched, bind_eq, pure_eq, Except.ok.injEq] at given
    exact ⟨last, rfl, given.symm⟩

theorem state_last (lastFetched : provider.lightBlockAt height = .ok last) {built : State}
    (returned : provider.state hashing peers height = .ok built) :
    built.chainID = provider.chainID ∧ built.lastBlockHeight = last.header.height ∧
      built.lastValidators = last.validatorSet := by
  cases currentFetched : provider.lightBlockAt (height + 1) with
  | error error => simp [state, lastFetched, currentFetched] at returned
  | ok current =>
  cases nextFetched : provider.lightBlockAt (height + 2) with
  | error error =>
    simp [state, lastFetched, currentFetched, nextFetched] at returned
  | ok next =>
  obtain ⟨answered, hash⟩ := state_ok lastFetched currentFetched nextFetched returned
  rw [state_eq lastFetched currentFetched nextFetched answered,
    if_neg (not_not.mpr hash.symm)] at returned
  rw [← Except.ok.inj returned]
  exact ⟨rfl, rfl, rfl⟩

end

end StateProviderP2P

theorem StateProviderP2P.Canonical.light_block_at {provider : StateProviderP2P}
    {chain : List Decision}
    (canonical : provider.Canonical chain) {decision : Decision} (member : decision ∈ chain)
    (height : Nat) (same : decision.block.header.height = height)
    (bounded : (height : Int) ≤ maxInt64) :
    ∃ block, provider.lightBlockAt height = .ok block ∧ block.header = decision.block.header := by
  obtain ⟨block, fetched, header⟩ := canonical decision member
  refine ⟨block, ?_, header⟩
  have exact : int64 height = height := int64_exact _ (by unfold minInt64; omega) bounded
  rw [StateProviderP2P.lightBlockAt, exact, ← same, fetched]

/-- On a chain whose headers the light client returns, the parameters of the state
at a height are those under the hash of the first block after it, and those that
were in force there are not refused, if and only if that block leaves the hash of
the parameters as it was. -/
theorem params_authenticated_iff (env : Env) (provider : StateProviderP2P)
    (genesis before final : State) (past : List Decision) (last current following : Decision)
    (replayed : genesis.replay env (past ++ [last]) = .ok (.ok before))
    (later : before.replay env [current, following] = .ok (.ok final))
    (canonical : provider.Canonical (past ++ [last, current, following]))
    (bounded : last.block.header.height + 2 ≤ maxInt64) :
    ((∀ peers built,
        provider.state env.hashing peers last.block.header.height.toNat = .ok built →
        built.consensusParams.hashConsensusParams env.hashing =
          current.block.header.consensusHash) ∧
      ∀ peers, peers current.block.header.height = .ok before.consensusParams →
        ∃ built, provider.state env.hashing peers last.block.header.height.toNat = .ok built) ↔
    (before.consensusParams.updateConsensusParams
        current.responses.consensusParamUpdates).hashConsensusParams env.hashing =
      before.consensusParams.hashConsensusParams env.hashing := by
  obtain ⟨earlier, -, tail⟩ := replay_append past [last] replayed
  have appliedLast := replay_singleton tail
  obtain ⟨after, appliedCurrent, rest⟩ := replay_cons later
  obtain ⟨_, appliedFollowing, -⟩ := replay_cons rest
  obtain ⟨_, lastBy⟩ := applied_by appliedLast
  obtain ⟨_, currentBy⟩ := applied_by appliedCurrent
  obtain ⟨_, followingBy⟩ := applied_by appliedFollowing
  have positive := lastBy.height_pos
  have currentHeight : current.block.header.height = last.block.header.height + 1 := by
    rw [← lastBy.last_block_height]
    exact currentBy.fits.height (by rw [lastBy.last_block_height]; exact positive)
  have followingHeight : following.block.header.height = last.block.header.height + 2 := by
    have := followingBy.fits.height (by rw [currentBy.last_block_height]; omega)
    rw [currentBy.last_block_height] at this
    omega
  obtain ⟨height, same⟩ := Int.eq_ofNat_of_zero_le positive.le
  rw [same, Int.toNat_natCast]
  rw [same] at currentHeight followingHeight bounded
  obtain ⟨lastLight, lastFetched, -⟩ := canonical.light_block_at
    (show last ∈ _ by simp) height same (by omega)
  obtain ⟨currentLight, currentFetched, currentHeader⟩ := canonical.light_block_at
    (show current ∈ _ by simp) (height + 1) currentHeight (by push_cast; omega)
  obtain ⟨nextLight, nextFetched, nextHeader⟩ := canonical.light_block_at
    (show following ∈ _ by simp) (height + 2) followingHeight (by push_cast; omega)
  have nextHash : nextLight.header.consensusHash =
      (before.consensusParams.updateConsensusParams
        current.responses.consensusParamUpdates).hashConsensusParams env.hashing := by
    rw [nextHeader, followingBy.fits.consensusHash, currentBy.consensus_params]
  rw [currentBy.fits.consensusHash, ← nextHash]
  constructor
  · rintro ⟨-, admitted⟩
    obtain ⟨built, returned⟩ := admitted (fun _ => .ok before.consensusParams) rfl
    obtain ⟨answered, hash⟩ :=
      StateProviderP2P.state_ok lastFetched currentFetched nextFetched returned
    rw [← hash, Except.ok.inj answered]
  · intro unchanged
    constructor
    · intro peers built returned
      rw [(StateProviderP2P.state_ok lastFetched currentFetched nextFetched returned).2, unchanged]
    · intro peers answered
      rw [← currentHeader] at answered
      rw [StateProviderP2P.state_eq lastFetched currentFetched nextFetched answered,
        if_neg (not_not.mpr unchanged)]
      exact ⟨_, rfl⟩

section Boundary

def startState : State :=
  { sharedState with
    lastBlockHeight := 0, lastBlockID := ⟨[], ⟨0, []⟩⟩, lastValidators := .empty }

def commitOn (state : State) : Commit :=
  if state.lastBlockHeight = 0 then ⟨0, 0, ⟨[], ⟨0, []⟩⟩, []⟩
  else ⟨state.lastBlockHeight, 0, state.lastBlockID,
    [⟨.commit, sharedValidator.address, state.lastBlockTime + 1, [1]⟩]⟩

def blockOn (state : State) : Block where
  header := {
    version := state.version.consensus
    chainID := state.chainID
    height := state.lastBlockHeight + 1
    time := if state.lastBlockHeight = 0 then state.lastBlockTime else state.lastBlockTime + 1
    lastBlockID := state.lastBlockID
    lastCommitHash := Merkle.hashFromByteSlices valueHash
      ((commitOn state).signatures.map CommitSig.encoding)
    dataHash := txsHash valueHash []
    validatorsHash := state.validators.hash valueHash
    nextValidatorsHash := state.nextValidators.hash valueHash
    consensusHash := state.consensusParams.hashConsensusParams valueHash
    appHash := state.appHash
    lastResultsHash := state.lastResultsHash
    evidenceHash := evidenceHash valueHash []
    proposerAddress := sharedValidator.address }
  txs := []
  evidence := []
  lastCommit := commitOn state

def decisionOn (state : State) (update : Option ConsensusParamsUpdate) : Decision :=
  ⟨⟨(blockOn state).hash valueHash, ⟨1, List.replicate 32 4⟩⟩, blockOn state, none,
    ⟨[], [], update⟩, []⟩

def stateOn (state : State) (update : Option ConsensusParamsUpdate) : State :=
  match state.applyBlock sharedEnv (decisionOn state update) with
  | .ok (.ok next) => next
  | _ => state

def threeHeights (update : Option ConsensusParamsUpdate) : Decision × Decision × Decision :=
  let first := stateOn startState none
  (decisionOn startState none, decisionOn first update, decisionOn (stateOn first update) none)

def lightOf (decision : Decision) : LightBlock :=
  ⟨⟨decision.block.header, ⟨decision.block.header.height, 0, decision.blockID,
    [⟨.commit, sharedValidator.address, decision.block.header.time + 1, [1]⟩]⟩⟩, sharedSet⟩

def chainProvider (update : Option ConsensusParamsUpdate) : StateProviderP2P where
  chainID := [99]
  initialHeight := 1
  verifyLightBlockAtHeight height :=
    let (first, second, third) := threeHeights update
    if height = 1 then .ok (lightOf first) else if height = 2 then .ok (lightOf second)
    else if height = 3 then .ok (lightOf third) else .error "light block not found"

def smallerBlocks : ConsensusParamsUpdate := ⟨some ⟨2097152, -1⟩, none, none, none⟩

def secondState : State := stateOn startState none

def finalState (update : Option ConsensusParamsUpdate) : State :=
  stateOn (stateOn secondState update) none

theorem chain_provider_canonical (update : Option ConsensusParamsUpdate)
    (heights : (threeHeights update).1.block.header.height = 1 ∧
      (threeHeights update).2.1.block.header.height = 2 ∧
      (threeHeights update).2.2.block.header.height = 3) :
    (chainProvider update).Canonical ([] ++ [(threeHeights update).1, (threeHeights update).2.1,
      (threeHeights update).2.2]) := by
  obtain ⟨first, second, third⟩ := heights
  intro decision member
  simp only [List.nil_append, List.mem_cons, List.not_mem_nil, or_false] at member
  rcases member with rfl | rfl | rfl
  · rw [first]
    exact ⟨_, rfl, rfl⟩
  · rw [second]
    exact ⟨_, rfl, rfl⟩
  · rw [third]
    exact ⟨_, rfl, rfl⟩

/-- The second height makes the blocks smaller: the parameters in force there are
refused, and those of the third height are taken in their place. -/
theorem boundary_update_misplaced :
    startState.replay sharedEnv ([] ++ [(threeHeights (some smallerBlocks)).1]) =
      .ok (.ok secondState) ∧
    secondState.replay sharedEnv [(threeHeights (some smallerBlocks)).2.1,
      (threeHeights (some smallerBlocks)).2.2] = .ok (.ok (finalState (some smallerBlocks))) ∧
    (chainProvider (some smallerBlocks)).Canonical ([] ++ [(threeHeights (some smallerBlocks)).1,
      (threeHeights (some smallerBlocks)).2.1, (threeHeights (some smallerBlocks)).2.2]) ∧
    (∃ expected got, (chainProvider (some smallerBlocks)).state valueHash
      (fun _ => .ok secondState.consensusParams) 1 = .error (.hashMismatch 2 expected got)) ∧
    ∃ built, (chainProvider (some smallerBlocks)).state valueHash
        (fun _ => .ok (secondState.consensusParams.updateConsensusParams (some smallerBlocks))) 1 =
          .ok built ∧
      built.consensusParams.hashConsensusParams valueHash ≠
        (threeHeights (some smallerBlocks)).2.1.block.header.consensusHash := by
  refine ⟨by decide +kernel, by decide +kernel, chain_provider_canonical _ (by decide +kernel),
    ⟨(secondState.consensusParams.updateConsensusParams (some smallerBlocks)).hashConsensusParams
      valueHash, secondState.consensusParams.hashConsensusParams valueHash, by decide +kernel⟩, ?_⟩
  refine ⟨(chainProvider (some smallerBlocks)).stateOf
    (lightOf (threeHeights (some smallerBlocks)).1)
    (lightOf (threeHeights (some smallerBlocks)).2.1)
    (lightOf (threeHeights (some smallerBlocks)).2.2)
    (secondState.consensusParams.updateConsensusParams (some smallerBlocks)),
    by decide +kernel, by decide +kernel⟩

def snapshotState : State :=
  (chainProvider none).stateOf (lightOf (threeHeights none).1) (lightOf (threeHeights none).2.1)
    (lightOf (threeHeights none).2.2) secondState.consensusParams

theorem unchanged_params_accepted :
    ∃ built, (chainProvider none).state valueHash (fun _ => .ok secondState.consensusParams) 1 =
      .ok built := by
  have agree := params_authenticated_iff sharedEnv (chainProvider none) startState secondState
    (finalState none) [] (threeHeights none).1 (threeHeights none).2.1 (threeHeights none).2.2
    (by decide +kernel) (by decide +kernel) (chain_provider_canonical none (by decide +kernel))
    (by decide +kernel)
  exact (agree.mpr rfl).2 (fun _ => .ok secondState.consensusParams) rfl

end Boundary

end Tendermint.StateSync
