import Tendermint.Evidence.Agreement

/-!
The cache of `BlockExecutor.ValidateBlock` in internal/state/execution.go, which
keeps the hash of each block that passed until a block is applied. A block is an
object in memory: `CheckEvidence` writes a new ABCI part into the evidence that it
holds, while the hash and the size of the evidence are kept from the decoding. Of
what is written `ValidateBasic` only reads a total power, that of a validator set.
The stores that evidence is verified against are those of the one current state.
-/

namespace Tendermint.SM

open Types List
open EvPool (Accepts Alike Covered Verdict)

structure ExecutorEnv extends Env where
  stores : EvPool.Stores
  /-- `EvidenceFromProto`: by the second field, a vote or a height, the bytes tell
  the two kinds of evidence apart. -/
  evidenceFromProto : Bytes → Evidence

def ExecutorEnv.evidence (env : ExecutorEnv) : EvPool.Env := ⟨env.crypto, env.hashing, env.stores⟩

inductive BlockFault where
  | invalid (error : ValidationError)
  | evidence (error : EvPool.PoolError)
  deriving DecidableEq, Repr

structure BlockExecutor where
  /-- The hex form of a hash tells as much as the hash. -/
  cache : List Bytes
  evpool : EvPool.Pool
  /-- What each block in memory has for evidence by now. -/
  evidence : Nat → List Evidence

inductive ApplyOutcome where
  /-- An error before the evidence pool is updated. -/
  | stopped
  /-- The next state could not be saved. -/
  | unsaved (next : State)
  | completed (next : State)

inductive ExecutorCall where
  | validateBlock (block : Nat)
  | applyBlock (block : Nat) (outcome : ApplyOutcome)

def ExecutorCall.block : ExecutorCall → Nat
  | .validateBlock block => block
  | .applyBlock block _ => block

namespace BlockExecutor

section

variable (env : ExecutorEnv) (blocks : Nat → Block) (state : State)

def new (evpool : EvPool.Pool) : BlockExecutor :=
  ⟨[], evpool, fun block => (blocks block).evidence.map env.evidenceFromProto⟩

/-- A panic is the end of the run, and what it leaves behind does not matter. -/
def validateBlock (executor : BlockExecutor) (block : Nat) :
    Panics (Option BlockFault) × BlockExecutor :=
  let hash := (blocks block).hash env.hashing
  if hash ∈ executor.cache then (.ok none, executor)
  else match state.validateBlock env.toEnv (blocks block) with
  | .error text => (.error text, executor)
  | .ok (some error) => (.ok (some (.invalid error)), executor)
  | .ok none =>
    let held := executor.evidence block
    let left := EvPool.leftByCheckEvidence env.evidence executor.evpool held
    match EvPool.checkEvidence env.evidence executor.evpool held with
    | .error text => (.error text, executor)
    | .ok (some error, evpool) => (.ok (some (.evidence error)),
        ⟨executor.cache, evpool, Function.update executor.evidence block left⟩)
    | .ok (none, evpool) => (.ok none,
        ⟨hash :: executor.cache, evpool, Function.update executor.evidence block left⟩)

def finish (executor : BlockExecutor) (block : Nat) : ApplyOutcome → BlockExecutor
  | .stopped => executor
  | .unsaved next =>
    match EvPool.update env.evidence executor.evpool next (executor.evidence block) with
    | .error _ => executor
    | .ok evpool => { executor with evpool := evpool }
  | .completed next =>
    match EvPool.update env.evidence executor.evpool next (executor.evidence block) with
    | .error _ => executor
    | .ok evpool => { executor with evpool := evpool, cache := [] }

def perform (executor : BlockExecutor) (call : ExecutorCall) : BlockExecutor :=
  match call, executor.validateBlock env blocks state call.block with
  | .applyBlock block outcome, (.ok none, validated) => validated.finish env block outcome
  | _, (_, validated) => validated

def run (evpool : EvPool.Pool) (calls : List ExecutorCall) : BlockExecutor :=
  calls.foldl (perform env blocks state) (new env blocks evpool)

end

variable {env : ExecutorEnv} {blocks : Nat → Block} {state : State} {executor : BlockExecutor}

theorem validate_block_cases (block : Nat) :
    (executor.validateBlock env blocks state block).2 = executor ∨
    state.validateBlock env.toEnv (blocks block) = .ok none ∧
      ∃ result evpool, EvPool.checkEvidence env.evidence executor.evpool (executor.evidence block) =
          .ok (result, evpool) ∧
        (executor.validateBlock env blocks state block).2 =
          ⟨if result = none then (blocks block).hash env.hashing :: executor.cache
            else executor.cache, evpool,
            Function.update executor.evidence block
              (EvPool.leftByCheckEvidence env.evidence executor.evpool
                (executor.evidence block))⟩ := by
  unfold validateBlock
  dsimp only
  split
  · exact Or.inl rfl
  split
  · exact Or.inl rfl
  · exact Or.inl rfl
  · rename_i valid
    split
    · exact Or.inl rfl
    · rename_i error evpool checked
      exact Or.inr ⟨valid, some error, evpool, checked, by simp⟩
    · rename_i evpool checked
      exact Or.inr ⟨valid, none, evpool, checked, by simp⟩

theorem validate_block_grown (block : Nat) :
    EvPool.Grown env.evidence executor.evpool
      (executor.validateBlock env blocks state block).2.evpool := by
  rcases @validate_block_cases env blocks state executor block with
    same | ⟨_, result, evpool, checked, same⟩
  · rw [same]
    exact EvPool.Grown.refl _
  · rw [same]
    exact EvPool.check_loop_grown checked

theorem finish_cases (block : Nat) (outcome : ApplyOutcome) :
    executor.finish env block outcome = executor ∨
      executor.evpool.state.lastBlockHeight <
        (executor.finish env block outcome).evpool.state.lastBlockHeight := by
  cases outcome with
  | stopped => exact Or.inl rfl
  | unsaved next | completed next =>
    unfold finish
    dsimp only
    split
    · exact Or.inl rfl
    · rename_i evpool updated
      obtain ⟨same, higher⟩ := EvPool.update_moves updated
      exact Or.inr (by rw [same]; exact higher)

theorem perform_cases (call : ExecutorCall) :
    executor.perform env blocks state call =
        (executor.validateBlock env blocks state call.block).2 ∨
      executor.evpool.state.lastBlockHeight <
        (executor.perform env blocks state call).evpool.state.lastBlockHeight := by
  have kept := (@validate_block_grown env blocks state executor call.block).alike.state
  unfold perform
  split
  · rename_i block outcome validated same
    rw [same] at kept ⊢
    rw [kept]
    exact finish_cases block outcome
  · rename_i same
    exact Or.inl (by rw [same])

/-- While the state is current: the blocks with the given evidence hold it as it was
decoded, and every key in the cache is that of a block of an earlier call that both
checks accept. -/
structure Transparent (env : ExecutorEnv) (blocks : Nat → Block) (state : State)
    (evidence : List Bytes) (earlier : List Nat) (executor : BlockExecutor) : Prop where
  held : ∀ block, (blocks block).evidence = evidence →
    executor.evidence block = evidence.map env.evidenceFromProto
  cached : ∀ key ∈ executor.cache, ∃ block ∈ earlier, (blocks block).hash env.hashing = key ∧
    state.validateBlock env.toEnv (blocks block) = .ok none ∧
    ((blocks block).evidence = evidence →
      Accepts env.evidence executor.evpool (evidence.map env.evidenceFromProto))

theorem Transparent.validate_block {evidence : List Bytes} {earlier : List Nat}
    (transparent : Transparent env blocks state evidence earlier executor)
    (current : executor.evpool.state = state)
    (unaltered : ∀ item ∈ evidence,
      EvPool.Unaltered env.evidence state (env.evidenceFromProto item)) (block : Nat) :
    Transparent env blocks state evidence (earlier ++ [block])
      (executor.validateBlock env blocks state block).2 := by
  have grown := @validate_block_grown env blocks state executor block
  have kept : ∀ key ∈ executor.cache, ∃ block' ∈ earlier ++ [block],
      (blocks block').hash env.hashing = key ∧
      state.validateBlock env.toEnv (blocks block') = .ok none ∧
      ((blocks block').evidence = evidence →
        Accepts env.evidence (executor.validateBlock env blocks state block).2.evpool
          (evidence.map env.evidenceFromProto)) := by
    intro key member
    obtain ⟨before, inside, hash, valid, accepted⟩ := transparent.cached key member
    exact ⟨before, mem_append_left _ inside, hash, valid, fun same => grown.accepts (accepted same)⟩
  rcases @validate_block_cases env blocks state executor block with
    same | ⟨valid, result, evpool, checked, same⟩
  · rw [same] at kept ⊢
    exact ⟨transparent.held, kept⟩
  rw [same] at kept grown ⊢
  constructor
  · intro other given
    by_cases self : other = block
    · subst self
      have untouched := @EvPool.left_by_loop_of_unaltered env.evidence executor.evpool
        (evidence.map env.evidenceFromProto) [] (by simpa [current] using unaltered)
      simp only [Function.update_self, transparent.held other given]
      exact untouched
    · simp only [Function.update_of_ne self]
      exact transparent.held other given
  · intro key member
    dsimp only at member
    split at member
    · rename_i passed
      subst passed
      rcases mem_cons.mp member with rfl | old
      · refine ⟨block, by simp, rfl, valid, fun given => ?_⟩
        have accepted : Accepts env.evidence executor.evpool (executor.evidence block) :=
          ⟨evpool, checked⟩
        rw [transparent.held block given] at accepted
        exact grown.accepts accepted
      · exact kept key old
    · exact kept key member

/-- The pool is at the state still and the cache can be trusted, or an `ApplyBlock`
has moved the pool on. -/
theorem run_cases {evidence : List Bytes} (evpool : EvPool.Pool) (initial : evpool.state = state)
    (unaltered : ∀ item ∈ evidence,
      EvPool.Unaltered env.evidence state (env.evidenceFromProto item))
    (calls : List ExecutorCall) :
    (run env blocks state evpool calls).evpool.state = state ∧
        Transparent env blocks state evidence (calls.map ExecutorCall.block)
          (run env blocks state evpool calls) ∨
      state.lastBlockHeight < (run env blocks state evpool calls).evpool.state.lastBlockHeight := by
  induction calls using List.reverseRecOn with
  | nil =>
    refine Or.inl ⟨initial, ?_, ?_⟩
    · intro block given
      simp [run, new, given]
    · intro key member
      simp [run, new] at member
  | append_singleton calls call ih =>
    simp only [run, foldl_append, foldl_cons, foldl_nil, map_append, map_cons, map_nil] at ih ⊢
    rcases @perform_cases env blocks state (run env blocks state evpool calls) call with
      same | moved
    · have kept := (@validate_block_grown env blocks state
        (run env blocks state evpool calls) call.block).alike.state
      simp only [run] at same kept
      rw [same, ← kept]
      refine ih.imp (fun before => ⟨before.1, ?_⟩) id
      exact before.2.validate_block before.1 unaltered call.block
    · simp only [run] at moved
      right
      rcases ih with before | before
      · rw [before.1] at moved
        exact moved
      · exact before.trans moved

theorem validate_block_missed {block : Nat}
    (missed : (blocks block).hash env.hashing ∉ executor.cache) :
    (executor.validateBlock env blocks state block).1 = .ok none ↔
      state.validateBlock env.toEnv (blocks block) = .ok none ∧
      Accepts env.evidence executor.evpool (executor.evidence block) := by
  unfold validateBlock
  dsimp only
  rw [if_neg missed]
  split
  · simp_all
  · simp_all
  · split <;> simp_all [EvPool.Accepts]

end BlockExecutor

/-- `ValidateBlock` answers as the two checks do, with whatever was validated before
while the state is current, if no block validated before has the same hash with
another height, round or block ID in its LastCommit, and the ABCI part of no evidence
in the block has to be put right. -/
theorem validate_block_transparent (env : ExecutorEnv) (sized : env.hashing.Sized) (state : State)
    (blocks : Nat → Block) (evpool : EvPool.Pool) (initial : evpool.state = state)
    (calls : List ExecutorCall)
    (current : (BlockExecutor.run env blocks state evpool calls).evpool.state = state) (block : Nat)
    (decoded : (blocks block).Decoded env.hashing env.evidenceBasic)
    (earlierDecoded : ∀ call ∈ calls, (blocks call.block).Decoded env.hashing env.evidenceBasic)
    (apart : ∀ call ∈ calls, (blocks call.block).Apart env.hashing (blocks block))
    (commit : (blocks block).header.height = state.initialHeight ∨
      ∀ call ∈ calls, (blocks call.block).hash env.hashing = (blocks block).hash env.hashing →
        (blocks call.block).lastCommit.height = (blocks block).lastCommit.height ∧
        (blocks call.block).lastCommit.round = (blocks block).lastCommit.round ∧
        (blocks call.block).lastCommit.blockID = (blocks block).lastCommit.blockID)
    (unaltered : ∀ item ∈ (blocks block).evidence,
      EvPool.Unaltered env.evidence state (env.evidenceFromProto item)) :
    ((BlockExecutor.run env blocks state evpool calls).validateBlock env blocks state block).1 =
        .ok none ↔
      state.validateBlock env.toEnv (blocks block) = .ok none ∧
      EvPool.Accepts env.evidence (BlockExecutor.run env blocks state evpool calls).evpool
        ((BlockExecutor.run env blocks state evpool calls).evidence block) := by
  rcases @BlockExecutor.run_cases env blocks state _ evpool initial unaltered calls with
    ⟨_, transparent⟩ | moved
  · generalize BlockExecutor.run env blocks state evpool calls = executor at transparent
    by_cases hit : (blocks block).hash env.hashing ∈ executor.cache
    · obtain ⟨earlier, member, hash, valid, accepted⟩ := transparent.cached _ hit
      obtain ⟨call, inside, rfl⟩ := mem_map.mp member
      obtain ⟨header, evidence, signatures⟩ := same_hash_same_content sized
        (earlierDecoded call inside) decoded (apart call inside)
        (valid_validators_hash sized valid) hash
      have same : (blocks block).header.height = state.initialHeight ∨
          (blocks call.block).lastCommit = (blocks block).lastCommit := by
        refine commit.imp id fun agree => ?_
        obtain ⟨height, round, blockID⟩ := agree call inside hash
        cases first : (blocks call.block).lastCommit
        simp_all
      rw [validate_block_congr (earlierDecoded call inside) decoded header evidence signatures
        same] at valid
      have answer : (executor.validateBlock env blocks state block).1 = .ok none := by
        simp [BlockExecutor.validateBlock, hit]
      rw [transparent.held block rfl]
      exact ⟨fun _ => ⟨valid, accepted evidence⟩, fun _ => answer⟩
    · exact BlockExecutor.validate_block_missed hit
  · rw [current] at moved
    exact absurd moved (lt_irrefl _)

section Cached

open EvPool (firstEvidence firstStores firstVotes)

def cacheEnv : ExecutorEnv where
  toEnv := sharedEnv
  stores := firstStores
  evidenceFromProto item :=
    if item = (firstVotes 1000).bytes then firstEvidence 1000 else firstEvidence 1001

def cacheCalls : List ExecutorCall := [.validateBlock 0, .applyBlock 0 .stopped]

def otherCommits : Nat → Block
  | 0 => sharedBlock sharedBlockID
  | _ => sharedBlock ⟨List.replicate 32 5, ⟨1, List.replicate 32 4⟩⟩

def blamingHeader (timestamp : Time) : Header :=
  { sharedHeader with evidenceHash := evidenceHash valueHash [(firstVotes timestamp).bytes] }

def blamingBlock (timestamp : Time) : Block :=
  ⟨blamingHeader timestamp, [], [(firstVotes timestamp).bytes], sharedCommit sharedBlockID⟩

theorem blaming_header_typed (timestamp : Time) : (blamingHeader timestamp).Typed := by
  have size : (evidenceHash valueHash [(firstVotes timestamp).bytes]).length = 32 :=
    Merkle.hash_from_byte_slices_length value_hash_sized _
  obtain ⟨version, height, time, lastBlockID, chainID, lastCommitHash, dataHash, validatorsHash,
    nextValidatorsHash, consensusHash, appHash, lastResultsHash, _, proposerAddress⟩ :=
    shared_header_typed
  exact ⟨version, height, time, lastBlockID, chainID, lastCommitHash, dataHash, validatorsHash,
    nextValidatorsHash, consensusHash, appHash, lastResultsHash, by simp [blamingHeader, size],
    proposerAddress⟩

theorem blaming_block_decoded :
    (blamingBlock 1000).Decoded valueHash sharedEnv.evidenceBasic where
  valid := by decide +kernel
  header := blaming_header_typed 1000
  signatures := (shared_block_decoded sharedBlockID (by decide +kernel)).signatures

theorem blaming_block_apart : (blamingBlock 1000).Apart valueHash (blamingBlock 1000) where
  header := by decide +kernel
  signatures := (shared_block_apart sharedBlockID sharedBlockID).signatures
  evidence := by decide +kernel

theorem same_block_passes_again :
    ((BlockExecutor.run cacheEnv (fun _ => blamingBlock 1000) sharedState (.new sharedState)
      cacheCalls).validateBlock cacheEnv (fun _ => blamingBlock 1000) sharedState 1).1 =
        .ok none := by
  have accepted : EvPool.verify cacheEnv.evidence sharedState (firstEvidence 1000) =
      .ok .accepted := by decide +kernel
  refine (validate_block_transparent cacheEnv value_hash_sized sharedState
    (fun _ => blamingBlock 1000) (.new sharedState) rfl cacheCalls (by decide +kernel) 1
    blaming_block_decoded (fun _ _ => blaming_block_decoded) (fun _ _ => blaming_block_apart)
    (Or.inr fun _ _ _ => ⟨rfl, rfl, rfl⟩) ?_).mpr ⟨by decide +kernel, ?_⟩
  · intro item member fault rectified
    cases mem_singleton.mp member
    have given : cacheEnv.evidenceFromProto (firstVotes 1000).bytes = firstEvidence 1000 := by
      simp only [cacheEnv, if_true]
    rw [given, accepted]
    simp
  · exact ⟨(BlockExecutor.run cacheEnv (fun _ => blamingBlock 1000) sharedState
      (.new sharedState) cacheCalls).evpool, by decide +kernel⟩

/-- Once the first block is in the cache, the second passes, whose LastCommit is for
another block. And a block that is refused for the ABCI part of its evidence, which is
put right in memory, passes when it is validated again; then the same block as it is
decoded once more passes with the wrong part. -/
theorem cached_verdicts_differ :
    ((∀ block, (otherCommits block).Decoded valueHash sharedEnv.evidenceBasic) ∧
      ((BlockExecutor.run cacheEnv otherCommits sharedState (.new sharedState)
        [.validateBlock 0]).validateBlock cacheEnv otherCommits sharedState 1).1 = .ok none ∧
      sharedState.validateBlock sharedEnv (otherCommits 1) =
        .ok (some (.commit (.wrongBlockID sharedBlockID
          ⟨List.replicate 32 5, ⟨1, List.replicate 32 4⟩⟩)))) ∧
    let executor := BlockExecutor.run cacheEnv (fun _ => blamingBlock 1001) sharedState
      (.new sharedState) [.validateBlock 0, .validateBlock 0]
    (executor.validateBlock cacheEnv (fun _ => blamingBlock 1001) sharedState 1).1 = .ok none ∧
      executor.evidence 0 = [firstEvidence 1000] ∧ executor.evidence 1 = [firstEvidence 1001] ∧
      ((EvPool.checkEvidence cacheEnv.evidence executor.evpool (executor.evidence 1)).map
        Prod.fst = .ok (some (.verify (.abci (.timestamp 1001 1000))))) := by
  refine ⟨⟨fun block => ?_, by decide +kernel, by decide +kernel⟩, by decide +kernel⟩
  rcases block with _ | block
  · exact shared_block_decoded _ (by decide +kernel)
  · exact shared_block_decoded _ (by decide +kernel)

end Cached

end Tendermint.SM
