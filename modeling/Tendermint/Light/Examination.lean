import Tendermint.Light.Backwards
import Tendermint.Light.Detector
import Tendermint.Light.Skipping

/-!
What examineConflictingHeaderAgainstTrace finds: the block of the trace where the
source goes its own way, with the source's trace from the block before it.
-/

namespace Tendermint.Light

open Types List
open Merkle (Hashing)

section Fork

variable (env : Env) (now : Time)

/-- The divergent block of the trace with the source's trace to it: from a block
that has the hash of the trace's block before, over verified links, to another
block at the same height, or to the target below whose time is not before. -/
structure ForkPoint (trace : List LightBlock) (target : LightBlock) (sourceTrace : List LightBlock)
    (divergent : LightBlock) : Prop where
  aligned : ∃ before agreed after first, trace = before ++ agreed :: divergent :: after ∧
    sourceTrace.head? = some first ∧ first.hash env.hashing = agreed.hash env.hashing
  links : sourceTrace.IsChain (Link env now)
  parts : ∃ last, sourceTrace.getLast? = some last ∧
    (last.height = divergent.height ∧ last.hash env.hashing ≠ divergent.hash env.hashing ∨
      last = target ∧ target.height < divergent.height ∧ divergent.time ≤ target.time)

def HashTellsTime (hashing : Hashing) (trace : List LightBlock) (target : LightBlock) : Prop :=
  ∀ block ∈ trace, block.height = target.height → block.hash hashing = target.hash hashing →
    block.time = target.time

/-- Light blocks as the client takes them from its providers: they pass `ValidateBasic`, and no
string that is hashed for the header of the target collides with one for the trace. -/
structure Validated (hashing : Hashing) (chainID : ChainID) (trace : List LightBlock)
    (target : LightBlock) : Prop where
  valid : ∀ block ∈ target :: trace, block.validateBasic hashing chainID = none
  typed : ∀ block ∈ target :: trace, block.header.Typed
  apart : ∀ block ∈ trace, hashing.Apart block.header.leaves target.header.leaves

-- The header of a valid block has the hash of its validator set, so it has a hash itself.
theorem hash_tells_time {hashing : Hashing} (sized : hashing.Sized) {chainID : ChainID}
    {trace : List LightBlock} {target : LightBlock}
    (validated : Validated hashing chainID trace target) :
    HashTellsTime hashing trace target := by
  intro block member _ same
  have inside : block ∈ target :: trace := mem_cons_of_mem target member
  have present : block.header.validatorsHash ≠ [] := by
    intro missing
    have ofSet := (LightBlock.validate_basic_ok (validated.valid block inside)).2.2
    have size : (block.validatorSet.hash hashing).length = 32 :=
      Merkle.hash_from_byte_slices_length sized _
    rw [ofSet, missing] at size
    cases size
  have header := Header.hash_injective sized (validated.typed block inside)
    (validated.typed target mem_cons_self) (validated.apart block member) present same
  exact congrArg Header.time header

variable {env now} {world : World} {source : Provider} {target : LightBlock}

theorem ForkPoint.of_trace {before after sourceTrace : List LightBlock}
    {agreed divergent first last : LightBlock} (traced : Trace env now first last sourceTrace)
    (same : first.hash env.hashing = agreed.hash env.hashing)
    (parts : last.height = divergent.height ∧
        last.hash env.hashing ≠ divergent.hash env.hashing ∨
      last = target ∧ target.height < divergent.height ∧ divergent.time ≤ target.time) :
    ForkPoint env now (before ++ agreed :: divergent :: after) target sourceTrace divergent :=
  ⟨⟨before, agreed, after, first, rfl, traced.start, same⟩, traced.links, last,
    traced.finish, parts⟩

theorem verify_skipping_keeps (fuel : Nat) (trusted block : LightBlock) :
    Keeps (verifySkipping env world fuel source trusted block now) fun result =>
      ∀ trace, result = .ok trace → Trace env now trusted block trace :=
  (skipping_loop_keeps env world source block trusted now fuel [block] 0 trusted [trusted]
    (Trace.single now trusted) rfl).weaken fun _ found trace same => (found trace same).1

theorem source_block_at_keeps (answers : world.Answers source) (traceBlock : LightBlock) :
    Keeps (sourceBlockAt world source target traceBlock) fun answer =>
      ∀ block, answer = .ok block → block.height = traceBlock.height ∧
        (traceBlock.height = target.height → block = target) := by
  unfold sourceBlockAt
  split
  case isTrue same =>
    refine Keeps.pure _ ?_
    intro block given
    cases given
    exact ⟨same.symm, fun _ => rfl⟩
  case isFalse differ =>
    refine Keeps.bind ask_keeps fun number _ => Keeps.pure _ ?_
    intro block given
    exact ⟨answers _ _ _ given, fun same => absurd same differ⟩

-- The induction goes along the trace: the block before is agreed on, and it is the
-- target itself if it has the height of the target.
theorem examine_rest_keeps (answers : world.Answers source) (fuel : Nat)
    (before rest : List LightBlock) (agreed previous : LightBlock) (sourceTrace : List LightBlock)
    (increasing : (before ++ agreed :: rest).Pairwise fun earlier later =>
      earlier.height < later.height ∧ earlier.time < later.time)
    (tells : HashTellsTime env.hashing (before ++ agreed :: rest) target)
    (same : previous.hash env.hashing = agreed.hash env.hashing)
    (height : previous.height = agreed.height)
    (reached : agreed.height = target.height → previous = target) :
    Keeps (examineRest env world fuel target source now rest previous sourceTrace) fun result =>
      ∀ found divergent, result = .ok (found, divergent) →
        ForkPoint env now (before ++ agreed :: rest) target found divergent := by
  induction rest generalizing before agreed previous sourceTrace with
  | nil => exact Keeps.pure _ (by simp)
  | cons traceBlock rest ih =>
  unfold examineRest
  split
  case isTrue lower =>
    split
    case isTrue => exact Keeps.pure _ (by simp)
    rename_i notBefore
    split
    case isTrue apart =>
      refine Keeps.bind (verify_skipping_keeps fuel previous target) fun outcome traced => ?_
      split
      · exact Keeps.pure _ (by simp)
      · rename_i found
        refine Keeps.pure _ ?_
        intro trace divergent given
        cases given
        exact .of_trace (traced found rfl) same (Or.inr ⟨rfl, lower, Int.not_lt.mp notBefore⟩)
    case isFalse together =>
      -- the agreed block is the target, so the next block is later than it
      exfalso
      have level : agreed.height = target.height := height.symm.trans (not_not.mp together)
      have isTarget := reached level
      subst isTarget
      have time := tells agreed (by simp) level same.symm
      have later := (pairwise_cons.mp (pairwise_append.mp increasing).2.1).1
        traceBlock mem_cons_self
      rw [time] at later
      exact notBefore later.2
  case isFalse notLower =>
    refine Keeps.bind (source_block_at_keeps answers traceBlock) fun answer located => ?_
    split
    · exact Keeps.pure _ (by simp)
    rename_i sourceBlock
    obtain ⟨level, isTarget⟩ := located sourceBlock rfl
    refine Keeps.bind (verify_skipping_keeps fuel previous sourceBlock) fun outcome traced => ?_
    split
    · exact Keeps.pure _ (by simp)
    rename_i found
    split
    case isTrue differ =>
      refine Keeps.pure _ ?_
      intro trace divergent given
      cases given
      exact .of_trace (traced found rfl) same (Or.inl ⟨level, differ⟩)
    case isFalse agree =>
      have shifted : before ++ agreed :: traceBlock :: rest =
          (before ++ [agreed]) ++ traceBlock :: rest := by simp
      rw [shifted] at increasing tells ⊢
      exact ih _ traceBlock sourceBlock found increasing tells (not_not.mp agree) level isTarget

/-- Whatever the source answers, an examination that succeeds finds the fork. -/
theorem examination_finds_fork (env : Env) (sized : env.hashing.Sized) (chainID : ChainID)
    (world : World) (source : Provider) (now : Time) (fuel : Nat) (trace : List LightBlock)
    (target : LightBlock) (c after : Client)
    (sourceTrace : List LightBlock) (divergent : LightBlock)
    (increasing : trace.Pairwise fun earlier later =>
      earlier.height < later.height ∧ earlier.time < later.time)
    (answers : world.Answers source) (validated : Validated env.hashing chainID trace target)
    (returned : examineConflictingHeaderAgainstTrace env world fuel trace target source now c =
      (.ok (.ok (sourceTrace, divergent)), after)) :
    ForkPoint env now trace target sourceTrace divergent := by
  have tells := hash_tells_time sized validated
  have keeps : Keeps (examineConflictingHeaderAgainstTrace env world fuel trace target source now)
      fun result => ∀ found divergent, result = .ok (found, divergent) →
        ForkPoint env now trace target found divergent := by
    unfold examineConflictingHeaderAgainstTrace
    split
    · exact Keeps.raise _
    rename_i first rest
    split
    · exact Keeps.pure _ (by simp)
    refine Keeps.bind (source_block_at_keeps answers first) fun answer located => ?_
    split
    · exact Keeps.pure _ (by simp)
    rename_i sourceBlock
    obtain ⟨level, isTarget⟩ := located sourceBlock rfl
    split
    · exact Keeps.pure _ (by simp)
    rename_i agree
    exact examine_rest_keeps answers fuel [] rest first sourceBlock [] increasing tells
      (not_not.mp agree) level isTarget
  exact (keeps.run c).2 _ (congrArg Prod.fst returned) sourceTrace divergent rfl

end Fork

section Inputs

def highestBlock : LightBlock := linkedBlock (linkedHeader 5 200 .zero)

def laggingWorld : World where
  lightBlock _ _ height := .ok (linkedBlock (linkedHeader height 100 .zero))
  responses _ _ := []
  comparisons _ _ := []
  conflict _ _ _ _ := none

theorem lagging_world_answers (source : Provider) : laggingWorld.Answers source := by
  intro number height block answer
  cases answer
  rfl

theorem lower_header_typed : lowerBlock.header.Typed where
  version := ⟨by decide, by decide⟩
  height := by unfold InInt64; decide
  time := by decide
  lastBlockID := by unfold BlockID.Typed PartSetHeader.Typed; decide
  chainID := by decide
  lastCommitHash := by decide
  dataHash := by decide
  validatorsHash := by decide +kernel
  nextValidatorsHash := by decide
  consensusHash := by decide
  appHash := by decide
  lastResultsHash := by decide
  evidenceHash := by decide
  proposerAddress := by decide

theorem lagging_trace_validated :
    Validated checksum [99] [lowerBlock, highestBlock] laterBlock where
  valid := by decide +kernel
  typed := by
    intro block member
    simp only [mem_cons, not_mem_nil, or_false] at member
    rcases member with rfl | rfl | rfl
    · exact { lower_header_typed with height := by unfold InInt64; decide, time := by decide }
    · exact lower_header_typed
    · exact { lower_header_typed with height := by unfold InInt64; decide, time := by decide }
  apart := by decide +kernel

theorem lagging_source_examined :
    ForkPoint linkedEnv 400 [lowerBlock, highestBlock] laterBlock [lowerBlock, laterBlock]
      highestBlock := by
  have sized : checksum.Sized := fun input => by simp [checksum, hashSize]
  have ran : (examineConflictingHeaderAgainstTrace linkedEnv laggingWorld 5
      [lowerBlock, highestBlock] laterBlock 0 400 (Client.restore 0 [] ⟨[], 0⟩)).1 =
      .ok (.ok ([lowerBlock, laterBlock], highestBlock)) := by decide +kernel
  refine examination_finds_fork linkedEnv sized [99] laggingWorld 0 400 5 _ _ _ _ _ _ ?_
    (lagging_world_answers 0) lagging_trace_validated (Prod.fst_eq_iff.mp ran)
  simp [lowerBlock, highestBlock, linkedBlock, linkedHeader, soleHeader, LightBlock.height,
    LightBlock.time, LightBlock.header]

end Inputs

end Tendermint.Light
