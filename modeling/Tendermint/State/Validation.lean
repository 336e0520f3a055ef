import Tendermint.Types.BlockContent
import Tendermint.State.Time

/-!
internal/state/validation.go: the validation of a block against the state. What
the evidence pool finds comes after it and is in State.BlockCache.
-/

namespace Tendermint.SM

open Types List
open Merkle (Hashing)
open Wire (encodeFields)

/-- `EvidenceData.ByteSize`: the tags of both kinds of evidence take one byte. -/
def evidenceByteSize (evidence : List Bytes) : Int :=
  (encodeFields (evidence.map fun item => ⟨1, .bytes (encodeFields [⟨1, .bytes item⟩])⟩)).length

inductive ValidationError where
  | basic (error : BlockError)
  | version (expected got : ConsensusVersion)
  | chainID (expected got : ChainID)
  | initialHeight (got expected : Int)
  | height (expected got : Int)
  | lastBlockID (expected got : BlockID)
  | appHash (expected got : Bytes)
  | consensusHash (expected got : Bytes)
  | lastResultsHash (expected got : Bytes)
  | validatorsHash (expected got : Bytes)
  | nextValidatorsHash (expected got : Bytes)
  | initialSignatures
  | commit (error : VerifyCommitError)
  | proposer (address : Address)
  | time (error : TimeError)
  | evidenceOverflow (max got : Int)
  deriving DecidableEq, Repr

/-- What the validation calls outside: the signatures, the hash, and the
`ValidateBasic` of evidence. -/
structure Env where
  crypto : Crypto
  hashing : Hashing
  evidenceBasic : Bytes → Option String

section

variable (env : Env) (state : State)

def State.validateHeader (header : Header) : Option ValidationError :=
  [if header.version ≠ state.version.consensus then
      some (.version state.version.consensus header.version)
    else none,
    if header.chainID ≠ state.chainID then some (.chainID state.chainID header.chainID) else none,
    if state.lastBlockHeight = 0 ∧ header.height ≠ state.initialHeight then
      some (.initialHeight header.height state.initialHeight)
    else none,
    if 0 < state.lastBlockHeight ∧ header.height ≠ state.lastBlockHeight + 1 then
      some (.height (state.lastBlockHeight + 1) header.height)
    else none,
    if header.lastBlockID ≠ state.lastBlockID then
      some (.lastBlockID state.lastBlockID header.lastBlockID)
    else none,
    if header.appHash ≠ state.appHash then some (.appHash state.appHash header.appHash) else none,
    if header.consensusHash ≠ state.consensusParams.hashConsensusParams env.hashing then
      some (.consensusHash (state.consensusParams.hashConsensusParams env.hashing)
        header.consensusHash)
    else none,
    if header.lastResultsHash ≠ state.lastResultsHash then
      some (.lastResultsHash state.lastResultsHash header.lastResultsHash)
    else none,
    if header.validatorsHash ≠ state.validators.hash env.hashing then
      some (.validatorsHash (state.validators.hash env.hashing) header.validatorsHash)
    else none,
    if header.nextValidatorsHash ≠ state.nextValidators.hash env.hashing then
      some (.nextValidatorsHash (state.nextValidators.hash env.hashing) header.nextValidatorsHash)
    else none].findSome? id

def State.validateLastCommit (block : Block) : Panics (Option ValidationError) :=
  if block.header.height = state.initialHeight then
    .ok (if block.lastCommit.signatures.length ≠ 0 then some .initialSignatures else none)
  else do
    let error ← verifyCommit env.crypto state.chainID state.lastValidators state.lastBlockID
      (block.header.height - 1) block.lastCommit
    pure (error.map ValidationError.commit)

def State.validateRest (block : Block) : Option ValidationError :=
  if ¬ state.validators.hasAddress block.header.proposerAddress then
    some (.proposer block.header.proposerAddress)
  else match state.validateBlockTime block with
  | some error => some (.time error)
  | none =>
    if state.consensusParams.evidence.maxBytes < evidenceByteSize block.evidence then
      some (.evidenceOverflow state.consensusParams.evidence.maxBytes
        (evidenceByteSize block.evidence))
    else none

def State.validateBlock (block : Block) : Panics (Option ValidationError) := do
  match ← block.validateBasic env.hashing env.evidenceBasic with
  | some error => pure (some (.basic error))
  | none =>
    match state.validateHeader env block.header with
    | some error => pure (some error)
    | none => do
      match ← state.validateLastCommit env block with
      | some error => pure (some error)
      | none => pure (state.validateRest block)

variable {env state}

variable {block : Block}

/-- What `validateBlock` reads of a decoded block: at the initial height the
LastCommit only counts with the number of its signatures. -/
theorem validate_block_congr {other : Block} (decoded : block.Decoded env.hashing env.evidenceBasic)
    (otherDecoded : other.Decoded env.hashing env.evidenceBasic)
    (header : block.header = other.header) (evidence : block.evidence = other.evidence)
    (signatures : block.lastCommit.signatures = other.lastCommit.signatures)
    (commit : other.header.height = state.initialHeight ∨ block.lastCommit = other.lastCommit) :
    state.validateBlock env block = state.validateBlock env other := by
  have lastCommit : state.validateLastCommit env block = state.validateLastCommit env other := by
    unfold State.validateLastCommit
    rw [header, signatures]
    rcases commit with initial | same
    · rw [if_pos initial, if_pos initial]
    · rw [same]
  have time : state.validateBlockTime block = state.validateBlockTime other := by
    unfold State.validateBlockTime
    rw [header]
    rcases commit with initial | same
    · have first : ¬ state.initialHeight < other.header.height := by omega
      rw [if_neg first, if_neg first]
    · rw [same]
  have rest : state.validateRest block = state.validateRest other := by
    rw [State.validateRest, State.validateRest, header, time, evidence]
  unfold State.validateBlock
  rw [decoded.valid, otherDecoded.valid, header, lastCommit, rest]

structure State.Fits (env : Env) (state : State) (header : Header) : Prop where
  version : header.version = state.version.consensus
  chainID : header.chainID = state.chainID
  initialHeight : state.lastBlockHeight = 0 → header.height = state.initialHeight
  height : 0 < state.lastBlockHeight → header.height = state.lastBlockHeight + 1
  lastBlockID : header.lastBlockID = state.lastBlockID
  appHash : header.appHash = state.appHash
  consensusHash : header.consensusHash = state.consensusParams.hashConsensusParams env.hashing
  lastResultsHash : header.lastResultsHash = state.lastResultsHash
  validatorsHash : header.validatorsHash = state.validators.hash env.hashing
  nextValidatorsHash : header.nextValidatorsHash = state.nextValidators.hash env.hashing

theorem validate_header_none_iff {header : Header} :
    state.validateHeader env header = none ↔ state.Fits env header := by
  constructor
  · intro passed
    simp only [State.validateHeader, findSome?_eq_none_iff, mem_cons, not_mem_nil,
      or_false, forall_eq_or_imp, forall_eq, id_eq, ite_eq_right_iff, reduceCtorEq, imp_false,
      not_and, not_not] at passed
    obtain ⟨version, chainID, initialHeight, height, lastBlockID, appHash, consensusHash,
      lastResultsHash, validatorsHash, nextValidatorsHash⟩ := passed
    constructor <;> assumption
  · intro fits
    obtain ⟨version, chainID, initialHeight, height, lastBlockID, appHash, consensusHash,
      lastResultsHash, validatorsHash, nextValidatorsHash⟩ := fits
    simp only [State.validateHeader, findSome?_eq_none_iff, mem_cons, not_mem_nil,
      or_false, forall_eq_or_imp, forall_eq, id_eq, ite_eq_right_iff, reduceCtorEq, imp_false,
      not_and, not_not]
    exact ⟨version, chainID, initialHeight, height, lastBlockID, appHash, consensusHash,
      lastResultsHash, validatorsHash, nextValidatorsHash⟩

theorem valid_basic_and_header (valid : state.validateBlock env block = .ok none) :
    block.validateBasic env.hashing env.evidenceBasic = .ok none ∧ state.Fits env block.header := by
  simp only [State.validateBlock, bind_eq, pure_eq] at valid
  split at valid
  · cases valid
  rename_i basic
  split at valid
  · cases valid
  split at valid
  · cases valid
  · rename_i passed
    exact ⟨basic, validate_header_none_iff.mp passed⟩

theorem valid_height_pos (basic : block.validateBasic env.hashing env.evidenceBasic = .ok none) :
    0 < block.header.height := by
  cases checked : block.header.validateBasic with
  | none => exact Header.height_pos checked
  | some text => simp [Block.validateBasic, checked] at basic

theorem valid_validators_hash (sized : env.hashing.Sized)
    (valid : state.validateBlock env block = .ok none) : block.header.validatorsHash ≠ [] := by
  intro missing
  have size : (state.validators.hash env.hashing).length = 32 :=
    Merkle.hash_from_byte_slices_length sized _
  rw [← (valid_basic_and_header valid).2.validatorsHash, missing] at size
  cases size

end

section Shared

/-- A hash of 32 bytes: the value of the string in base 257, cut off. -/
def valueHash : Hashing where
  sum input := Wire.putFixed 32 (input.foldl (fun value byte => value * 257 + byte.toNat + 1) 0)

theorem value_hash_sized : valueHash.Sized := by
  have length : ∀ width value, (Wire.putFixed width value).length = width := by
    intro width
    induction width with
    | zero => simp [Wire.putFixed]
    | succ width ih => simp [Wire.putFixed, ih]
  exact fun input => length 32 _

def sharedEnv : Env where
  crypto := .acceptAll
  hashing := valueHash
  evidenceBasic _ := none

def sharedValidator : Types.Validator :=
  ⟨List.replicate 20 7, ⟨.ed25519, List.replicate 20 7⟩, 10, 0⟩

def sharedSet : ValidatorSet := ⟨[sharedValidator], some sharedValidator, 10⟩

def sharedBlockID : BlockID := ⟨List.replicate 32 3, ⟨1, List.replicate 32 4⟩⟩

def sharedState : State where
  version := ⟨⟨blockProtocol, 0⟩, "0.35"⟩
  chainID := [99]
  initialHeight := 1
  lastBlockHeight := 1
  lastBlockID := sharedBlockID
  lastBlockTime := 1000
  nextValidators := sharedSet
  validators := sharedSet
  lastValidators := sharedSet
  lastHeightValidatorsChanged := 1
  consensusParams := ⟨⟨22020096, -1⟩, ⟨100000, 172800000000000, 1048576⟩, ⟨["ed25519"]⟩, ⟨0⟩⟩
  lastHeightConsensusParamsChanged := 1
  lastResultsHash := []
  appHash := []

def sharedCommit (blockID : BlockID) : Commit :=
  ⟨1, 0, blockID, [⟨.commit, sharedValidator.address, 2000, [1]⟩]⟩

def sharedHeader : Header where
  version := ⟨blockProtocol, 0⟩
  chainID := [99]
  height := 2
  time := 2000
  lastBlockID := sharedBlockID
  lastCommitHash := Merkle.hashFromByteSlices valueHash
    ((sharedCommit sharedBlockID).signatures.map CommitSig.encoding)
  dataHash := txsHash valueHash []
  validatorsHash := sharedSet.hash valueHash
  nextValidatorsHash := sharedSet.hash valueHash
  consensusHash := sharedState.consensusParams.hashConsensusParams valueHash
  appHash := []
  lastResultsHash := []
  evidenceHash := evidenceHash valueHash []
  proposerAddress := sharedValidator.address

def sharedBlock (blockID : BlockID) : Block := ⟨sharedHeader, [], [], sharedCommit blockID⟩

theorem shared_header_typed : sharedHeader.Typed where
  version := ⟨by decide, by decide⟩
  height := by unfold InInt64; decide
  time := by decide
  lastBlockID := by unfold BlockID.Typed PartSetHeader.Typed; decide
  chainID := by decide
  lastCommitHash := by decide +kernel
  dataHash := by decide +kernel
  validatorsHash := by decide +kernel
  nextValidatorsHash := by decide +kernel
  consensusHash := by decide +kernel
  appHash := by decide
  lastResultsHash := by decide
  evidenceHash := by decide +kernel
  proposerAddress := by decide

theorem shared_block_decoded (blockID : BlockID)
    (valid : (sharedBlock blockID).validateBasic valueHash sharedEnv.evidenceBasic = .ok none) :
    (sharedBlock blockID).Decoded valueHash sharedEnv.evidenceBasic where
  valid := valid
  header := shared_header_typed
  signatures := by
    intro sig member
    cases mem_singleton.mp member
    exact ⟨by decide, by decide, by decide⟩

theorem shared_block_apart (blockID other : BlockID) :
    (sharedBlock blockID).Apart valueHash (sharedBlock other) where
  header := by
    change valueHash.Apart sharedHeader.leaves sharedHeader.leaves
    decide +kernel
  signatures := by
    change valueHash.Apart ((sharedCommit sharedBlockID).signatures.map CommitSig.encoding)
      ((sharedCommit sharedBlockID).signatures.map CommitSig.encoding)
    decide +kernel
  evidence := by
    change valueHash.Apart [] []
    decide

end Shared

end Tendermint.SM
