import Tendermint.Light.Verifier
import Tendermint.State.Time
import Tendermint.Types.Evidence

/-!
internal/evidence/verify.go: the verification of evidence against the state of a
full node. If only the ABCI part of the evidence is wrong, the part is generated
anew and the evidence goes to the pending ones although an error is returned;
the verdict names it. The stores are the functions that are called on them.
-/

namespace Tendermint.EvPool

open Types
open Merkle (Hashing)

structure Stores where
  loadBlockMeta : Int → Option Header
  loadBlockCommit : Int → Option Commit
  height : Int
  loadValidators : Int → Except String ValidatorSet

structure Env where
  crypto : Crypto
  hashing : Hashing
  stores : Stores

/-- time.Time.Sub saturates. -/
def timeSub (time other : Time) : Int := max minInt64 (min maxInt64 (time - other))

def defaultTrustLevel : Fraction := ⟨1, 3⟩

inductive VerifyError where
  | missingBlock (height : Int)
  | tooOld (height : Int) (time : Time)
  | validators (text : String)
  | notValidator (address : Address)
  | heightRoundStep
  | addresses (first second : Address)
  | sameBlockID (blockID : BlockID)
  | keyAddress (address key : Address)
  | signatureA
  | signatureB
  | missingHeader (height : Int)
  | missingCommit (height : Int)
  | latestBefore (latest conflicting : Time)
  | skipping (error : VerifyCommitError)
  | notDerived
  | conflictingCommit (error : VerifyCommitError)
  | timeNotViolated (conflicting trusted : Time)
  | sameHash (hash : Bytes)
  | abci (fault : AbciFault)
  deriving DecidableEq, Repr

inductive Verdict where
  | accepted
  | refused (error : VerifyError)
  /-- An ABCI fault, with the evidence that is added to the pending ones. -/
  | rectified (fault : AbciFault) (evidence : Option Evidence)
  deriving DecidableEq, Repr

def verifyDuplicateVote (crypto : Crypto) (evidence : DuplicateVoteEvidence) (chainID : ChainID)
    (valSet : ValidatorSet) : Panics (Option VerifyError) := do
  match valSet.getByAddress evidence.voteA.validatorAddress with
  | none => pure (some (.notValidator evidence.voteA.validatorAddress))
  | some (_, val) =>
    if evidence.voteA.height ≠ evidence.voteB.height ∨
        evidence.voteA.round ≠ evidence.voteB.round ∨
        evidence.voteA.type ≠ evidence.voteB.type then pure (some .heightRoundStep)
    else if evidence.voteA.validatorAddress ≠ evidence.voteB.validatorAddress then
      pure (some (.addresses evidence.voteA.validatorAddress evidence.voteB.validatorAddress))
    else if evidence.voteA.blockID.equals evidence.voteB.blockID then
      pure (some (.sameBlockID evidence.voteA.blockID))
    else if crypto.address val.pubKey ≠ evidence.voteA.validatorAddress then
      pure (some (.keyAddress evidence.voteA.validatorAddress (crypto.address val.pubKey)))
    else do
      let signBytesA ← voteSignBytes chainID evidence.voteA
      if !crypto.verifySignature val.pubKey signBytesA evidence.voteA.signature then
        pure (some .signatureA)
      else do
        let signBytesB ← voteSignBytes chainID evidence.voteB
        if !crypto.verifySignature val.pubKey signBytesB evidence.voteB.signature then
          pure (some .signatureB)
        else pure none

/-- One skipping jump to the conflicting block, or the check that its header was
correctly derived. -/
def verifyJump (crypto : Crypto) (evidence : LightClientAttackEvidence)
    (commonHeader trustedHeader : SignedHeader) (commonVals : ValidatorSet) :
    Panics (Option VerifyError) := do
  if commonHeader.header.height ≠ evidence.conflictingBlock.height then do
    let error ← verifyCommitLightTrusting crypto trustedHeader.header.chainID commonVals
      evidence.conflictingBlock.commit defaultTrustLevel
    pure (error.map VerifyError.skipping)
  else if evidence.conflictingHeaderIsInvalid trustedHeader.header then pure (some .notDerived)
  else pure none

def verifyLightClientAttack (crypto : Crypto) (hashing : Hashing)
    (evidence : LightClientAttackEvidence) (commonHeader trustedHeader : SignedHeader)
    (commonVals : ValidatorSet) : Panics (Option VerifyError) := do
  let conflicting := evidence.conflictingBlock
  match ← verifyJump crypto evidence commonHeader trustedHeader commonVals with
  | some error => pure (some error)
  | none => do
    match ← verifyCommitLight crypto trustedHeader.header.chainID conflicting.validatorSet
        conflicting.commit.blockID conflicting.height conflicting.commit with
    | some error => pure (some (.conflictingCommit error))
    | none =>
      if trustedHeader.header.height < conflicting.height ∧
          trustedHeader.header.time < conflicting.time then
        pure (some (.timeNotViolated conflicting.time trustedHeader.header.time))
      else if trustedHeader.header.hash hashing = conflicting.hash hashing then
        pure (some (.sameHash (trustedHeader.header.hash hashing)))
      else pure none

def Stores.getSignedHeader (stores : Stores) (height : Int) : Except VerifyError SignedHeader :=
  match stores.loadBlockMeta height with
  | none => .error (.missingHeader height)
  | some header =>
    match stores.loadBlockCommit height with
    | none => .error (.missingCommit height)
    | some commit => .ok ⟨header, commit⟩

/-- The own header to compare with: without one at the height of the conflicting
block it is the latest, which has to be as late. -/
def Stores.trustedHeader (stores : Stores) (evidence : LightClientAttackEvidence)
    (commonHeader : SignedHeader) : Except VerifyError SignedHeader :=
  if evidence.commonHeight = evidence.conflictingBlock.height then .ok commonHeader
  else match stores.getSignedHeader evidence.conflictingBlock.height with
  | .ok trusted => .ok trusted
  | .error _ =>
    match stores.getSignedHeader stores.height with
    | .error error => .error error
    | .ok latest =>
      if latest.header.time < evidence.conflictingBlock.time then
        .error (.latestBefore latest.header.time evidence.conflictingBlock.time)
      else .ok latest

section

variable (env : Env)

def verifyDuplicate (chainID : ChainID) (evidence : DuplicateVoteEvidence) (evTime : Time) :
    Panics Verdict := do
  match env.stores.loadValidators evidence.voteA.height with
  | .error text => pure (.refused (.validators text))
  | .ok valSet => do
    match ← verifyDuplicateVote env.crypto evidence chainID valSet with
    | some error => pure (.refused error)
    | none =>
      match valSet.getByAddress evidence.voteA.validatorAddress with
      | none => .error "invalid memory address or nil pointer dereference"
      | some (_, val) => do
        match ← evidence.validateABCI val valSet evTime with
        | none => pure .accepted
        | some fault => do
          let rectified ← evidence.generateABCI val valSet evTime
          pure (.rectified fault (some (.duplicateVote rectified)))

def verifyAttack (evidence : LightClientAttackEvidence) (evTime : Time) : Panics Verdict := do
  match env.stores.getSignedHeader evidence.commonHeight with
  | .error error => pure (.refused error)
  | .ok commonHeader =>
    match env.stores.loadValidators evidence.commonHeight with
    | .error text => pure (.refused (.validators text))
    | .ok commonVals =>
      match env.stores.trustedHeader evidence commonHeader with
      | .error error => pure (.refused error)
      | .ok trustedHeader => do
        match ← verifyLightClientAttack env.crypto env.hashing evidence commonHeader trustedHeader
            commonVals with
        | some error => pure (.refused error)
        | none => do
          match ← evidence.validateABCI commonVals trustedHeader evTime with
          | none => pure .accepted
          | some fault => do
            let rectified ← evidence.generateABCI commonVals trustedHeader evTime
            pure (.rectified fault (rectified.map Evidence.lightClientAttack))

def verifyContent (chainID : ChainID) (evidence : Evidence) (evTime : Time) : Panics Verdict :=
  match evidence with
  | .duplicateVote evidence => verifyDuplicate env chainID evidence evTime
  | .lightClientAttack evidence => verifyAttack env evidence evTime

def verify (state : SM.State) (evidence : Evidence) : Panics Verdict := do
  let evidenceParams := state.consensusParams.evidence
  let ageNumBlocks := int64 (state.lastBlockHeight - evidence.height)
  match env.stores.loadBlockMeta evidence.height with
  | none => pure (.refused (.missingBlock evidence.height))
  | some header =>
    if evidenceParams.maxAgeDuration < timeSub state.lastBlockTime header.time ∧
        evidenceParams.maxAgeNumBlocks < ageNumBlocks then
      pure (.refused (.tooOld evidence.height header.time))
    else verifyContent env state.chainID evidence header.time

end

end Tendermint.EvPool
