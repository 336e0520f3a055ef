import Tendermint.Types.Block

/-!
types/params.go: the consensus parameters, their validation and their update by
the application. The conversions to and from protobuf keep every field and are
left out, as is the comparison used by tests.
-/

namespace Tendermint.Types

open Merkle (Hashing)
open Wire (encodeFields)

structure BlockParams where
  maxBytes : Int
  maxGas : Int
  deriving DecidableEq, Repr

structure EvidenceParams where
  maxAgeNumBlocks : Int
  maxAgeDuration : Int
  maxBytes : Int
  deriving DecidableEq, Repr

structure ValidatorParams where
  pubKeyTypes : List String
  deriving DecidableEq, Repr

structure VersionParams where
  appVersion : Nat
  deriving DecidableEq, Repr

structure ConsensusParams where
  block : BlockParams
  evidence : EvidenceParams
  validator : ValidatorParams
  version : VersionParams
  deriving DecidableEq, Repr

/-- The protobuf message of an update; a nil part is left as it is. -/
structure ConsensusParamsUpdate where
  block : Option BlockParams
  evidence : Option EvidenceParams
  validator : Option ValidatorParams
  version : Option VersionParams
  deriving DecidableEq, Repr

/-- types.MaxBlockSizeBytes -/
def maxBlockSizeBytes : Int := 104857600

/-- The keys of `ABCIPubKeyTypesToNames`. -/
def abciPubKeyTypes : List String := ["ed25519", "secp256k1", "sr25519"]

namespace ConsensusParams

def validateConsensusParams (params : ConsensusParams) : Option String :=
  if params.block.maxBytes ≤ 0 then
    some s!"block.MaxBytes must be greater than 0. Got {params.block.maxBytes}"
  else if maxBlockSizeBytes < params.block.maxBytes then
    some s!"block.MaxBytes is too big. {params.block.maxBytes} > {maxBlockSizeBytes}"
  else if params.block.maxGas < -1 then
    some s!"block.MaxGas must be greater or equal to -1. Got {params.block.maxGas}"
  else if params.evidence.maxAgeNumBlocks ≤ 0 then
    some s!"evidence.MaxAgeNumBlocks must be greater than 0. Got {params.evidence.maxAgeNumBlocks}"
  else if params.evidence.maxAgeDuration ≤ 0 then
    some ("evidence.MaxAgeDuration must be grater than 0 if provided, " ++
      s!"Got {params.evidence.maxAgeDuration}")
  else if params.block.maxBytes < params.evidence.maxBytes then
    some ("evidence.MaxBytesEvidence is greater than upper bound, " ++
      s!"{params.evidence.maxBytes} > {params.block.maxBytes}")
  else if params.evidence.maxBytes < 0 then
    some s!"evidence.MaxBytes must be non negative. Got: {params.evidence.maxBytes}"
  else if params.validator.pubKeyTypes.length = 0 then
    some "len(Validator.PubKeyTypes) must be greater than 0"
  else match params.validator.pubKeyTypes.zipIdx.find? fun entry => entry.1 ∉ abciPubKeyTypes with
  | some (keyType, i) =>
    some s!"params.Validator.PubKeyTypes[{i}], {keyType}, is an unknown pubkey type"
  | none => none

/-- Only the limits of the block are in the hash. -/
def hashConsensusParams (hashing : Hashing) (params : ConsensusParams) : Bytes :=
  hashing.sum (encodeFields (int64Field 1 params.block.maxBytes ++
    int64Field 2 params.block.maxGas))

def updateConsensusParams (params : ConsensusParams) (params2 : Option ConsensusParamsUpdate) :
    ConsensusParams :=
  match params2 with
  | none => params
  | some update => {
      block := update.block.getD params.block
      evidence := update.evidence.getD params.evidence
      validator := update.validator.getD params.validator
      version := update.version.getD params.version }

end ConsensusParams

end Tendermint.Types
