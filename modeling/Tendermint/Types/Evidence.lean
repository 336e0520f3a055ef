import Tendermint.Types.Proto

/-!
types/evidence.go: evidence of a duplicate vote and of an attack on a light
client. The votes, the conflicting block and its parts are never nil here. The
list of byzantine validators tells nil from empty, which `ValidateABCI` does;
decoded evidence has a list that is not nil. The string forms and the ABCI form
are left out.
-/

namespace Tendermint.Types

open Merkle (Hashing)
open Wire (encodeFields putUvarint)

structure DuplicateVoteEvidence where
  voteA : Vote
  voteB : Vote
  totalVotingPower : Int
  validatorPower : Int
  timestamp : Time
  deriving DecidableEq, Repr

structure LightClientAttackEvidence where
  conflictingBlock : LightBlock
  commonHeight : Int
  byzantineValidators : Option (List Validator)
  totalVotingPower : Int
  timestamp : Time
  deriving DecidableEq, Repr

inductive Evidence where
  | duplicateVote (evidence : DuplicateVoteEvidence)
  | lightClientAttack (evidence : LightClientAttackEvidence)
  deriving DecidableEq, Repr

inductive AbciFault where
  | timestamp (given expected : Time)
  | validatorPower (given expected : Int)
  | totalVotingPower (given expected : Int)
  | amnesiaValidators (given : Nat)
  | validatorCount (expected given : Nat)
  | validatorAddress (expected given : Address)
  | byzantinePower (expected given : Int)
  deriving DecidableEq, Repr

namespace DuplicateVoteEvidence

/-- NewDuplicateVoteEvidence: the votes are put in the order of their block keys. -/
def new (vote1 vote2 : Vote) (blockTime : Time) (valSet : ValidatorSet) :
    Panics (Option DuplicateVoteEvidence) := do
  match valSet.getByAddress vote1.validatorAddress with
  | none => pure none
  | some (_, val) => do
    let total ← valSet.totalVotingPower
    if compareBytes vote1.blockID.key vote2.blockID.key = .lt then
      pure (some ⟨vote1, vote2, total, val.votingPower, blockTime⟩)
    else pure (some ⟨vote2, vote1, total, val.votingPower, blockTime⟩)

def bytes (evidence : DuplicateVoteEvidence) : Bytes :=
  encodeFields ([⟨1, .bytes evidence.voteA.marshal⟩, ⟨2, .bytes evidence.voteB.marshal⟩] ++
    int64Field 3 evidence.totalVotingPower ++ int64Field 4 evidence.validatorPower ++
    [⟨5, .bytes (stdTime evidence.timestamp)⟩])

def hash (hashing : Hashing) (evidence : DuplicateVoteEvidence) : Bytes :=
  hashing.sum evidence.bytes

def validateBasic (evidence : DuplicateVoteEvidence) : Option String :=
  match evidence.voteA.validateBasic with
  | some text => some ("invalid VoteA: " ++ text)
  | none =>
    match evidence.voteB.validateBasic with
    | some text => some ("invalid VoteB: " ++ text)
    | none =>
      if compareBytes evidence.voteA.blockID.key evidence.voteB.blockID.key = .lt then none
      else some "duplicate votes in invalid order"

def validateABCI (evidence : DuplicateVoteEvidence) (val : Validator) (valSet : ValidatorSet)
    (evidenceTime : Time) : Panics (Option AbciFault) := do
  if evidence.timestamp ≠ evidenceTime then
    pure (some (.timestamp evidence.timestamp evidenceTime))
  else if val.votingPower ≠ evidence.validatorPower then
    pure (some (.validatorPower evidence.validatorPower val.votingPower))
  else do
    let total ← valSet.totalVotingPower
    if total ≠ evidence.totalVotingPower then
      pure (some (.totalVotingPower evidence.totalVotingPower total))
    else pure none

def generateABCI (evidence : DuplicateVoteEvidence) (val : Validator) (valSet : ValidatorSet)
    (evidenceTime : Time) : Panics DuplicateVoteEvidence := do
  let total ← valSet.totalVotingPower
  pure { evidence with
    validatorPower := val.votingPower, totalVotingPower := total, timestamp := evidenceTime }

end DuplicateVoteEvidence

namespace LightClientAttackEvidence

/-- binary.PutVarint -/
def putVarint (value : Int) : Bytes :=
  putUvarint (if 0 ≤ value then (2 * value).toNat else (-2 * value - 1).toNat)

/-- Only 31 bytes of the hash of the conflicting block are copied. -/
def hash (hashing : Hashing) (evidence : LightClientAttackEvidence) : Bytes :=
  let blockHash := (evidence.conflictingBlock.hash hashing).take (hashSize - 1)
  hashing.sum (blockHash ++ List.replicate (hashSize - blockHash.length) 0 ++
    putVarint evidence.commonHeight)

def bytes (evidence : LightClientAttackEvidence) : Bytes :=
  encodeFields ([⟨1, .bytes evidence.conflictingBlock.marshal⟩] ++
    int64Field 2 evidence.commonHeight ++
    ((evidence.byzantineValidators.getD []).map fun val => ⟨3, .bytes val.marshal⟩) ++
    int64Field 4 evidence.totalVotingPower ++ [⟨5, .bytes (stdTime evidence.timestamp)⟩])

def conflictingHeaderIsInvalid (evidence : LightClientAttackEvidence) (trusted : Header) : Bool :=
  let conflicting := evidence.conflictingBlock.header
  trusted.validatorsHash != conflicting.validatorsHash ||
    trusted.nextValidatorsHash != conflicting.nextValidatorsHash ||
    trusted.consensusHash != conflicting.consensusHash ||
    trusted.appHash != conflicting.appHash ||
    trusted.lastResultsHash != conflicting.lastResultsHash

/-- The validators of the common set that a signature for the conflicting block
names. -/
def lunaticSigners (evidence : LightClientAttackEvidence) (commonVals : ValidatorSet) :
    List Validator :=
  (evidence.conflictingBlock.commit.signatures.filter CommitSig.forBlock).filterMap fun sig =>
    (commonVals.getByAddress sig.validatorAddress).map Prod.snd

/-- The validators named at the indexes where both commits have a signature for
their block; a nil entry stands for an address that is not in the set. -/
def doubleSigners (evidence : LightClientAttackEvidence) (trusted : Commit) :
    List CommitSig → Nat → Panics (List (Option Validator))
  | [], _ => .ok []
  | sigA :: rest, index =>
    if !sigA.forBlock then evidence.doubleSigners trusted rest (index + 1)
    else match trusted.signatures[index]? with
    | none => .error "index out of range"
    | some sigB =>
      if !sigB.forBlock then evidence.doubleSigners trusted rest (index + 1)
      else do
        let later ← evidence.doubleSigners trusted rest (index + 1)
        pure ((evidence.conflictingBlock.validatorSet.getByAddress sigA.validatorAddress).map
          Prod.snd :: later)

def nilOrLess : Option Validator → Option Validator → Bool
  | some val, some other => val.lessByVotingPower other
  | _, _ => false

/-- The sort compares every entry of a list of two or more. -/
def sortedByPower (validators : List (Option Validator)) : Panics (List (Option Validator)) :=
  if 2 ≤ validators.length && validators.any Option.isNone then
    .error "invalid memory address or nil pointer dereference"
  else .ok (validators.insertionSort fun first second => nilOrLess second first = false)

/-- No validators at all is the nil slice. -/
def getByzantineValidators (evidence : LightClientAttackEvidence) (commonVals : ValidatorSet)
    (trusted : SignedHeader) : Panics (List (Option Validator)) :=
  if evidence.conflictingHeaderIsInvalid trusted.header then
    sortedByPower ((evidence.lunaticSigners commonVals).map some)
  else if trusted.commit.round = evidence.conflictingBlock.commit.round then do
    let validators ← evidence.doubleSigners trusted.commit
      evidence.conflictingBlock.commit.signatures 0
    sortedByPower validators
  else .ok []

inductive Fault where
  | totalVotingPower
  | commonHeight
  | commonAhead (common conflicting : Int)
  | conflictingBlock (fault : LightBlock.Fault)
  deriving DecidableEq, Repr

def validateBasic (hashing : Hashing) (evidence : LightClientAttackEvidence) : Option Fault :=
  if evidence.totalVotingPower ≤ 0 then some .totalVotingPower
  else if evidence.commonHeight ≤ 0 then some .commonHeight
  else if evidence.conflictingBlock.height < evidence.commonHeight then
    some (.commonAhead evidence.commonHeight evidence.conflictingBlock.height)
  else (evidence.conflictingBlock.validateBasic hashing
    evidence.conflictingBlock.header.chainID).map Fault.conflictingBlock

def compareValidators : List (Option Validator) → List Validator → Panics (Option AbciFault)
  | none :: _, _ :: _ => .error "invalid memory address or nil pointer dereference"
  | some val :: validators, listed :: rest =>
    if listed.address ≠ val.address then
      .ok (some (.validatorAddress val.address listed.address))
    else if listed.votingPower ≠ val.votingPower then
      .ok (some (.byzantinePower val.votingPower listed.votingPower))
    else compareValidators validators rest
  | _, _ => .ok none

def validateABCI (evidence : LightClientAttackEvidence) (commonVals : ValidatorSet)
    (trusted : SignedHeader) (evidenceTime : Time) : Panics (Option AbciFault) := do
  let total ← commonVals.totalVotingPower
  if evidence.totalVotingPower ≠ total then
    pure (some (.totalVotingPower evidence.totalVotingPower total))
  else if evidence.timestamp ≠ evidenceTime then
    pure (some (.timestamp evidence.timestamp evidenceTime))
  else do
    let validators ← evidence.getByzantineValidators commonVals trusted
    let listed := evidence.byzantineValidators.getD []
    if validators = [] ∧ evidence.byzantineValidators.isSome then
      pure (some (.amnesiaValidators listed.length))
    else if validators.length ≠ listed.length then
      pure (some (.validatorCount validators.length listed.length))
    else compareValidators validators listed

/-- Nothing if a validator is nil, which has no encoding. -/
def generateABCI (evidence : LightClientAttackEvidence) (commonVals : ValidatorSet)
    (trusted : SignedHeader) (evidenceTime : Time) : Panics (Option LightClientAttackEvidence) := do
  let total ← commonVals.totalVotingPower
  let validators ← evidence.getByzantineValidators commonVals trusted
  if validators.any Option.isNone then pure none
  else pure (some { evidence with
    timestamp := evidenceTime
    totalVotingPower := total
    byzantineValidators :=
      if validators = [] then none else some (validators.filterMap id) })

end LightClientAttackEvidence

namespace Evidence

def height : Evidence → Int
  | .duplicateVote evidence => evidence.voteA.height
  | .lightClientAttack evidence => evidence.commonHeight

def time : Evidence → Time
  | .duplicateVote evidence => evidence.timestamp
  | .lightClientAttack evidence => evidence.timestamp

def hash (hashing : Hashing) : Evidence → Bytes
  | .duplicateVote evidence => evidence.hash hashing
  | .lightClientAttack evidence => evidence.hash hashing

def marshal : Evidence → Bytes
  | .duplicateVote evidence => encodeFields [⟨1, .bytes evidence.bytes⟩]
  | .lightClientAttack evidence => encodeFields [⟨2, .bytes evidence.bytes⟩]

def isValidBasic (hashing : Hashing) : Evidence → Bool
  | .duplicateVote evidence => evidence.validateBasic.isNone
  | .lightClientAttack evidence => (evidence.validateBasic hashing).isNone

/-- What comes back from the encoding: a list that is not nil. -/
def reloaded : Evidence → Evidence
  | .duplicateVote evidence => .duplicateVote evidence
  | .lightClientAttack evidence => .lightClientAttack { evidence with
      byzantineValidators := some (evidence.byzantineValidators.getD []) }

@[simp]
theorem reloaded_height (evidence : Evidence) : evidence.reloaded.height = evidence.height := by
  cases evidence <;> rfl

@[simp]
theorem reloaded_hash (hashing : Hashing) (evidence : Evidence) :
    evidence.reloaded.hash hashing = evidence.hash hashing := by
  cases evidence <;> rfl

end Evidence

def evidenceListSize (evidence : List Evidence) : Int :=
  (encodeFields (evidence.map fun item => ⟨1, .bytes item.marshal⟩)).length

end Tendermint.Types
