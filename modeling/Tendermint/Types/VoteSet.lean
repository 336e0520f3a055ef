import Tendermint.Types.ValidatorSet

/-!
The set of votes of one height, round and type. Maps of the source are
functions to options, slices of pointers are lists of options and a bit array
is its list of bits. Voting powers are added without wrapping: in a well-formed
validator set every sum here stays below `maxTotalVotingPower`. Locks and the
string and JSON forms are left out.
-/

namespace Tendermint.Types

open Quorum (slot)

abbrev PeerID := Bytes

inductive VerifyError where
  | invalidValidatorAddress
  | invalidSignature
  deriving DecidableEq, Repr

def Vote.verify (crypto : Crypto) (chainID : ChainID) (vote : Vote) (pubKey : PubKey) :
    Panics (Option VerifyError) := do
  if crypto.address pubKey ≠ vote.validatorAddress then
    return some .invalidValidatorAddress
  let signBytes ← voteSignBytes chainID vote
  if crypto.verifySignature pubKey signBytes vote.signature then pure none
  else pure (some .invalidSignature)

/-- The errors of `AddVote` with the values their texts print. -/
inductive AddVoteError where
  | nilVote
  | negativeIndex
  | emptyAddress
  | unexpectedStep (height round : Int) (type : SignedMsgType) (vote : Vote)
  | unknownValidator (index : Int) (size : Nat)
  | wrongAddress (address lookup : Address) (index : Int)
  | nonDeterministicSignature (existing vote : Vote)
  | verify (chainID : ChainID) (pubKey : PubKey) (error : VerifyError)
  | conflictingVotes (voteA voteB : Vote)
  deriving DecidableEq, Repr

structure BlockVotes where
  peerMaj23 : Bool
  bitArray : List Bool
  votes : List (Option Vote)
  sum : Int

namespace BlockVotes

def new (peerMaj23 : Bool) (numValidators : Nat) : BlockVotes :=
  ⟨peerMaj23, List.replicate numValidators false, List.replicate numValidators none, 0⟩

def addVerifiedVote (votes : BlockVotes) (vote : Vote) (votingPower : Int) : BlockVotes :=
  let valIndex := vote.validatorIndex.toNat
  match slot votes.votes valIndex with
  | some _ => votes
  | none => { votes with
      bitArray := votes.bitArray.set valIndex true,
      votes := votes.votes.set valIndex (some vote),
      sum := votes.sum + votingPower }

end BlockVotes

structure VoteSet where
  chainID : ChainID
  height : Int
  round : Int
  signedMsgType : SignedMsgType
  valSet : ValidatorSet
  votesBitArray : List Bool
  votes : List (Option Vote)
  sum : Int
  maj23 : Option BlockID
  votesByBlock : Bytes → Option BlockVotes
  peerMaj23s : PeerID → Option BlockID

namespace VoteSet

def new (chainID : ChainID) (height round : Int) (signedMsgType : SignedMsgType)
    (valSet : ValidatorSet) : Panics VoteSet :=
  if height = 0 then .error "Cannot make VoteSet for height == 0, doesn't make sense."
  else .ok {
    chainID := chainID, height := height, round := round, signedMsgType := signedMsgType,
    valSet := valSet, votesBitArray := List.replicate valSet.size false,
    votes := List.replicate valSet.size none, sum := 0, maj23 := none,
    votesByBlock := fun _ => none, peerMaj23s := fun _ => none }

def getVote (voteSet : VoteSet) (valIndex : Nat) (blockKey : Bytes) : Option Vote :=
  match (slot voteSet.votes valIndex).filter fun existing => existing.blockID.key == blockKey with
  | some existing => some existing
  | none => (voteSet.votesByBlock blockKey).bind fun votes => slot votes.votes valIndex

/-- The first half of `addVerifiedVote`: the vote goes into `votes` when the
slot is free, or when it is for the block that already has its majority. -/
def place (voteSet : VoteSet) (vote : Vote) (blockKey : Bytes) (votingPower : Int) : VoteSet :=
  let valIndex := vote.validatorIndex.toNat
  match slot voteSet.votes valIndex with
  | some _ =>
    if voteSet.maj23.map BlockID.key = some blockKey then
      { voteSet with
        votes := voteSet.votes.set valIndex (some vote),
        votesBitArray := voteSet.votesBitArray.set valIndex true }
    else voteSet
  | none =>
    { voteSet with
      votes := voteSet.votes.set valIndex (some vote),
      votesBitArray := voteSet.votesBitArray.set valIndex true,
      sum := voteSet.sum + votingPower }

/-- The tally the vote is added to, or nothing when the vote is forgotten. -/
def trackedVotes (voteSet : VoteSet) (blockKey : Bytes) (conflicting : Option Vote) :
    Option BlockVotes :=
  match voteSet.votesByBlock blockKey with
  | some votes => if conflicting.isSome && !votes.peerMaj23 then none else some votes
  | none => if conflicting.isSome then none else some (.new false voteSet.valSet.size)

/-- The second half of `addVerifiedVote`: count the vote for its block, and on
the first quorum fix the majority and copy its votes. -/
def count (voteSet : VoteSet) (vote : Vote) (blockKey : Bytes) (votingPower quorum : Int)
    (votes : BlockVotes) : VoteSet :=
  let added := votes.addVerifiedVote vote votingPower
  let tracked := { voteSet with
    votesByBlock := Function.update voteSet.votesByBlock blockKey (some added) }
  if votes.sum < quorum ∧ quorum ≤ added.sum ∧ voteSet.maj23 = none then
    { tracked with maj23 := some vote.blockID, votes := Quorum.overlay voteSet.votes added.votes }
  else tracked

def quorumOf (total : Int) : Int := (total * 2).tdiv 3 + 1

def addVerifiedVote (voteSet : VoteSet) (vote : Vote) (blockKey : Bytes) (votingPower : Int) :
    Panics (Bool × Option Vote × VoteSet) := do
  let conflicting := slot voteSet.votes vote.validatorIndex.toNat
  if conflicting.any fun existing => existing.blockID.equals vote.blockID then
    throw "addVerifiedVote does not expect duplicate votes"
  let placed := voteSet.place vote blockKey votingPower
  match placed.trackedVotes blockKey conflicting with
  | none => pure (false, conflicting, placed)
  | some votes =>
    let total ← placed.valSet.totalVotingPower
    pure (true, conflicting, placed.count vote blockKey votingPower (quorumOf total) votes)

structure Added where
  added : Bool
  error : Option AddVoteError
  deriving DecidableEq, Repr

def rejected (error : AddVoteError) : Added := ⟨false, some error⟩

def addVote (crypto : Crypto) (voteSet : VoteSet) (vote : Option Vote) :
    Panics (Added × VoteSet) := do
  let some vote := vote | return (rejected .nilVote, voteSet)
  if vote.validatorIndex < 0 then return (rejected .negativeIndex, voteSet)
  if vote.validatorAddress.length = 0 then return (rejected .emptyAddress, voteSet)
  if vote.height ≠ voteSet.height ∨ vote.round ≠ voteSet.round ∨
      vote.type ≠ voteSet.signedMsgType then
    return (rejected (.unexpectedStep voteSet.height voteSet.round voteSet.signedMsgType vote),
      voteSet)
  let some val := voteSet.valSet.getByIndex vote.validatorIndex
    | return (rejected (.unknownValidator vote.validatorIndex voteSet.valSet.size), voteSet)
  if vote.validatorAddress ≠ val.address then
    return (rejected (.wrongAddress vote.validatorAddress val.address vote.validatorIndex), voteSet)
  if let some existing := voteSet.getVote vote.validatorIndex.toNat vote.blockID.key then
    if existing.signature = vote.signature then return (⟨false, none⟩, voteSet)
    return (rejected (.nonDeterministicSignature existing vote), voteSet)
  if let some error ← vote.verify crypto voteSet.chainID val.pubKey then
    return (rejected (.verify voteSet.chainID val.pubKey error), voteSet)
  let (added, conflicting, next) ←
    voteSet.addVerifiedVote vote vote.blockID.key val.votingPower
  if let some existing := conflicting then
    return (⟨added, some (.conflictingVotes existing vote)⟩, next)
  if !added then throw "Expected to add non-conflicting vote"
  pure (⟨added, none⟩, next)

structure PeerMaj23Error where
  peerID : PeerID
  got : BlockID
  expected : BlockID
  deriving DecidableEq, Repr

def setPeerMaj23 (voteSet : VoteSet) (peerID : PeerID) (blockID : BlockID) :
    Option PeerMaj23Error × VoteSet :=
  match voteSet.peerMaj23s peerID with
  | some existing =>
    if existing.equals blockID then (none, voteSet)
    else (some ⟨peerID, blockID, existing⟩, voteSet)
  | none =>
    let claimed := { voteSet with
      peerMaj23s := Function.update voteSet.peerMaj23s peerID (some blockID) }
    let votes := match voteSet.votesByBlock blockID.key with
      | some votes => { votes with peerMaj23 := true }
      | none => .new true voteSet.valSet.size
    (none, { claimed with
      votesByBlock := Function.update voteSet.votesByBlock blockID.key (some votes) })

def hasTwoThirdsMajority (voteSet : VoteSet) : Bool := voteSet.maj23.isSome

def twoThirdsMajority (voteSet : VoteSet) : Option BlockID := voteSet.maj23

/-- The checks that a vote passes before it is stored. -/
structure Accepted (crypto : Crypto) (voteSet : VoteSet) (vote : Vote) (val : Validator) :
    Prop where
  height : vote.height = voteSet.height
  round : vote.round = voteSet.round
  type : vote.type = voteSet.signedMsgType
  validator : voteSet.valSet.getByIndex vote.validatorIndex = some val
  named : vote.validatorAddress.length ≠ 0
  address : vote.validatorAddress = val.address
  verified : vote.verify crypto voteSet.chainID val.pubKey = .ok none

/-- A call of `AddVote` that returns either changes nothing, or the vote was
accepted, was not known, and is added as a verified one. -/
theorem add_vote_cases {crypto : Crypto} {voteSet next : VoteSet} {vote : Option Vote}
    {result : Added} (returned : voteSet.addVote crypto vote = .ok (result, next)) :
    (next = voteSet ∧ result.added = false) ∨
    ∃ accepted val conflicting, vote = some accepted ∧
      Accepted crypto voteSet accepted val ∧
      voteSet.getVote accepted.validatorIndex.toNat accepted.blockID.key = none ∧
      voteSet.addVerifiedVote accepted accepted.blockID.key val.votingPower =
        .ok (result.added, conflicting, next) ∧
      result.error = conflicting.map fun existing => .conflictingVotes existing accepted := by
  have unchanged : ∀ refused : Added, refused.added = false →
      (Except.ok (refused, voteSet) : Panics _) = .ok (result, next) →
      next = voteSet ∧ result.added = false := by
    intro refused notAdded same
    cases same
    exact ⟨rfl, notAdded⟩
  unfold addVote at returned
  simp only [bind_eq, pure_eq] at returned
  cases vote with
  | none => exact Or.inl (unchanged _ rfl returned)
  | some vote =>
  simp only at returned
  split at returned
  · exact Or.inl (unchanged _ rfl returned)
  split at returned
  · exact Or.inl (unchanged _ rfl returned)
  rename_i named
  split at returned
  · exact Or.inl (unchanged _ rfl returned)
  rename_i step
  cases found : voteSet.valSet.getByIndex vote.validatorIndex with
  | none => exact Or.inl (unchanged _ rfl (by simpa [found] using returned))
  | some val =>
  simp only [found] at returned
  split at returned
  · exact Or.inl (unchanged _ rfl returned)
  rename_i address
  cases known : voteSet.getVote vote.validatorIndex.toNat vote.blockID.key with
  | some existing =>
    simp only [known] at returned
    split at returned
    · exact Or.inl (unchanged _ rfl returned)
    · exact Or.inl (unchanged _ rfl returned)
  | none =>
  cases verified : vote.verify crypto voteSet.chainID val.pubKey with
  | error text => simp [known, verified] at returned
  | ok outcome =>
  cases outcome with
  | some error => exact Or.inl (unchanged _ rfl (by simpa [known, verified] using returned))
  | none =>
  simp only [known, verified] at returned
  push Not at step address
  have accepted : Accepted crypto voteSet vote val :=
    ⟨step.1, step.2.1, step.2.2, found, named, address, verified⟩
  cases stored : voteSet.addVerifiedVote vote vote.blockID.key val.votingPower with
  | error text => simp [stored] at returned
  | ok outcome =>
  obtain ⟨added, conflicting, after⟩ := outcome
  refine Or.inr ⟨vote, val, conflicting, rfl, accepted, known, ?_⟩
  rw [stored] at returned
  cases conflicting with
  | some existing =>
    cases returned
    exact ⟨stored, rfl⟩
  | none =>
  cases added with
  | false => cases returned
  | true =>
    cases returned
    exact ⟨stored, rfl⟩

theorem add_vote_accepted {crypto : Crypto} {voteSet next : VoteSet} {vote : Vote}
    {val : Validator} {added : Bool} {conflicting : Option Vote}
    (accepted : Accepted crypto voteSet vote val) (inside : 0 ≤ vote.validatorIndex)
    (unknown : voteSet.getVote vote.validatorIndex.toNat vote.blockID.key = none)
    (stored : voteSet.addVerifiedVote vote vote.blockID.key val.votingPower =
      .ok (added, conflicting, next))
    (explained : conflicting = none → added = true) :
    voteSet.addVote crypto (some vote) =
      .ok (⟨added, conflicting.map fun existing => .conflictingVotes existing vote⟩, next) := by
  have named : val.address.length ≠ 0 := by
    rw [← accepted.address]
    exact accepted.named
  simp only [addVote, Int.not_lt.mpr inside, accepted.address, named, accepted.height,
    accepted.round, accepted.type, accepted.validator, accepted.verified, unknown, stored, bind_eq,
    pure_eq, ne_eq, not_true_eq_false, or_self, if_false]
  cases conflicting with
  | some existing => rfl
  | none =>
    rw [explained rfl]
    rfl

end VoteSet

end Tendermint.Types
