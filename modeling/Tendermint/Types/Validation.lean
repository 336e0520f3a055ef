import Tendermint.Types.VoteSet

/-!
Commits and their verification: `MakeCommit`, `CommitToVoteSet` and the three
`VerifyCommit` functions with both their batch and their single loops. The
validator set and the commit are never nil here. The hash, bit array and
string forms of a commit are left out.
-/

namespace Tendermint.Types

inductive BlockIDFlag where
  | unknown
  | absent
  | commit
  | nil
  deriving DecidableEq, Repr

structure CommitSig where
  blockIDFlag : BlockIDFlag
  validatorAddress : Address
  timestamp : Time
  signature : Bytes
  deriving DecidableEq, Repr

namespace CommitSig

def newAbsent : CommitSig := ⟨.absent, [], zeroTime, []⟩

def forBlock (sig : CommitSig) : Bool := sig.blockIDFlag == .commit

def absent (sig : CommitSig) : Bool := sig.blockIDFlag == .absent

def blockID (sig : CommitSig) (commitBlockID : BlockID) : Panics BlockID :=
  match sig.blockIDFlag with
  | .absent => .ok BlockID.zero
  | .commit => .ok commitBlockID
  | .nil => .ok BlockID.zero
  | .unknown => .error "Unknown BlockIDFlag"

end CommitSig

structure Commit where
  height : Int
  round : Int
  blockID : BlockID
  signatures : List CommitSig
  deriving DecidableEq, Repr

def Vote.commitSig (vote : Option Vote) : Panics CommitSig :=
  match vote with
  | none => .ok .newAbsent
  | some vote =>
    if vote.blockID.isComplete then
      .ok ⟨.commit, vote.validatorAddress, vote.timestamp, vote.signature⟩
    else if vote.blockID.isZero then
      .ok ⟨.nil, vote.validatorAddress, vote.timestamp, vote.signature⟩
    else .error "Invalid vote - expected BlockID to be either empty or complete"

def commitEntry (maj23 : BlockID) (vote : Option Vote) : Panics CommitSig := do
  let sig ← Vote.commitSig vote
  -- If the block ID exists but does not match, the signature is excluded.
  if sig.forBlock && !(vote.any fun vote => vote.blockID.equals maj23) then pure .newAbsent
  else pure sig

def VoteSet.makeCommit (voteSet : VoteSet) : Panics Commit := do
  if voteSet.signedMsgType ≠ .precommit then
    throw "Cannot MakeCommit() unless VoteSet.Type is PrecommitType"
  let some maj23 := voteSet.maj23 | throw "Cannot MakeCommit() unless a blockhash has +2/3"
  let commitSigs ← voteSet.votes.mapM (commitEntry maj23)
  pure ⟨voteSet.height, voteSet.round, maj23, commitSigs⟩

namespace Commit

def getVote (commit : Commit) (valIdx : Nat) : Panics Vote := do
  let some sig := commit.signatures[valIdx]? | throw "index out of range"
  let blockID ← sig.blockID commit.blockID
  pure ⟨.precommit, commit.height, commit.round, blockID, sig.timestamp, sig.validatorAddress,
    valIdx, sig.signature⟩

def voteSignBytes (commit : Commit) (chainID : ChainID) (valIdx : Nat) : Panics Bytes := do
  Types.voteSignBytes chainID (← commit.getVote valIdx)

end Commit

def addCommitSigs (crypto : Crypto) (commit : Commit) : VoteSet → List (CommitSig × Nat) →
    Panics VoteSet
  | voteSet, [] => .ok voteSet
  | voteSet, (sig, idx) :: rest =>
    if sig.absent then addCommitSigs crypto commit voteSet rest
    else do
      let vote ← commit.getVote idx
      let (result, next) ← voteSet.addVote crypto (some vote)
      if !result.added || result.error.isSome then throw "Failed to reconstruct LastCommit"
      addCommitSigs crypto commit next rest

def commitToVoteSet (crypto : Crypto) (chainID : ChainID) (commit : Commit)
    (vals : ValidatorSet) : Panics VoteSet := do
  let voteSet ← VoteSet.new chainID commit.height commit.round .precommit vals
  addCommitSigs crypto commit voteSet commit.signatures.zipIdx

inductive VerifyCommitError where
  | invalidCommitSignatures (expected actual : Nat)
  | invalidCommitHeight (expected actual : Int)
  | wrongBlockID (want got : BlockID)
  | zeroDenominator
  | overflow
  | unsupportedBatch
  | doubleVote (val : Validator) (firstIndex secondIndex : Nat)
  | batchAdd (text : String)
  | notEnoughVotingPowerSigned (got needed : Int)
  | wrongSignature (idx : Nat) (signature : Bytes)
  | wrongCommitSig (idx : Nat) (sig : CommitSig)
  | batchFailedWithoutInvalid
  deriving DecidableEq, Repr

def batchVerifyThreshold : Nat := 2

def supportsBatchVerifier (pubKey : PubKey) : Bool :=
  match pubKey.keyType with
  | .ed25519 | .sr25519 => true
  | .secp256k1 => false

/-- `BatchVerifier.Add` of the verifier made for keys of type `keyType`. -/
def batchAdd (crypto : Crypto) (keyType : KeyType) (pubKey : PubKey) (signature : Bytes) :
    Option String :=
  if pubKey.keyType ≠ keyType then
    some (match keyType with
      | .sr25519 => "sr25519: pubkey is not sr25519"
      | _ => "pubkey is not Ed25519")
  else crypto.batchMalformed pubKey signature

/-- The public key of `GetProposer()`, which the source dereferences. -/
def proposerKey (vals : ValidatorSet) : Panics PubKey := do
  match ← vals.getProposer with
  | some proposer => pure proposer.pubKey
  | none => throw "invalid memory address or nil pointer dereference"

def shouldBatchVerify (vals : ValidatorSet) (commit : Commit) : Panics Bool := do
  if commit.signatures.length < batchVerifyThreshold then return false
  pure (supportsBatchVerifier (← proposerKey vals))

/-- What `VerifyCommit`, `VerifyCommitLight` and `VerifyCommitLightTrusting`
hand to the loops. -/
structure VerifyMode where
  ignoreSig : CommitSig → Bool
  countSig : CommitSig → Bool
  countAllSignatures : Bool
  lookUpByIndex : Bool

def VerifyMode.tally (mode : VerifyMode) (tallied : Int) (sig : CommitSig)
    (val : Validator) : Int :=
  if mode.countSig sig then int64 (tallied + val.votingPower) else tallied

/-- The validator of a signature, or none if the signature is skipped, and the
validators seen with it. -/
def lookUpValidator (mode : VerifyMode) (vals : ValidatorSet) (seen : Nat → Option Nat)
    (sig : CommitSig) (idx : Nat) :
    Panics (Except VerifyCommitError (Option Validator × (Nat → Option Nat))) :=
  if mode.lookUpByIndex then
    match vals.validators[idx]? with
    | some val => .ok (.ok (some val, seen))
    | none => .error "index out of range"
  else match vals.getByAddress sig.validatorAddress with
    | none => .ok (.ok (none, seen))
    | some (valIdx, val) => match seen valIdx with
      | some firstIndex => .ok (.error (.doubleVote val firstIndex idx))
      | none => .ok (.ok (some val, Function.update seen valIdx (some idx)))

def singleLoop (crypto : Crypto) (chainID : ChainID) (vals : ValidatorSet) (commit : Commit)
    (votingPowerNeeded : Int) (mode : VerifyMode) : (Nat → Option Nat) → Int →
    List (CommitSig × Nat) → Panics (Option VerifyCommitError)
  | _, tallied, [] =>
    if tallied ≤ votingPowerNeeded then
      .ok (some (.notEnoughVotingPowerSigned tallied votingPowerNeeded))
    else .ok none
  | seen, tallied, (sig, idx) :: rest =>
    if mode.ignoreSig sig then
      singleLoop crypto chainID vals commit votingPowerNeeded mode seen tallied rest
    else do
      match ← lookUpValidator mode vals seen sig idx with
      | .error error => pure (some error)
      | .ok (none, seen) =>
        singleLoop crypto chainID vals commit votingPowerNeeded mode seen tallied rest
      | .ok (some val, seen) =>
        let signBytes ← commit.voteSignBytes chainID idx
        if !crypto.verifySignature val.pubKey signBytes sig.signature then
          return some (.wrongSignature idx sig.signature)
        let tallied := mode.tally tallied sig val
        if !mode.countAllSignatures && decide (votingPowerNeeded < tallied) then return none
        singleLoop crypto chainID vals commit votingPowerNeeded mode seen tallied rest

def verifyCommitSingle (crypto : Crypto) (chainID : ChainID) (vals : ValidatorSet)
    (commit : Commit) (votingPowerNeeded : Int) (mode : VerifyMode) :
    Panics (Option VerifyCommitError) :=
  singleLoop crypto chainID vals commit votingPowerNeeded mode (fun _ => none) 0
    commit.signatures.zipIdx

/-- What the batch loop gathers: the entries with their indices in the commit,
and the power counted. -/
structure Batch where
  entries : List (BatchEntry × Nat)
  tallied : Int

def batchLoop (crypto : Crypto) (chainID : ChainID) (vals : ValidatorSet) (commit : Commit)
    (votingPowerNeeded : Int) (mode : VerifyMode) (keyType : KeyType) :
    (Nat → Option Nat) → Batch → List (CommitSig × Nat) →
    Panics (Except VerifyCommitError Batch)
  | _, batch, [] => .ok (.ok batch)
  | seen, batch, (sig, idx) :: rest =>
    if mode.ignoreSig sig then
      batchLoop crypto chainID vals commit votingPowerNeeded mode keyType seen batch rest
    else do
      match ← lookUpValidator mode vals seen sig idx with
      | .error error => pure (.error error)
      | .ok (none, seen) =>
        batchLoop crypto chainID vals commit votingPowerNeeded mode keyType seen batch rest
      | .ok (some val, seen) =>
        let signBytes ← commit.voteSignBytes chainID idx
        if let some text := batchAdd crypto keyType val.pubKey sig.signature then
          return .error (.batchAdd text)
        let tallied := mode.tally batch.tallied sig val
        let next : Batch :=
          ⟨batch.entries ++ [(⟨val.pubKey, signBytes, sig.signature⟩, idx)], tallied⟩
        if !mode.countAllSignatures && decide (votingPowerNeeded < tallied) then
          return .ok next
        batchLoop crypto chainID vals commit votingPowerNeeded mode keyType seen next rest

/-- The end of `verifyCommitBatch`: the tally, then the batch, then the first
invalid signature. -/
def closeBatch (crypto : Crypto) (commit : Commit) (votingPowerNeeded : Int) (batch : Batch) :
    Option VerifyCommitError :=
  if batch.tallied ≤ votingPowerNeeded then
    some (.notEnoughVotingPowerSigned batch.tallied votingPowerNeeded)
  else
    let (ok, validSigs) := crypto.batchVerify (batch.entries.map (·.1))
    if ok then none
    else match (batch.entries.zip validSigs).find? fun entry => !entry.2 with
      | some ((_, idx), _) =>
        some (.wrongCommitSig idx (commit.signatures.getD idx .newAbsent))
      | none => some .batchFailedWithoutInvalid

def verifyCommitBatch (crypto : Crypto) (chainID : ChainID) (vals : ValidatorSet)
    (commit : Commit) (votingPowerNeeded : Int) (mode : VerifyMode) :
    Panics (Option VerifyCommitError) := do
  let pubKey ← proposerKey vals
  if !supportsBatchVerifier pubKey || decide (commit.signatures.length < batchVerifyThreshold) then
    return some .unsupportedBatch
  match ← batchLoop crypto chainID vals commit votingPowerNeeded mode pubKey.keyType
      (fun _ => none) ⟨[], 0⟩ commit.signatures.zipIdx with
  | .error error => pure (some error)
  | .ok batch => pure (closeBatch crypto commit votingPowerNeeded batch)

def verifyBasicValsAndCommit (vals : ValidatorSet) (commit : Commit) (height : Int)
    (blockID : BlockID) : Option VerifyCommitError :=
  if vals.size ≠ commit.signatures.length then
    some (.invalidCommitSignatures vals.size commit.signatures.length)
  else if height ≠ commit.height then some (.invalidCommitHeight height commit.height)
  else if !blockID.equals commit.blockID then some (.wrongBlockID blockID commit.blockID)
  else none

/-- Batch verification where the source attempts it, single otherwise. -/
def verifyCommitWith (crypto : Crypto) (chainID : ChainID) (vals : ValidatorSet)
    (commit : Commit) (votingPowerNeeded : Int) (mode : VerifyMode) :
    Panics (Option VerifyCommitError) := do
  if ← shouldBatchVerify vals commit then
    verifyCommitBatch crypto chainID vals commit votingPowerNeeded mode
  else verifyCommitSingle crypto chainID vals commit votingPowerNeeded mode

/-- Absent signatures are ignored, those for the block are counted. -/
def fullMode : VerifyMode := ⟨CommitSig.absent, CommitSig.forBlock, true, true⟩

/-- Signatures not for the block are ignored, all others are counted. -/
def lightMode : VerifyMode := ⟨fun sig => !sig.forBlock, fun _ => true, false, true⟩

def trustingMode : VerifyMode := ⟨fun sig => !sig.forBlock, fun _ => true, false, false⟩

def verifyCommit (crypto : Crypto) (chainID : ChainID) (vals : ValidatorSet) (blockID : BlockID)
    (height : Int) (commit : Commit) : Panics (Option VerifyCommitError) := do
  if let some error := verifyBasicValsAndCommit vals commit height blockID then
    return some error
  let votingPowerNeeded := (int64 ((← vals.totalVotingPower) * 2)).tdiv 3
  verifyCommitWith crypto chainID vals commit votingPowerNeeded fullMode

def verifyCommitLight (crypto : Crypto) (chainID : ChainID) (vals : ValidatorSet)
    (blockID : BlockID) (height : Int) (commit : Commit) :
    Panics (Option VerifyCommitError) := do
  if let some error := verifyBasicValsAndCommit vals commit height blockID then
    return some error
  let votingPowerNeeded := (int64 ((← vals.totalVotingPower) * 2)).tdiv 3
  verifyCommitWith crypto chainID vals commit votingPowerNeeded lightMode

structure Fraction where
  numerator : Nat
  denominator : Nat
  deriving DecidableEq, Repr

def safeMul (a b : Int) : Int × Bool :=
  if a = 0 ∨ b = 0 then (0, false)
  else
    let absOfB := if b < 0 then int64 (-b) else b
    let absOfA := if a < 0 then int64 (-a) else a
    if maxInt64.tdiv absOfB < absOfA then (0, true) else (int64 (a * b), false)

def verifyCommitLightTrusting (crypto : Crypto) (chainID : ChainID) (vals : ValidatorSet)
    (commit : Commit) (trustLevel : Fraction) : Panics (Option VerifyCommitError) := do
  if trustLevel.denominator = 0 then return some .zeroDenominator
  let (multiplied, overflow) := safeMul (← vals.totalVotingPower) (int64 trustLevel.numerator)
  if overflow then return some .overflow
  let votingPowerNeeded := multiplied.tdiv (int64 trustLevel.denominator)
  verifyCommitWith crypto chainID vals commit votingPowerNeeded trustingMode

end Tendermint.Types
