import Tendermint.Crypto.Merkle
import Tendermint.Types.Validation

/-!
types/block.go: blocks with their header hash. A block here has its header
filled, as `MakeBlock` leaves it and as `BlockFromProto` requires it, and its
LastCommit is not nil. The transactions and the evidence are kept in their
encoded form. The string forms are left out.
-/

namespace Tendermint.Types

open Merkle (Hashing)
open Wire

/-- version.BlockProtocol -/
def blockProtocol : Nat := 11

/-- version.Consensus -/
structure ConsensusVersion where
  block : Nat
  app : Nat
  deriving DecidableEq, Repr

structure Header where
  version : ConsensusVersion
  chainID : ChainID
  height : Int
  time : Time
  lastBlockID : BlockID
  lastCommitHash : Bytes
  dataHash : Bytes
  validatorsHash : Bytes
  nextValidatorsHash : Bytes
  consensusHash : Bytes
  appHash : Bytes
  lastResultsHash : Bytes
  evidenceHash : Bytes
  proposerAddress : Address
  deriving DecidableEq, Repr

structure Block where
  header : Header
  txs : List Bytes
  evidence : List Bytes
  lastCommit : Commit
  deriving DecidableEq, Repr

def uintField (number value : Nat) : List Field :=
  if value = 0 then [] else [⟨number, .varint value⟩]

def int64Field (number : Nat) (value : Int) : List Field :=
  if value = 0 then [] else [⟨number, .varint (toWord value)⟩]

def ConsensusVersion.marshal (version : ConsensusVersion) : Bytes :=
  encodeFields (uintField 1 version.block ++ uintField 2 version.app)

def cdcEncode (item : Bytes) : Bytes :=
  if item = [] then [] else encodeFields [⟨1, .bytes item⟩]

def cdcEncodeInt64 (item : Int) : Bytes :=
  if item = 0 then [] else encodeFields [⟨1, .varint (toWord item)⟩]

/-- The nil hash of a header without validators, or without a valid time, is empty. -/
def Header.hash (hashing : Hashing) (header : Header) : Bytes :=
  if header.validatorsHash.length = 0 then []
  else match stdTimeMarshal header.time with
  | none => []
  | some time => Merkle.hashFromByteSlices hashing [
      header.version.marshal,
      cdcEncode header.chainID,
      cdcEncodeInt64 header.height,
      time,
      encodeFields (blockIDFields header.lastBlockID),
      cdcEncode header.lastCommitHash,
      cdcEncode header.dataHash,
      cdcEncode header.validatorsHash,
      cdcEncode header.nextValidatorsHash,
      cdcEncode header.consensusHash,
      cdcEncode header.appHash,
      cdcEncode header.lastResultsHash,
      cdcEncode header.evidenceHash,
      cdcEncode header.proposerAddress]

def Block.hash (hashing : Hashing) (block : Block) : Bytes := block.header.hash hashing

/-- types.MaxChainIDLen -/
def maxChainIDLen : Nat := 50

def wrongHash (field : String) (hash : Bytes) : Option String :=
  (validateHash hash).map (s!"wrong {field}: " ++ ·)

/-- The first check that fails gives the error. -/
def Header.validateBasic (header : Header) : Option String :=
  [if header.version.block ≠ blockProtocol then
      some s!"block protocol is incorrect: got: {header.version.block}, want: {blockProtocol} "
    else none,
    if maxChainIDLen < header.chainID.length then
      some s!"chainID is too long; got: {header.chainID.length}, max: {maxChainIDLen}"
    else none,
    if header.height < 0 then some "negative Height"
    else if header.height = 0 then some "zero Height"
    else none,
    header.lastBlockID.validateBasic.map ("wrong LastBlockID: " ++ ·),
    wrongHash "LastCommitHash" header.lastCommitHash,
    wrongHash "DataHash" header.dataHash,
    wrongHash "EvidenceHash" header.evidenceHash,
    if header.proposerAddress.length ≠ addressSize then
      some (s!"invalid ProposerAddress length; got: {header.proposerAddress.length}, " ++
        s!"expected: {addressSize}")
    else none,
    wrongHash "ValidatorsHash" header.validatorsHash,
    wrongHash "NextValidatorsHash" header.nextValidatorsHash,
    wrongHash "ConsensusHash" header.consensusHash,
    wrongHash "LastResultsHash" header.lastResultsHash].findSome? id

theorem Header.height_pos {header : Header} (valid : header.validateBasic = none) :
    0 < header.height := by
  rw [Header.validateBasic, List.findSome?_eq_none_iff] at valid
  have checked := valid (if header.height < 0 then some "negative Height"
    else if header.height = 0 then some "zero Height" else none) (by simp)
  by_contra low
  split_ifs at checked
  · cases checked
  · cases checked
  · omega

theorem Header.chain_id_short {header : Header} (valid : header.validateBasic = none) :
    header.chainID.length ≤ maxChainIDLen := by
  rw [Header.validateBasic, List.findSome?_eq_none_iff] at valid
  have checked := valid (if maxChainIDLen < header.chainID.length then
    some s!"chainID is too long; got: {header.chainID.length}, max: {maxChainIDLen}" else none)
    (by simp)
  by_contra long
  rw [if_pos (by omega)] at checked
  cases checked

def CommitSig.validateBasic (sig : CommitSig) : Option String :=
  match sig.blockIDFlag with
  | .unknown => some "unknown BlockIDFlag"
  | .absent =>
    if sig.validatorAddress.length ≠ 0 then some "validator address is present"
    else if sig.timestamp ≠ zeroTime then some "time is present"
    else if sig.signature.length ≠ 0 then some "signature is present"
    else none
  | _ =>
    if sig.validatorAddress.length ≠ addressSize then
      some (s!"expected ValidatorAddress size to be {addressSize} bytes, " ++
        s!"got {sig.validatorAddress.length} bytes")
    else if sig.signature.length = 0 then some "signature is missing"
    else if maxSignatureSize < sig.signature.length then
      some s!"signature is too big (max: {maxSignatureSize})"
    else none

def Commit.validateBasic (commit : Commit) : Option String :=
  if commit.height < 0 then some "negative Height"
  else if commit.round < 0 then some "negative Round"
  else if 1 ≤ commit.height then
    if commit.blockID.isZero then some "commit cannot be for nil block"
    else if commit.signatures.length = 0 then some "no signatures in commit"
    else commit.signatures.zipIdx.findSome? fun (sig, index) =>
      sig.validateBasic.map (s!"wrong CommitSig #{index}: " ++ ·)
  else none

def bytesField (number : Nat) (payload : Bytes) : List Field :=
  if payload = [] then [] else [⟨number, .bytes payload⟩]

def BlockIDFlag.code : BlockIDFlag → Nat
  | .unknown => 0
  | .absent => 1
  | .commit => 2
  | .nil => 3

def CommitSig.fields (sig : CommitSig) (timestamp : Bytes) : List Field :=
  uintField 1 sig.blockIDFlag.code ++ bytesField 2 sig.validatorAddress ++
    [⟨3, .bytes timestamp⟩] ++ bytesField 4 sig.signature

def CommitSig.marshal (sig : CommitSig) : Panics Bytes :=
  match stdTimeMarshal sig.timestamp with
  | some timestamp => .ok (encodeFields (sig.fields timestamp))
  | none => .error "timestamp out of range"

/-- The height, the round and the block ID of a commit are not hashed. -/
def Commit.hash (hashing : Hashing) (commit : Commit) : Panics Bytes := do
  let items ← commit.signatures.mapM CommitSig.marshal
  pure (Merkle.hashFromByteSlices hashing items)

/-- `Txs.Hash`: the leaves are the hashes of the transactions. -/
def txsHash (hashing : Hashing) (txs : List Bytes) : Bytes :=
  Merkle.hashFromByteSlices hashing (txs.map hashing.sum)

def evidenceHash (hashing : Hashing) (evidence : List Bytes) : Bytes :=
  Merkle.hashFromByteSlices hashing evidence

inductive BlockError where
  | header (text : String)
  | lastCommit (text : String)
  | lastCommitHash (expected got : Bytes)
  | dataHash (expected got : Bytes)
  | evidence (index : Nat) (text : String)
  | evidenceHash (expected got : Bytes)
  deriving DecidableEq, Repr

/-- `evidenceBasic` is `ValidateBasic` of the encoded evidence. -/
def Block.validateBasic (hashing : Hashing) (evidenceBasic : Bytes → Option String)
    (block : Block) : Panics (Option BlockError) := do
  if let some text := block.header.validateBasic then return some (.header text)
  if let some text := block.lastCommit.validateBasic then return some (.lastCommit text)
  let lastCommitHash ← block.lastCommit.hash hashing
  if lastCommitHash ≠ block.header.lastCommitHash then
    return some (.lastCommitHash lastCommitHash block.header.lastCommitHash)
  if txsHash hashing block.txs ≠ block.header.dataHash then
    return some (.dataHash (txsHash hashing block.txs) block.header.dataHash)
  if let some error := block.evidence.zipIdx.findSome? fun (evidence, index) =>
      (evidenceBasic evidence).map (BlockError.evidence index ·) then
    return some error
  if evidenceHash hashing block.evidence ≠ block.header.evidenceHash then
    return some (.evidenceHash (evidenceHash hashing block.evidence) block.header.evidenceHash)
  pure none

/-- encoding.PubKeyToProto -/
def PubKey.marshal (pubKey : PubKey) : Bytes :=
  let number := match pubKey.keyType with
    | .ed25519 => 1
    | .secp256k1 => 2
    | .sr25519 => 3
  encodeFields [⟨number, .bytes pubKey.bytes⟩]

/-- `Validator.Bytes`, the encoded SimpleValidator. -/
def Validator.simpleBytes (val : Validator) : Bytes :=
  encodeFields ([⟨1, .bytes val.pubKey.marshal⟩] ++
    if val.votingPower = 0 then [] else [⟨2, .varint (toWord val.votingPower)⟩])

def ValidatorSet.hash (hashing : Hashing) (vals : ValidatorSet) : Bytes :=
  Merkle.hashFromByteSlices hashing (vals.validators.map Validator.simpleBytes)

end Tendermint.Types
