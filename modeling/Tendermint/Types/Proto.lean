import Tendermint.Types.BlockContent
import Tendermint.Types.Light
import Tendermint.Types.PartSet

/-!
The protobuf encodings of votes, commits, headers, blocks and light blocks, and
the meta data of blocks. Instants are in the range of protobuf, as those of decoded
messages and of blocks are. Evidence stands in a block as it is encoded.
-/

namespace Tendermint.Types

open Wire (Field encodeFields)

def stdTime (time : Time) : Bytes := (stdTimeMarshal time).getD []

def blockIDMessage (number : Nat) (blockID : BlockID) : List Field :=
  [⟨number, .bytes (encodeFields (blockIDFields blockID))⟩]

def Vote.marshal (vote : Vote) : Bytes :=
  encodeFields (uintField 1 vote.type.code ++ int64Field 2 vote.height ++ int64Field 3 vote.round ++
    blockIDMessage 4 vote.blockID ++ [⟨5, .bytes (stdTime vote.timestamp)⟩] ++
    bytesField 6 vote.validatorAddress ++ int64Field 7 vote.validatorIndex ++
    bytesField 8 vote.signature)

def Commit.marshal (commit : Commit) : Bytes :=
  encodeFields (int64Field 1 commit.height ++ int64Field 2 commit.round ++
    blockIDMessage 3 commit.blockID ++ commit.signatures.map fun sig => ⟨4, .bytes sig.encoding⟩)

def Header.marshal (header : Header) : Bytes :=
  encodeFields ([⟨1, .bytes header.version.marshal⟩] ++ bytesField 2 header.chainID ++
    int64Field 3 header.height ++ [⟨4, .bytes (stdTime header.time)⟩] ++
    blockIDMessage 5 header.lastBlockID ++ bytesField 6 header.lastCommitHash ++
    bytesField 7 header.dataHash ++ bytesField 8 header.validatorsHash ++
    bytesField 9 header.nextValidatorsHash ++ bytesField 10 header.consensusHash ++
    bytesField 11 header.appHash ++ bytesField 12 header.lastResultsHash ++
    bytesField 13 header.evidenceHash ++ bytesField 14 header.proposerAddress)

def SignedHeader.marshal (signed : SignedHeader) : Bytes :=
  encodeFields [⟨1, .bytes signed.header.marshal⟩, ⟨2, .bytes signed.commit.marshal⟩]

def Validator.marshal (val : Validator) : Bytes :=
  encodeFields (bytesField 1 val.address ++ [⟨2, .bytes val.pubKey.marshal⟩] ++
    int64Field 3 val.votingPower ++ int64Field 4 val.proposerPriority)

/-- The total power is left at zero. A set has a proposer. -/
def ValidatorSet.marshal (vals : ValidatorSet) : Bytes :=
  encodeFields ((vals.validators.map fun val => ⟨1, .bytes val.marshal⟩) ++
    vals.proposer.toList.map fun proposer => ⟨2, .bytes proposer.marshal⟩)

def LightBlock.marshal (block : LightBlock) : Bytes :=
  encodeFields [⟨1, .bytes block.signedHeader.marshal⟩, ⟨2, .bytes block.validatorSet.marshal⟩]

def itemList (items : List Bytes) : Bytes := encodeFields (items.map fun item => ⟨1, .bytes item⟩)

def Block.marshal (block : Block) : Bytes :=
  encodeFields [⟨1, .bytes block.header.marshal⟩, ⟨2, .bytes (itemList block.txs)⟩,
    ⟨3, .bytes (itemList block.evidence)⟩, ⟨4, .bytes block.lastCommit.marshal⟩]

def Commit.decodeFault (commit : Commit) : Option String :=
  match commit.blockID.validateBasic with
  | some text => some text
  | none =>
    match commit.signatures.findSome? CommitSig.validateBasic with
    | some text => some text
    | none => commit.validateBasic

/-- types/block_meta.go -/
structure BlockMeta where
  blockID : BlockID
  blockSize : Int
  header : Header
  numTxs : Int
  deriving DecidableEq, Repr

namespace BlockMeta

/-- NewBlockMeta -/
def new (hashing : Merkle.Hashing) (block : Block) (blockParts : PartSet) : BlockMeta :=
  ⟨⟨block.hash hashing, blockParts.header⟩, block.marshal.length, block.header, block.txs.length⟩

end BlockMeta

end Tendermint.Types
