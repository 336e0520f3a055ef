import Tendermint.Types.Block

/-!
types/light.go: signed headers and light blocks. The header, the commit and the
validator set of a light block are never nil here, as `LightBlockFromProto` and
the providers leave them. The encodings are left out.
-/

namespace Tendermint.Types

open Merkle (Hashing)

structure SignedHeader where
  header : Header
  commit : Commit
  deriving DecidableEq, Repr

inductive SignedHeaderError where
  | header (text : String)
  | commit (text : String)
  | chain (given expected : ChainID)
  | height (header commit : Int)
  | hash (commit header : Bytes)
  deriving DecidableEq, Repr

def SignedHeader.validateBasic (hashing : Hashing) (signed : SignedHeader) (chainID : ChainID) :
    Option SignedHeaderError :=
  match signed.header.validateBasic with
  | some text => some (.header text)
  | none =>
    match signed.commit.validateBasic with
    | some text => some (.commit text)
    | none =>
      if signed.header.chainID ≠ chainID then some (.chain signed.header.chainID chainID)
      else if signed.commit.height ≠ signed.header.height then
        some (.height signed.header.height signed.commit.height)
      else if signed.header.hash hashing ≠ signed.commit.blockID.hash then
        some (.hash signed.commit.blockID.hash (signed.header.hash hashing))
      else none

/-- Of a validator there, whose public key is never nil. -/
def ValidatorSet.validateBasic (vals : ValidatorSet) : Option String :=
  if vals.isNilOrEmpty then some "validator set is nil or empty"
  else match vals.validators.zipIdx.findSome? fun (val, index) =>
      val.validateBasic.map (s!"invalid validator #{index}: " ++ ·) with
  | some text => some text
  | none =>
    match vals.proposer with
    | none => some "proposer failed validate basic, error: nil validator"
    | some proposer =>
      proposer.validateBasic.map ("proposer failed validate basic, error: " ++ ·)

structure LightBlock where
  signedHeader : SignedHeader
  validatorSet : ValidatorSet
  deriving DecidableEq, Repr

namespace LightBlock

def header (block : LightBlock) : Header := block.signedHeader.header

def commit (block : LightBlock) : Commit := block.signedHeader.commit

def height (block : LightBlock) : Int := block.header.height

def time (block : LightBlock) : Time := block.header.time

def hash (hashing : Hashing) (block : LightBlock) : Bytes := block.header.hash hashing

inductive Fault where
  | signedHeader (error : SignedHeaderError)
  | validatorSet (text : String)
  | validatorsHash (header validators : Bytes)
  deriving DecidableEq, Repr

def validateBasic (hashing : Hashing) (block : LightBlock) (chainID : ChainID) : Option Fault :=
  match block.signedHeader.validateBasic hashing chainID with
  | some error => some (.signedHeader error)
  | none =>
    match block.validatorSet.validateBasic with
    | some text => some (.validatorSet text)
    | none =>
      if block.header.validatorsHash ≠ block.validatorSet.hash hashing then
        some (.validatorsHash block.header.validatorsHash (block.validatorSet.hash hashing))
      else none

theorem validate_basic_ok {hashing : Hashing} {block : LightBlock} {chainID : ChainID}
    (valid : block.validateBasic hashing chainID = none) :
    0 < block.height ∧ block.validatorSet.validateBasic = none ∧
      block.validatorSet.hash hashing = block.header.validatorsHash := by
  unfold validateBasic at valid
  cases signed : block.signedHeader.validateBasic hashing chainID with
  | some error => simp [signed] at valid
  | none =>
  cases vals : block.validatorSet.validateBasic with
  | some text => simp [signed, vals] at valid
  | none =>
  simp only [signed, vals] at valid
  split_ifs at valid with same
  refine ⟨?_, rfl, (not_not.mp same).symm⟩
  unfold SignedHeader.validateBasic at signed
  cases basic : block.signedHeader.header.validateBasic with
  | none => exact Header.height_pos basic
  | some text => simp [basic] at signed

end LightBlock

end Tendermint.Types
