import Tendermint.Lib.Wire

/-!
Block identifiers, votes and proposals of `types/`. A Go string or byte slice
is its list of bytes, so a nil slice and an empty one are the same value here;
where the source tells them apart the model uses an option. Instants are
nanoseconds since the Unix epoch. The integer fields are unbounded and
`Vote.Typed`, `Proposal.Typed` say what the Go types promise of them. Code that may
fail returns `Except`; what is bound to a result comes first.
-/

namespace Tendermint

section Outcome

variable {ε α β : Type}

@[simp]
theorem ok_bind (value : α) (next : α → Except ε β) : (.ok value >>= next) = next value := rfl

@[simp]
theorem error_bind (error : ε) (next : α → Except ε β) :
    (.error error >>= next) = Except.error error := rfl

@[simp]
theorem pure_eq (value : α) : (pure value : Except ε α) = .ok value := rfl

@[simp]
theorem throw_eq (error : ε) : (throw error : Except ε α) = .error error := rfl

/-- For a result that is not known yet. -/
theorem bind_eq (first : Except ε α) (next : α → Except ε β) :
    first >>= next = match first with
      | .error error => .error error
      | .ok value => next value := by
  cases first <;> rfl

theorem bind_ok {first : Except ε α} {next : α → Except ε β} {result : β} :
    first >>= next = .ok result ↔ ∃ value, first = .ok value ∧ next value = .ok result := by
  cases first <;> simp

end Outcome

end Tendermint

namespace Tendermint.Types

open List
open Wire (Field encodeFields encode_fields_injective)

abbrev Bytes := Wire.Bytes
abbrev Address := Bytes
abbrev ChainID := Bytes
abbrev Time := Int

/-- tmhash.Size -/
def hashSize : Nat := 32

/-- crypto.AddressSize -/
def addressSize : Nat := 20

/-- types.MaxSignatureSize -/
def maxSignatureSize : Nat := 64

/-- The enumeration of the protobuf file. A wire value outside it is no valid
message type for any function below, as `unknown` is not. -/
inductive SignedMsgType where
  | unknown
  | prevote
  | precommit
  | proposal
  deriving DecidableEq, Repr

def SignedMsgType.code : SignedMsgType → Nat
  | .unknown => 0
  | .prevote => 1
  | .precommit => 2
  | .proposal => 32

def SignedMsgType.ofCode : Nat → SignedMsgType
  | 1 => .prevote
  | 2 => .precommit
  | 32 => .proposal
  | _ => .unknown

theorem of_code_code (type : SignedMsgType) : SignedMsgType.ofCode type.code = type := by
  cases type <;> rfl

def isVoteTypeValid : SignedMsgType → Bool
  | .prevote | .precommit => true
  | _ => false

inductive KeyType where
  | ed25519
  | sr25519
  | secp256k1
  deriving DecidableEq, Repr

structure PubKey where
  keyType : KeyType
  bytes : Bytes
  deriving DecidableEq, Repr

structure BatchEntry where
  pubKey : PubKey
  message : Bytes
  signature : Bytes
  deriving DecidableEq, Repr

/-- The cryptography the code calls: `PubKey.VerifySignature`, `PubKey.Address`,
the size and decoding checks of `BatchVerifier.Add`, and
`BatchVerifier.Verify`. -/
structure Crypto where
  verifySignature : PubKey → Bytes → Bytes → Bool
  address : PubKey → Address
  batchMalformed : PubKey → Bytes → Option String
  batchVerify : List BatchEntry → Bool × List Bool

/-- Cryptography that accepts every signature; the address of a key is its bytes. -/
def Crypto.acceptAll : Crypto where
  verifySignature _ _ _ := true
  address pubKey := pubKey.bytes
  batchMalformed _ _ := none
  batchVerify entries := (true, entries.map fun _ => true)

def validateHash (hash : Bytes) : Option String :=
  if 0 < hash.length ∧ hash.length ≠ hashSize then
    some s!"expected size to be {hashSize} bytes, got {hash.length} bytes"
  else none

structure PartSetHeader where
  total : Nat
  hash : Bytes
  deriving DecidableEq, Repr

namespace PartSetHeader

def zero : PartSetHeader := ⟨0, []⟩

def isZero (header : PartSetHeader) : Bool :=
  header.total == 0 && header.hash.length == 0

def equals (header other : PartSetHeader) : Bool :=
  header.total == other.total && header.hash == other.hash

def validateBasic (header : PartSetHeader) : Option String :=
  (validateHash header.hash).map ("wrong Hash: " ++ ·)

def fields (header : PartSetHeader) : List Field :=
  (if header.total = 0 then [] else [⟨1, .varint header.total⟩]) ++
  (if header.hash.length = 0 then [] else [⟨2, .bytes header.hash⟩])

def marshal (header : PartSetHeader) : Bytes := encodeFields header.fields

def Typed (header : PartSetHeader) : Prop :=
  header.total < 2 ^ 32 ∧ header.hash.length < 2 ^ 32

theorem equals_iff (header other : PartSetHeader) :
    header.equals other = true ↔ header = other := by
  cases header
  cases other
  simp [equals]

theorem is_zero_iff (header : PartSetHeader) : header.isZero = true ↔ header = zero := by
  cases header
  simp [isZero, zero]

theorem fields_fit (header : PartSetHeader) (typed : header.Typed) :
    ∀ field ∈ header.fields, field.Fits := by
  intro field member
  obtain ⟨total, hash⟩ := typed
  simp only [fields, mem_append] at member
  rcases member with first | second
  · rw [Wire.eq_of_mem_optional first]
    exact Wire.fits_varint 1 _ (by decide) (by omega)
  · rw [Wire.eq_of_mem_optional second]
    exact Wire.fits_bytes 2 _ (by decide) (by omega)

theorem fields_injective {header other : PartSetHeader}
    (same : header.fields = other.fields) : header = other := by
  obtain ⟨total, hash⟩ := header
  obtain ⟨otherTotal, otherHash⟩ := other
  simp only [fields] at same
  by_cases noTotal : total = 0 <;> by_cases noHash : hash.length = 0 <;>
    by_cases noOtherTotal : otherTotal = 0 <;> by_cases noOtherHash : otherHash.length = 0 <;>
    simp_all

theorem marshal_injective (header other : PartSetHeader) (typed : header.Typed)
    (otherTyped : other.Typed) (same : header.marshal = other.marshal) : header = other :=
  fields_injective
    (encode_fields_injective (fields_fit header typed) (fields_fit other otherTyped) same)

end PartSetHeader

structure BlockID where
  hash : Bytes
  partSetHeader : PartSetHeader
  deriving DecidableEq, Repr

namespace BlockID

def zero : BlockID := ⟨[], PartSetHeader.zero⟩

def equals (blockID other : BlockID) : Bool :=
  blockID.hash == other.hash && blockID.partSetHeader.equals other.partSetHeader

/-- `fmt.Sprint` puts no blank between two strings. -/
def key (blockID : BlockID) : Bytes := blockID.hash ++ blockID.partSetHeader.marshal

def validateBasic (blockID : BlockID) : Option String :=
  match validateHash blockID.hash with
  | some error => some ("wrong Hash: " ++ error)
  | none => blockID.partSetHeader.validateBasic.map ("wrong PartSetHeader: " ++ ·)

def isZero (blockID : BlockID) : Bool :=
  blockID.hash.length == 0 && blockID.partSetHeader.isZero

def isComplete (blockID : BlockID) : Bool :=
  blockID.hash.length == hashSize && decide (0 < blockID.partSetHeader.total) &&
    blockID.partSetHeader.hash.length == hashSize

/-- What `Vote.ValidateBasic` asks of a block ID beyond its own check. -/
def votable (blockID : BlockID) : Bool := blockID.isZero || blockID.isComplete

def Typed (blockID : BlockID) : Prop :=
  blockID.hash.length < 2 ^ 32 ∧ blockID.partSetHeader.Typed

theorem equals_iff (blockID other : BlockID) :
    blockID.equals other = true ↔ blockID = other := by
  cases blockID
  cases other
  simp [equals, PartSetHeader.equals_iff]

theorem is_zero_iff (blockID : BlockID) : blockID.isZero = true ↔ blockID = zero := by
  cases blockID
  simp [isZero, zero, PartSetHeader.is_zero_iff]

theorem is_complete_iff (blockID : BlockID) :
    blockID.isComplete = true ↔ blockID.hash.length = 32 ∧
      0 < blockID.partSetHeader.total ∧ blockID.partSetHeader.hash.length = 32 := by
  simp [isComplete, hashSize, and_assoc]

theorem zero_key : zero.key = [] := rfl

/-- Among block IDs a vote may carry, the hash can be read off the key: the key
of the zero block ID is empty, that of a complete one starts with 32 bytes of
hash. Nothing is asked of the part-set header. -/
theorem hash_of_key {blockID other : BlockID} (votable : blockID.votable = true)
    (otherVotable : other.votable = true) (same : blockID.key = other.key) :
    blockID.hash = other.hash := by
  simp only [BlockID.votable, Bool.or_eq_true] at votable otherVotable
  rcases votable with isZero | complete <;> rcases otherVotable with otherZero | otherComplete
  · rw [(is_zero_iff _).mp isZero, (is_zero_iff _).mp otherZero]
  · have size := ((is_complete_iff other).mp otherComplete).1
    rw [(is_zero_iff _).mp isZero, zero_key] at same
    have empty := (append_eq_nil_iff.mp same.symm).1
    simp [empty] at size
  · have size := ((is_complete_iff blockID).mp complete).1
    rw [(is_zero_iff _).mp otherZero, zero_key] at same
    have empty := (append_eq_nil_iff.mp same).1
    simp [empty] at size
  · have left := ((is_complete_iff blockID).mp complete).1
    have right := ((is_complete_iff other).mp otherComplete).1
    exact (append_inj same (left.trans right.symm)).1

theorem key_injective {blockID other : BlockID} (votable : blockID.votable = true)
    (otherVotable : other.votable = true) (typed : blockID.partSetHeader.Typed)
    (otherTyped : other.partSetHeader.Typed) (same : blockID.key = other.key) :
    blockID = other := by
  have hashes := hash_of_key votable otherVotable same
  have parts : blockID.partSetHeader.marshal = other.partSetHeader.marshal := by
    unfold key at same
    rw [hashes] at same
    exact append_cancel_left same
  have headers := PartSetHeader.marshal_injective _ _ typed otherTyped parts
  cases blockID
  cases other
  simp_all

end BlockID

structure Vote where
  type : SignedMsgType
  height : Int
  round : Int
  blockID : BlockID
  timestamp : Time
  validatorAddress : Address
  validatorIndex : Int
  signature : Bytes
  deriving DecidableEq, Repr

def InInt64 (value : Int) : Prop := -2 ^ 63 ≤ value ∧ value < 2 ^ 63

def InInt32 (value : Int) : Prop := -2 ^ 31 ≤ value ∧ value < 2 ^ 31

theorem InInt32.toInt64 {value : Int} (bounds : InInt32 value) : InInt64 value := by
  unfold InInt32 at bounds
  unfold InInt64
  omega

structure Vote.Typed (vote : Vote) : Prop where
  height : InInt64 vote.height
  round : InInt32 vote.round
  blockID : vote.blockID.Typed

def Vote.validateBasic (vote : Vote) : Option String :=
  if ¬ isVoteTypeValid vote.type then some "invalid Type"
  else if vote.height < 0 then some "negative Height"
  else if vote.round < 0 then some "negative Round"
  else match vote.blockID.validateBasic with
  | some error => some ("wrong BlockID: " ++ error)
  | none =>
    if ¬ vote.blockID.isZero ∧ ¬ vote.blockID.isComplete then
      some "blockID must be either empty or complete"
    else if vote.validatorAddress.length ≠ addressSize then
      some (s!"expected ValidatorAddress size to be {addressSize} bytes, " ++
        s!"got {vote.validatorAddress.length} bytes")
    else if vote.validatorIndex < 0 then some "negative ValidatorIndex"
    else if vote.signature.length = 0 then some "signature is missing"
    else if maxSignatureSize < vote.signature.length then
      some s!"signature is too big (max: {maxSignatureSize})"
    else none

theorem Vote.validate_basic_ok (vote : Vote) (valid : vote.validateBasic = none) :
    isVoteTypeValid vote.type = true ∧ 0 ≤ vote.round ∧ vote.blockID.votable = true := by
  unfold Vote.validateBasic at valid
  split at valid
  · cases valid
  split at valid
  · cases valid
  split at valid
  · cases valid
  split at valid
  · cases valid
  split at valid
  · cases valid
  rename_i kind _ round _ _ votable
  refine ⟨by simpa using kind, by omega, ?_⟩
  rw [BlockID.votable, Bool.or_eq_true]
  by_cases isZero : vote.blockID.isZero = true
  · exact Or.inl isZero
  · exact Or.inr (by simpa [isZero] using votable)

structure Proposal where
  type : SignedMsgType
  height : Int
  round : Int
  polRound : Int
  blockID : BlockID
  timestamp : Time
  signature : Bytes
  deriving DecidableEq, Repr

structure Proposal.Typed (proposal : Proposal) : Prop where
  height : InInt64 proposal.height
  round : InInt32 proposal.round
  polRound : InInt32 proposal.polRound
  blockID : proposal.blockID.Typed

end Tendermint.Types
