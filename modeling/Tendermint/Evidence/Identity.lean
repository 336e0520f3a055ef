import Tendermint.Evidence.Verify

/-!
What the hash of a piece of evidence identifies; pending and committed evidence is
kept under it. The hash of a duplicate vote covers the whole encoding of both
votes, so it depends on every field that neither a signature nor a check pins.
The hash of an attack on a light client covers the start of the hash of the
conflicting block and the common height.
-/

namespace Tendermint.Types

open List
open Merkle (Hashing)
open Wire (Field encodeFields toWord)

theorem int64_field_small (number : Nat) (value : Int) (valid : 0 < number ∧ number < 2 ^ 29) :
    ∀ field ∈ int64Field number value, Small field :=
  varint_field_small number value valid

theorem int64_field_injective {number : Nat} {value other : Int} (bounds : InInt64 value)
    (otherBounds : InInt64 other) (same : int64Field number value = int64Field number other) :
    value = other := by
  have words : toWord value = toWord other := by
    unfold int64Field at same
    by_cases zero : value = 0 <;> by_cases otherZero : other = 0 <;> simp_all
  have back := congrArg Wire.ofWord words
  rwa [Wire.of_word_to_word bounds.1 bounds.2,
    Wire.of_word_to_word otherBounds.1 otherBounds.2] at back

namespace Vote

def signedFields (vote : Vote) : List Field :=
  uintField 1 vote.type.code ++ int64Field 2 vote.height ++ int64Field 3 vote.round ++
    blockIDMessage 4 vote.blockID ++ [⟨5, .bytes (stdTime vote.timestamp)⟩]

def fields (vote : Vote) : List Field :=
  vote.signedFields ++ bytesField 6 vote.validatorAddress ++ int64Field 7 vote.validatorIndex ++
    bytesField 8 vote.signature

theorem marshal_eq (vote : Vote) : vote.marshal = encodeFields vote.fields := rfl

theorem validate_basic_sizes (vote : Vote) (valid : vote.validateBasic = none) :
    vote.validatorAddress.length = addressSize ∧ 0 ≤ vote.validatorIndex ∧
      vote.signature.length ≤ maxSignatureSize := by
  unfold Vote.validateBasic at valid
  repeat' split at valid
  case h_2.isFalse.isFalse.isFalse.isFalse.isFalse => exact ⟨by omega, by omega, by omega⟩
  all_goals cases valid

theorem std_time_length (time : Time) : (stdTime time).length ≤ payloadBound := by
  unfold stdTime
  cases encoded : stdTimeMarshal time with
  | none => exact Nat.zero_le _
  | some bytes => exact timestamp_length encoded

theorem bytes_field_bounded (number : Nat) (payload : Bytes) (valid : 0 < number ∧ number < 2 ^ 29)
    (bounded : payload.length ≤ payloadBound) :
    ∀ field ∈ bytesField number payload, Small field := by
  intro field member
  unfold bytesField at member
  split at member
  · cases member
  · cases mem_singleton.mp member
    exact bytes_field_small number payload valid bounded

theorem fields_small (vote : Vote) (typed : vote.Typed) (valid : vote.validateBasic = none) :
    ∀ field ∈ vote.fields, Small field := by
  have sizes := vote.validate_basic_sizes valid
  intro field member
  simp only [fields, signedFields, mem_append] at member
  rcases member with
    (((((((kind | height) | round) | block) | time) | address) | index) | signature)
  · exact code_field_small field kind
  · exact int64_field_small 2 vote.height (by decide) field height
  · exact int64_field_small 3 vote.round (by decide) field round
  · cases mem_singleton.mp block
    exact bytes_field_small 4 _ (by decide) (block_id_length typed.blockID)
  · cases mem_singleton.mp time
    exact bytes_field_small 5 _ (by decide) (std_time_length vote.timestamp)
  · refine bytes_field_bounded 6 vote.validatorAddress (by decide) ?_ field address
    rw [sizes.1]
    decide
  · exact int64_field_small 7 vote.validatorIndex (by decide) field index
  · refine bytes_field_bounded 8 vote.signature (by decide) ?_ field signature
    exact Nat.le_trans sizes.2.2 (by decide)

theorem fields_few (vote : Vote) : vote.fields.length ≤ 8 := by
  have optional : ∀ (absent : Prop) [Decidable absent] (field : Field),
      (if absent then [] else [field]).length ≤ 1 := by
    intro absent _ field
    split <;> simp
  have kind := optional (vote.type.code = 0) ⟨1, .varint vote.type.code⟩
  have height := optional (vote.height = 0) ⟨2, .varint (toWord vote.height)⟩
  have round := optional (vote.round = 0) ⟨3, .varint (toWord vote.round)⟩
  have address := optional (vote.validatorAddress = []) ⟨6, .bytes vote.validatorAddress⟩
  have index := optional (vote.validatorIndex = 0) ⟨7, .varint (toWord vote.validatorIndex)⟩
  have signature := optional (vote.signature = []) ⟨8, .bytes vote.signature⟩
  simp only [fields, signedFields, length_append, uintField, int64Field, bytesField,
    blockIDMessage, length_singleton]
  omega

theorem marshal_length (vote : Vote) (typed : vote.Typed) (valid : vote.validateBasic = none) :
    vote.marshal.length < 2 ^ 64 := by
  have size := Wire.encode_fields_length_le vote.fields payloadBound
    (fun field member => (vote.fields_small typed valid field member).2)
  have scaled := Nat.mul_le_mul_right (20 + payloadBound) vote.fields_few
  rw [marshal_eq]
  unfold payloadBound at size scaled
  omega

/-- Two votes with the same signed fields and the same signature have one encoding
exactly if they name the same validator at the same index. -/
theorem marshal_eq_iff {vote other : Vote} (typed : vote.Typed) (otherTyped : other.Typed)
    (valid : vote.validateBasic = none) (otherValid : other.validateBasic = none)
    (index : InInt64 vote.validatorIndex) (otherIndex : InInt64 other.validatorIndex)
    (signed : vote.signedFields = other.signedFields)
    (signature : vote.signature = other.signature) :
    vote.marshal = other.marshal ↔ vote.validatorAddress = other.validatorAddress ∧
      vote.validatorIndex = other.validatorIndex := by
  constructor
  · intro same
    have lists := Wire.encode_fields_injective
      (fun field member => (vote.fields_small typed valid field member).1)
      (fun field member => (other.fields_small otherTyped otherValid field member).1) same
    have sizes := vote.validate_basic_sizes valid
    have otherSizes := other.validate_basic_sizes otherValid
    have named : vote.validatorAddress ≠ [] := by
      intro empty
      rw [empty] at sizes
      exact absurd sizes.1 (by decide)
    have otherNamed : other.validatorAddress ≠ [] := by
      intro empty
      rw [empty] at otherSizes
      exact absurd otherSizes.1 (by decide)
    simp only [fields, signed, signature, append_assoc, append_cancel_left_eq, bytesField,
      named, otherNamed, if_false, cons_append, nil_append, List.cons.injEq,
      Field.mk.injEq, Wire.Value.bytes.injEq, true_and, append_cancel_right_eq] at lists
    exact ⟨lists.1, int64_field_injective index otherIndex lists.2⟩
  · rintro ⟨address, position⟩
    rw [marshal_eq, marshal_eq, fields, fields, signed, signature, address, position]

end Vote

namespace DuplicateVoteEvidence

/-- The checks of the evidence at a node with the given validator set of its height
and the given time of the block at that height. -/
structure Passes (crypto : Crypto) (chainID : ChainID) (valSet : ValidatorSet)
    (evidenceTime : Time) (evidence : DuplicateVoteEvidence) : Prop where
  basic : evidence.validateBasic = none
  verified : EvPool.verifyDuplicateVote crypto evidence chainID valSet = .ok none
  abci : ∃ index val,
    valSet.getByAddress evidence.voteA.validatorAddress = some (index, val) ∧
      evidence.validateABCI val valSet evidenceTime = .ok none

structure Typed (evidence : DuplicateVoteEvidence) : Prop where
  voteA : evidence.voteA.Typed
  voteB : evidence.voteB.Typed
  indexA : InInt32 evidence.voteA.validatorIndex
  indexB : InInt32 evidence.voteB.validatorIndex

theorem validate_basic_votes (evidence : DuplicateVoteEvidence)
    (valid : evidence.validateBasic = none) :
    evidence.voteA.validateBasic = none ∧ evidence.voteB.validateBasic = none := by
  unfold validateBasic at valid
  cases first : evidence.voteA.validateBasic with
  | some text => simp [first] at valid
  | none =>
    cases second : evidence.voteB.validateBasic with
    | some text => simp [first, second] at valid
    | none => exact ⟨rfl, rfl⟩

theorem verified_pins {crypto : Crypto} {chainID : ChainID} {valSet : ValidatorSet}
    {evidence : DuplicateVoteEvidence}
    (verified : EvPool.verifyDuplicateVote crypto evidence chainID valSet = .ok none) :
    evidence.voteB.validatorAddress = evidence.voteA.validatorAddress ∧
      (∃ bytes, voteSignBytes chainID evidence.voteA = .ok bytes) ∧
      ∃ bytes, voteSignBytes chainID evidence.voteB = .ok bytes := by
  unfold EvPool.verifyDuplicateVote at verified
  cases found : valSet.getByAddress evidence.voteA.validatorAddress with
  | none => simp [found] at verified
  | some entry =>
  simp only [found] at verified
  split at verified
  · cases verified
  split at verified
  · cases verified
  case isFalse address =>
  split at verified
  · cases verified
  split at verified
  · cases verified
  cases first : voteSignBytes chainID evidence.voteA with
  | error text => simp [first] at verified
  | ok signBytes =>
  simp only [first, bind_eq] at verified
  split at verified
  · cases verified
  cases second : voteSignBytes chainID evidence.voteB with
  | error text => simp [second] at verified
  | ok otherBytes => exact ⟨(not_not.mp address).symm, ⟨_, rfl⟩, ⟨_, rfl⟩⟩

theorem abci_pins (evidence : DuplicateVoteEvidence) (val : Validator) (valSet : ValidatorSet)
    (evidenceTime : Time) (checked : evidence.validateABCI val valSet evidenceTime = .ok none) :
    evidence.timestamp = evidenceTime ∧ evidence.validatorPower = val.votingPower ∧
      valSet.totalVotingPower = .ok evidence.totalVotingPower := by
  unfold validateABCI at checked
  split at checked
  · cases checked
  case isFalse time =>
  split at checked
  · cases checked
  case isFalse power =>
  cases total : valSet.totalVotingPower with
  | error text => simp [total] at checked
  | ok amount =>
  simp only [total, bind_eq] at checked
  split at checked
  · cases checked
  case isFalse same =>
  exact ⟨not_not.mp time, (not_not.mp power).symm, congrArg _ (not_not.mp same)⟩

theorem votes_of_bytes (evidence other : DuplicateVoteEvidence) (typed : evidence.Typed)
    (otherTyped : other.Typed) (valid : evidence.validateBasic = none)
    (otherValid : other.validateBasic = none) (same : evidence.bytes = other.bytes) :
    evidence.voteA.marshal = other.voteA.marshal ∧
      evidence.voteB.marshal = other.voteB.marshal := by
  have votes := evidence.validate_basic_votes valid
  have otherVotes := other.validate_basic_votes otherValid
  have fit : ∀ given : DuplicateVoteEvidence, given.voteA.marshal.length < 2 ^ 64 →
      given.voteB.marshal.length < 2 ^ 64 →
      ∀ field ∈ [⟨1, .bytes given.voteA.marshal⟩, ⟨2, .bytes given.voteB.marshal⟩] ++
        int64Field 3 given.totalVotingPower ++ int64Field 4 given.validatorPower ++
        [⟨5, .bytes (stdTime given.timestamp)⟩], field.Fits := by
    intro given first second field member
    simp only [mem_append, mem_cons, not_mem_nil, or_false] at member
    rcases member with (((voteA | voteB) | total) | power) | time
    · cases voteA
      exact Wire.fits_bytes 1 _ (by decide) first
    · cases voteB
      exact Wire.fits_bytes 2 _ (by decide) second
    · exact (int64_field_small 3 _ (by decide) field total).1
    · exact (int64_field_small 4 _ (by decide) field power).1
    · cases time
      exact (bytes_field_small 5 _ (by decide) (Vote.std_time_length _)).1
  have lists := Wire.encode_fields_injective
    (fit evidence (Vote.marshal_length _ typed.voteA votes.1)
      (Vote.marshal_length _ typed.voteB votes.2))
    (fit other (Vote.marshal_length _ otherTyped.voteA otherVotes.1)
      (Vote.marshal_length _ otherTyped.voteB otherVotes.2)) same
  simp only [cons_append, List.cons.injEq, Field.mk.injEq, Wire.Value.bytes.injEq,
    true_and] at lists
  exact ⟨lists.1, lists.2.1⟩

theorem signed_fields_eq {chainID : ChainID} {vote other : Vote} (typed : vote.Typed)
    (otherTyped : other.Typed) (bounded : chainID.length < 2 ^ 32)
    (signs : ∃ bytes, voteSignBytes chainID vote = .ok bytes)
    (same : voteSignBytes chainID vote = voteSignBytes chainID other) :
    vote.signedFields = other.signedFields := by
  obtain ⟨bytes, signed⟩ := signs
  obtain ⟨_, kind, height, round, block, time⟩ := vote_sign_bytes_injective typed otherTyped
    bounded bounded signed (same ▸ signed)
  rw [Vote.signedFields, Vote.signedFields, kind, height, round, block, time]

end DuplicateVoteEvidence

/-- Two pieces of evidence that pass the checks of a node, with votes that have the
same sign bytes and signatures, have the same hash exactly if they name the same
validator at the same indexes: the index of a validator in its vote is encoded
but is neither signed nor checked. -/
theorem duplicate_vote_hash_eq_iff (crypto : Crypto) (hashing : Hashing) (chainID : ChainID)
    (valSet : ValidatorSet) (evidenceTime : Time) (evidence other : DuplicateVoteEvidence)
    (bounded : chainID.length < 2 ^ 32) (typed : evidence.Typed) (otherTyped : other.Typed)
    (passes : evidence.Passes crypto chainID valSet evidenceTime)
    (otherPasses : other.Passes crypto chainID valSet evidenceTime)
    (signA : voteSignBytes chainID evidence.voteA = voteSignBytes chainID other.voteA)
    (signB : voteSignBytes chainID evidence.voteB = voteSignBytes chainID other.voteB)
    (signatureA : evidence.voteA.signature = other.voteA.signature)
    (signatureB : evidence.voteB.signature = other.voteB.signature)
    (apart : hashing.sum evidence.bytes = hashing.sum other.bytes → evidence.bytes = other.bytes) :
    evidence.hash hashing = other.hash hashing ↔
      evidence.voteA.validatorAddress = other.voteA.validatorAddress ∧
      evidence.voteA.validatorIndex = other.voteA.validatorIndex ∧
      evidence.voteB.validatorIndex = other.voteB.validatorIndex := by
  have votes := evidence.validate_basic_votes passes.basic
  have otherVotes := other.validate_basic_votes otherPasses.basic
  obtain ⟨addressB, signsA, signsB⟩ :=
    DuplicateVoteEvidence.verified_pins passes.verified
  obtain ⟨otherAddressB, _, _⟩ :=
    DuplicateVoteEvidence.verified_pins otherPasses.verified
  have fieldsA := DuplicateVoteEvidence.signed_fields_eq typed.voteA otherTyped.voteA
    bounded signsA signA
  have fieldsB := DuplicateVoteEvidence.signed_fields_eq typed.voteB otherTyped.voteB
    bounded signsB signB
  have encodedA := Vote.marshal_eq_iff typed.voteA otherTyped.voteA votes.1 otherVotes.1
    typed.indexA.toInt64 otherTyped.indexA.toInt64 fieldsA signatureA
  have encodedB := Vote.marshal_eq_iff typed.voteB otherTyped.voteB votes.2 otherVotes.2
    typed.indexB.toInt64 otherTyped.indexB.toInt64 fieldsB signatureB
  constructor
  · intro same
    obtain ⟨first, second⟩ := evidence.votes_of_bytes other typed otherTyped passes.basic
      otherPasses.basic (apart same)
    exact ⟨(encodedA.mp first).1, (encodedA.mp first).2, (encodedB.mp second).2⟩
  · rintro ⟨address, indexA, indexB⟩
    -- The same validator has one power, and the set and the block fix the rest.
    obtain ⟨_, val, found, abci⟩ := passes.abci
    obtain ⟨_, otherVal, otherFound, otherAbci⟩ := otherPasses.abci
    rw [address, otherFound] at found
    cases found
    obtain ⟨time, power, total⟩ := evidence.abci_pins val valSet evidenceTime abci
    obtain ⟨otherTime, otherPower, otherTotal⟩ :=
      other.abci_pins val valSet evidenceTime otherAbci
    have totals : evidence.totalVotingPower = other.totalVotingPower :=
      Except.ok.inj (total.symm.trans otherTotal)
    have first := encodedA.mpr ⟨address, indexA⟩
    have second := encodedB.mpr ⟨by rw [addressB, otherAddressB, address], indexB⟩
    rw [DuplicateVoteEvidence.hash, DuplicateVoteEvidence.hash, DuplicateVoteEvidence.bytes,
      DuplicateVoteEvidence.bytes, first, second, totals, power, otherPower, time, otherTime]

/-- A validator and its two precommits, where the first names the given index. -/
def loneSet : ValidatorSet :=
  ⟨[⟨List.replicate 20 1, ⟨.ed25519, List.replicate 20 1⟩, 1, 0⟩], none, 1⟩

def loneBlock : BlockID := ⟨List.replicate 32 1, ⟨1, List.replicate 32 2⟩⟩

def loneEvidence (index : Int) : DuplicateVoteEvidence :=
  ⟨⟨.precommit, 1, 0, BlockID.zero, 0, List.replicate 20 1, index, [7]⟩,
    ⟨.precommit, 1, 0, loneBlock, 0, List.replicate 20 1, 0, [7]⟩, 1, 1, 0⟩

def plainHash : Hashing := ⟨fun input => input⟩

theorem lone_evidence_passes (index : Int) (known : index = 0 ∨ index = 1) :
    (loneEvidence index).Passes .acceptAll [] loneSet 0 := by
  rcases known with rfl | rfl
  all_goals exact ⟨by decide, by rfl, ⟨0, _, rfl, rfl⟩⟩

theorem lone_evidence_typed (index : Int) (known : index = 0 ∨ index = 1) :
    (loneEvidence index).Typed := by
  have zero : BlockID.zero.Typed := by
    exact ⟨by decide, by decide, by decide⟩
  have block : loneBlock.Typed := by
    exact ⟨by decide, by decide, by decide⟩
  have one : InInt64 1 := by
    unfold InInt64
    decide
  have none : InInt32 0 := by
    unfold InInt32
    decide
  have inside : InInt32 index := by
    unfold InInt32
    omega
  exact ⟨⟨one, none, zero⟩, ⟨one, none, block⟩, inside, none⟩

theorem lone_hash_eq_iff :
    (loneEvidence 0).hash plainHash = (loneEvidence 1).hash plainHash ↔
      (loneEvidence 0).voteA.validatorAddress = (loneEvidence 1).voteA.validatorAddress ∧
      (loneEvidence 0).voteA.validatorIndex = (loneEvidence 1).voteA.validatorIndex ∧
      (loneEvidence 0).voteB.validatorIndex = (loneEvidence 1).voteB.validatorIndex :=
  duplicate_vote_hash_eq_iff .acceptAll plainHash [] loneSet 0 (loneEvidence 0) (loneEvidence 1)
    (by decide) (lone_evidence_typed 0 (Or.inl rfl)) (lone_evidence_typed 1 (Or.inr rfl))
    (lone_evidence_passes 0 (Or.inl rfl)) (lone_evidence_passes 1 (Or.inr rfl)) rfl rfl rfl rfl id

theorem index_changes_hash :
    (loneEvidence 0).Passes .acceptAll [] loneSet 0 ∧
    (loneEvidence 1).Passes .acceptAll [] loneSet 0 ∧
    voteSignBytes [] (loneEvidence 0).voteA = voteSignBytes [] (loneEvidence 1).voteA ∧
    (loneEvidence 0).voteA.signature = (loneEvidence 1).voteA.signature ∧
    (loneEvidence 0).voteB = (loneEvidence 1).voteB ∧
    (loneEvidence 0).hash plainHash ≠ (loneEvidence 1).hash plainHash :=
  ⟨lone_evidence_passes 0 (Or.inl rfl), lone_evidence_passes 1 (Or.inr rfl), rfl, rfl, rfl,
    by decide +kernel⟩

namespace LightClientAttackEvidence

def preimage (hashing : Hashing) (evidence : LightClientAttackEvidence) : Bytes :=
  let blockHash := (evidence.conflictingBlock.hash hashing).take (hashSize - 1)
  blockHash ++ List.replicate (hashSize - blockHash.length) 0 ++ putVarint evidence.commonHeight

theorem put_varint_injective (height other : Int) (bounds : InInt64 height)
    (otherBounds : InInt64 other) (same : putVarint height = putVarint other) : height = other := by
  have read : ∀ value : Int, InInt64 value →
      Wire.getUvarint (putVarint value) =
        some (if 0 ≤ value then (2 * value).toNat else (-2 * value - 1).toNat, []) := by
    intro value inside
    unfold InInt64 at inside
    have put := Wire.get_put_uvarint
      (if 0 ≤ value then (2 * value).toNat else (-2 * value - 1).toNat) [] (by split <;> omega)
    rwa [append_nil] at put
  have words := (read height bounds).symm.trans ((congrArg _ same).trans (read other otherBounds))
  simp only [Option.some.injEq, Prod.mk.injEq, and_true] at words
  split at words <;> split at words <;> omega

theorem preimage_eq_iff {hashing : Hashing} {evidence other : LightClientAttackEvidence}
    (size : (evidence.conflictingBlock.hash hashing).length = hashSize)
    (otherSize : (other.conflictingBlock.hash hashing).length = hashSize)
    (height : InInt64 evidence.commonHeight) (otherHeight : InInt64 other.commonHeight) :
    evidence.preimage hashing = other.preimage hashing ↔
      (evidence.conflictingBlock.hash hashing).take (hashSize - 1) =
        (other.conflictingBlock.hash hashing).take (hashSize - 1) ∧
      evidence.commonHeight = other.commonHeight := by
  have short : ∀ hash : Bytes, hash.length = hashSize → (hash.take (hashSize - 1)).length = 31 := by
    intro hash sized
    rw [length_take, sized]
    rfl
  unfold preimage
  simp only [short _ size, short _ otherSize, append_assoc]
  constructor
  · intro same
    obtain ⟨hashes, rest⟩ := append_inj same ((short _ size).trans (short _ otherSize).symm)
    exact ⟨hashes, put_varint_injective _ _ height otherHeight (append_cancel_left rest)⟩
  · rintro ⟨hashes, heights⟩
    rw [hashes, heights]

end LightClientAttackEvidence

/-- With conflicting blocks that have a hash and no collision of the two strings
that are hashed, the hash of the evidence identifies the conflicting block and the
common height exactly if the hashes of the two blocks do not differ in the last
byte only, which is not copied. -/
theorem light_attack_hash_identifies_iff (hashing : Hashing)
    (evidence other : LightClientAttackEvidence)
    (size : (evidence.conflictingBlock.hash hashing).length = hashSize)
    (otherSize : (other.conflictingBlock.hash hashing).length = hashSize)
    (height : InInt64 evidence.commonHeight) (otherHeight : InInt64 other.commonHeight)
    (apart : hashing.sum (evidence.preimage hashing) = hashing.sum (other.preimage hashing) →
      evidence.preimage hashing = other.preimage hashing) :
    (evidence.hash hashing = other.hash hashing ↔
        evidence.conflictingBlock.hash hashing = other.conflictingBlock.hash hashing ∧
          evidence.commonHeight = other.commonHeight) ↔
      (evidence.commonHeight = other.commonHeight →
        (evidence.conflictingBlock.hash hashing).take (hashSize - 1) =
          (other.conflictingBlock.hash hashing).take (hashSize - 1) →
        evidence.conflictingBlock.hash hashing = other.conflictingBlock.hash hashing) := by
  have hashed : evidence.hash hashing = other.hash hashing ↔
      evidence.preimage hashing = other.preimage hashing := by
    exact ⟨apart, congrArg _⟩
  rw [hashed, LightClientAttackEvidence.preimage_eq_iff size otherSize height otherHeight]
  constructor
  · intro identifies heights start
    exact (identifies.mp ⟨start, heights⟩).1
  · intro condition
    constructor
    · rintro ⟨start, heights⟩
      exact ⟨condition heights start, heights⟩
    · rintro ⟨blocks, heights⟩
      exact ⟨by rw [blocks], heights⟩

def forkedHeader (appHash : Bytes) : Header :=
  ⟨⟨11, 0⟩, [], 2, 0, BlockID.zero, [], [], [1], [], [], appHash, [], [], []⟩

def forkedEvidence (appHash : Bytes) (commonHeight : Int) : LightClientAttackEvidence :=
  ⟨⟨⟨forkedHeader appHash, ⟨2, 0, BlockID.zero, []⟩⟩, ⟨[], none, 0⟩⟩, commonHeight, none, 1, 0⟩

def taggedHash : Hashing := ⟨fun input => 1 :: input⟩

def nearHash : Hashing where
  sum input :=
    if 1 :: input = (forkedHeader [1]).hash taggedHash then List.replicate 32 0
    else if 1 :: input = (forkedHeader [2]).hash taggedHash then List.replicate 31 0 ++ [1]
    else 1 :: input

theorem near_hash_injective : Function.Injective nearHash.sum := by
  intro input other same
  simp only [nearHash] at same
  -- Outside the two tops the hash starts with 1, at the tops with 0.
  split at same
  case isTrue first =>
    split at same
    · exact (List.cons.inj (first.trans (by assumption : _ = _).symm)).2
    · split at same <;> simp [replicate_succ] at same
  case isFalse =>
    split at same
    case isTrue second =>
      split at same
      · simp [replicate_succ] at same
      · split at same
        · exact (List.cons.inj (second.trans (by assumption : _ = _).symm)).2
        · simp [replicate_succ] at same
    case isFalse =>
      split at same
      · simp [replicate_succ] at same
      · split at same
        · simp [replicate_succ] at same
        · exact (List.cons.inj same).2

theorem near_heights_identified :
    (forkedEvidence [1] 1).hash nearHash = (forkedEvidence [2] 2).hash nearHash ↔
      (forkedEvidence [1] 1).conflictingBlock.hash nearHash =
        (forkedEvidence [2] 2).conflictingBlock.hash nearHash ∧
      (forkedEvidence [1] 1).commonHeight = (forkedEvidence [2] 2).commonHeight :=
  (light_attack_hash_identifies_iff nearHash (forkedEvidence [1] 1) (forkedEvidence [2] 2)
    (by decide +kernel) (by decide +kernel) (by unfold InInt64; decide) (by unfold InInt64; decide)
    (fun same => near_hash_injective same)).mpr fun heights => absurd heights (by decide)

theorem last_byte_not_identified :
    Function.Injective nearHash.sum ∧
    ((forkedEvidence [1] 1).conflictingBlock.hash nearHash).length = hashSize ∧
    ((forkedEvidence [2] 1).conflictingBlock.hash nearHash).length = hashSize ∧
    (forkedEvidence [1] 1).conflictingBlock.hash nearHash ≠
      (forkedEvidence [2] 1).conflictingBlock.hash nearHash ∧
    (forkedEvidence [1] 1).hash nearHash = (forkedEvidence [2] 1).hash nearHash := by
  refine ⟨near_hash_injective, ?_⟩
  decide +kernel

end Tendermint.Types
