import Tendermint.Types.Block

/-!
What the hash of a block says of the block. The hash covers every field of the
header, and through the hashes in it the transactions, the evidence and the
signatures of the LastCommit. The height, the round and the block ID of the
LastCommit are in no hash.
-/

namespace Tendermint.Types

open Merkle (Hashing)
open Wire List

theorem uint_field_fits (number value : Nat) (valid : 0 < number ∧ number < 2 ^ 29)
    (bounded : value < 2 ^ 64) : ∀ field ∈ uintField number value, field.Fits := by
  intro field member
  unfold uintField at member
  split at member
  · simp at member
  · cases mem_singleton.mp member
    exact fits_varint number value valid bounded

theorem bytes_field_fits (number : Nat) (payload : Bytes) (valid : 0 < number ∧ number < 2 ^ 29)
    (bounded : payload.length < 2 ^ 64) : ∀ field ∈ bytesField number payload, field.Fits := by
  intro field member
  unfold bytesField at member
  split at member
  · simp at member
  · cases mem_singleton.mp member
    exact fits_bytes number payload valid bounded

theorem cdc_encode_injective {item other : Bytes} (bounded : item.length < 2 ^ 64)
    (otherBounded : other.length < 2 ^ 64) (same : cdcEncode item = cdcEncode other) :
    item = other := by
  have asFields : ∀ bytes : Bytes, cdcEncode bytes = encodeFields (bytesField 1 bytes) := by
    intro bytes
    unfold cdcEncode bytesField
    split <;> simp [encodeFields]
  rw [asFields, asFields] at same
  have fields := encode_fields_injective
    (bytes_field_fits 1 item (by decide) bounded)
    (bytes_field_fits 1 other (by decide) otherBounded) same
  unfold bytesField at fields
  split at fields <;> split at fields <;> simp_all

theorem cdc_encode_int64_injective (item other : Int) (typed : InInt64 item)
    (otherTyped : InInt64 other) (same : cdcEncodeInt64 item = cdcEncodeInt64 other) :
    item = other := by
  have asFields : ∀ value, InInt64 value →
      cdcEncodeInt64 value = encodeFields (uintField 1 (toWord value)) := by
    intro value bounds
    have back := of_word_to_word bounds.1 bounds.2
    unfold cdcEncodeInt64 uintField
    by_cases zero : value = 0
    · subst zero
      rfl
    · have word : toWord value ≠ 0 := by
        intro word
        rw [word] at back
        exact zero back.symm
      rw [if_neg zero, if_neg word]
  rw [asFields item typed, asFields other otherTyped] at same
  have fields := encode_fields_injective
    (uint_field_fits 1 _ (by decide) (to_word_lt item))
    (uint_field_fits 1 _ (by decide) (to_word_lt other)) same
  have words : toWord item = toWord other := by
    unfold uintField at fields
    split at fields <;> split at fields <;> simp_all
  rw [← of_word_to_word typed.1 typed.2, words, of_word_to_word otherTyped.1 otherTyped.2]

def ConsensusVersion.Typed (version : ConsensusVersion) : Prop :=
  version.block < 2 ^ 64 ∧ version.app < 2 ^ 64

theorem ConsensusVersion.marshal_injective (version other : ConsensusVersion)
    (typed : version.Typed) (otherTyped : other.Typed) (same : version.marshal = other.marshal) :
    version = other := by
  have fits : ∀ given : ConsensusVersion, given.Typed →
      ∀ field ∈ uintField 1 given.block ++ uintField 2 given.app, field.Fits := by
    intro given bounds field member
    rcases mem_append.mp member with first | second
    · exact uint_field_fits 1 _ (by decide) bounds.1 field first
    · exact uint_field_fits 2 _ (by decide) bounds.2 field second
  have fields := encode_fields_injective (fits version typed) (fits other otherTyped) same
  obtain ⟨block, app⟩ := version
  obtain ⟨otherBlock, otherApp⟩ := other
  simp only [uintField] at fields
  by_cases noBlock : block = 0 <;> by_cases noApp : app = 0 <;>
    by_cases noOtherBlock : otherBlock = 0 <;> by_cases noOtherApp : otherApp = 0 <;>
    simp_all

theorem block_id_encoding_injective (blockID other : BlockID) (typed : blockID.Typed)
    (otherTyped : other.Typed)
    (same : encodeFields (blockIDFields blockID) = encodeFields (blockIDFields other)) :
    blockID = other := by
  have back := block_id_round_trip typed
  rw [same, block_id_round_trip otherTyped] at back
  exact (Option.some.inj back).symm

theorem std_time_injective {time other : Time} (valid : (stdTimeMarshal time).isSome)
    (otherValid : (stdTimeMarshal other).isSome)
    (same : (stdTimeMarshal time).getD [] = (stdTimeMarshal other).getD []) : time = other := by
  obtain ⟨bytes, encoded⟩ := Option.isSome_iff_exists.mp valid
  obtain ⟨otherBytes, otherEncoded⟩ := Option.isSome_iff_exists.mp otherValid
  rw [encoded, otherEncoded] at same
  have back := std_time_round_trip encoded
  rw [show bytes = otherBytes from same, std_time_round_trip otherEncoded] at back
  exact (Option.some.inj back).symm

/-- The leaves of the tree that the header hash is the root of. -/
def Header.leaves (header : Header) : List Bytes :=
  [header.version.marshal,
    cdcEncode header.chainID,
    cdcEncodeInt64 header.height,
    (stdTimeMarshal header.time).getD [],
    encodeFields (blockIDFields header.lastBlockID),
    cdcEncode header.lastCommitHash,
    cdcEncode header.dataHash,
    cdcEncode header.validatorsHash,
    cdcEncode header.nextValidatorsHash,
    cdcEncode header.consensusHash,
    cdcEncode header.appHash,
    cdcEncode header.lastResultsHash,
    cdcEncode header.evidenceHash,
    cdcEncode header.proposerAddress]

theorem Header.hash_eq (hashing : Hashing) (header : Header)
    (valid : (stdTimeMarshal header.time).isSome) (present : header.validatorsHash ≠ []) :
    header.hash hashing = Merkle.hashFromByteSlices hashing header.leaves := by
  obtain ⟨bytes, encoded⟩ := Option.isSome_iff_exists.mp valid
  unfold Header.hash
  rw [if_neg (by simpa using present), encoded, Header.leaves, encoded]
  rfl

/-- What the Go types and the decoding promise of a header. -/
structure Header.Typed (header : Header) : Prop where
  version : header.version.Typed
  height : InInt64 header.height
  time : (stdTimeMarshal header.time).isSome
  lastBlockID : header.lastBlockID.Typed
  chainID : header.chainID.length < 2 ^ 64
  lastCommitHash : header.lastCommitHash.length < 2 ^ 64
  dataHash : header.dataHash.length < 2 ^ 64
  validatorsHash : header.validatorsHash.length < 2 ^ 64
  nextValidatorsHash : header.nextValidatorsHash.length < 2 ^ 64
  consensusHash : header.consensusHash.length < 2 ^ 64
  appHash : header.appHash.length < 2 ^ 64
  lastResultsHash : header.lastResultsHash.length < 2 ^ 64
  evidenceHash : header.evidenceHash.length < 2 ^ 64
  proposerAddress : header.proposerAddress.length < 2 ^ 64

theorem Header.leaves_injective (header other : Header) (typed : header.Typed)
    (otherTyped : other.Typed) (same : header.leaves = other.leaves) : header = other := by
  simp only [Header.leaves, List.cons.injEq, and_true] at same
  obtain ⟨version, chainID, height, time, lastBlockID, lastCommitHash, dataHash, validatorsHash,
    nextValidatorsHash, consensusHash, appHash, lastResultsHash, evidenceHash, proposerAddress⟩ :=
    same
  cases header
  cases other
  simp only [Header.mk.injEq]
  refine ⟨?_, ?_, ?_, ?_, ?_, ?_, ?_, ?_, ?_, ?_, ?_, ?_, ?_, ?_⟩
  · exact ConsensusVersion.marshal_injective _ _ typed.version otherTyped.version version
  · exact cdc_encode_injective typed.chainID otherTyped.chainID chainID
  · exact cdc_encode_int64_injective _ _ typed.height otherTyped.height height
  · exact std_time_injective typed.time otherTyped.time time
  · exact block_id_encoding_injective _ _ typed.lastBlockID otherTyped.lastBlockID lastBlockID
  · exact cdc_encode_injective typed.lastCommitHash otherTyped.lastCommitHash lastCommitHash
  · exact cdc_encode_injective typed.dataHash otherTyped.dataHash dataHash
  · exact cdc_encode_injective typed.validatorsHash otherTyped.validatorsHash validatorsHash
  · exact cdc_encode_injective typed.nextValidatorsHash otherTyped.nextValidatorsHash
      nextValidatorsHash
  · exact cdc_encode_injective typed.consensusHash otherTyped.consensusHash consensusHash
  · exact cdc_encode_injective typed.appHash otherTyped.appHash appHash
  · exact cdc_encode_injective typed.lastResultsHash otherTyped.lastResultsHash lastResultsHash
  · exact cdc_encode_injective typed.evidenceHash otherTyped.evidenceHash evidenceHash
  · exact cdc_encode_injective typed.proposerAddress otherTyped.proposerAddress proposerAddress

variable {hashing : Hashing}

theorem Header.hash_injective (sized : hashing.Sized) {header other : Header} (typed : header.Typed)
    (otherTyped : other.Typed) (apart : hashing.Apart header.leaves other.leaves)
    (present : header.validatorsHash ≠ []) (same : header.hash hashing = other.hash hashing) :
    header = other := by
  have hashed := header.hash_eq hashing typed.time present
  have otherPresent : other.validatorsHash ≠ [] := by
    intro missing
    have empty : other.hash hashing = [] := by
      simp [Header.hash, missing]
    have size := Merkle.hash_from_byte_slices_length sized header.leaves
    rw [← hashed, same, empty] at size
    cases size
  refine Header.leaves_injective _ _ typed otherTyped ?_
  refine Merkle.hash_from_byte_slices_injective hashing sized apart ?_
  rw [← hashed, same]
  exact other.hash_eq hashing otherTyped.time otherPresent

def CommitSig.encoding (sig : CommitSig) : Bytes :=
  encodeFields (sig.fields ((stdTimeMarshal sig.timestamp).getD []))

structure CommitSig.Typed (sig : CommitSig) : Prop where
  timestamp : (stdTimeMarshal sig.timestamp).isSome
  validatorAddress : sig.validatorAddress.length < 2 ^ 64
  signature : sig.signature.length < 2 ^ 64

theorem CommitSig.marshal_eq (sig : CommitSig) (typed : sig.Typed) :
    sig.marshal = .ok sig.encoding := by
  obtain ⟨bytes, encoded⟩ := Option.isSome_iff_exists.mp typed.timestamp
  simp [CommitSig.marshal, CommitSig.encoding, encoded]

theorem std_time_length (time : Time) : ((stdTimeMarshal time).getD []).length < 2 ^ 64 := by
  cases encoded : stdTimeMarshal time with
  | none => simp
  | some bytes =>
  have bound := timestamp_length encoded
  have small : payloadBound < 2 ^ 64 := by decide
  simp only [Option.getD_some]
  omega

theorem CommitSig.fields_fit (sig : CommitSig) (typed : sig.Typed) :
    ∀ field ∈ sig.fields ((stdTimeMarshal sig.timestamp).getD []), field.Fits := by
  intro field member
  have flag : sig.blockIDFlag.code < 2 ^ 64 := by
    cases sig.blockIDFlag <;> decide
  simp only [CommitSig.fields, mem_append, mem_singleton] at member
  rcases member with ((first | second) | third) | fourth
  · exact uint_field_fits 1 _ (by decide) flag field first
  · exact bytes_field_fits 2 _ (by decide) typed.validatorAddress field second
  · subst third
    exact fits_bytes 3 _ (by decide) (std_time_length _)
  · exact bytes_field_fits 4 _ (by decide) typed.signature field fourth

theorem CommitSig.encoding_injective {sig other : CommitSig} (typed : sig.Typed)
    (otherTyped : other.Typed) (same : sig.encoding = other.encoding) : sig = other := by
  have fields := encode_fields_injective (sig.fields_fit typed) (other.fields_fit otherTyped) same
  have times := std_time_injective typed.timestamp otherTyped.timestamp
  obtain ⟨flag, address, timestamp, signature⟩ := sig
  obtain ⟨otherFlag, otherAddress, otherTimestamp, otherSignature⟩ := other
  simp only [CommitSig.fields, uintField, bytesField] at fields times
  cases flag <;> cases otherFlag <;> by_cases noAddress : address = [] <;>
    by_cases noOther : otherAddress = [] <;> by_cases noSignature : signature = [] <;>
    by_cases noOtherSignature : otherSignature = [] <;>
    simp_all [BlockIDFlag.code]

theorem commit_items {commit : Commit} (typed : ∀ sig ∈ commit.signatures, sig.Typed) :
    commit.signatures.mapM CommitSig.marshal = .ok (commit.signatures.map CommitSig.encoding) := by
  generalize commit.signatures = signatures at typed
  induction signatures with
  | nil => rfl
  | cons sig rest ih =>
    have tail := ih fun other member => typed other (mem_cons_of_mem sig member)
    rw [mapM_cons, CommitSig.marshal_eq sig (typed sig (by simp)), tail]
    rfl

theorem Commit.hash_eq (hashing : Hashing) (commit : Commit)
    (typed : ∀ sig ∈ commit.signatures, sig.Typed) :
    commit.hash hashing =
      .ok (Merkle.hashFromByteSlices hashing (commit.signatures.map CommitSig.encoding)) := by
  rw [Commit.hash, commit_items typed]
  rfl

theorem encodings_injective (sigs others : List CommitSig) (typed : ∀ sig ∈ sigs, sig.Typed)
    (otherTyped : ∀ sig ∈ others, sig.Typed)
    (same : sigs.map CommitSig.encoding = others.map CommitSig.encoding) : sigs = others := by
  induction sigs generalizing others with
  | nil => exact (map_eq_nil_iff.mp same.symm).symm
  | cons sig rest ih =>
  cases others with
  | nil => simp at same
  | cons other otherRest =>
  simp only [map_cons, List.cons.injEq] at same
  rw [CommitSig.encoding_injective (typed sig (by simp)) (otherTyped other (by simp)) same.1]
  rw [ih otherRest (fun given member => typed given (mem_cons_of_mem sig member))
    (fun given member => otherTyped given (mem_cons_of_mem other member)) same.2]

/-- A value that `BlockFromProto` can return. -/
structure Block.Decoded (hashing : Hashing) (evidenceBasic : Bytes → Option String)
    (block : Block) : Prop where
  valid : block.validateBasic hashing evidenceBasic = .ok none
  header : block.header.Typed
  signatures : ∀ sig ∈ block.lastCommit.signatures, sig.Typed

/-- Nothing that is hashed for the one block collides with something else that is
hashed for the other. -/
structure Block.Apart (hashing : Hashing) (block other : Block) : Prop where
  header : hashing.Apart block.header.leaves other.header.leaves
  signatures : hashing.Apart (block.lastCommit.signatures.map CommitSig.encoding)
    (other.lastCommit.signatures.map CommitSig.encoding)
  evidence : hashing.Apart block.evidence other.evidence

theorem Block.Decoded.hashes {evidenceBasic : Bytes → Option String} {block : Block}
    (decoded : block.Decoded hashing evidenceBasic) :
    block.header.lastCommitHash = Merkle.hashFromByteSlices hashing
        (block.lastCommit.signatures.map CommitSig.encoding) ∧
      block.header.evidenceHash = evidenceHash hashing block.evidence := by
  have valid := decoded.valid
  simp only [Block.validateBasic, Commit.hash_eq hashing _ decoded.signatures, bind_eq,
    pure_eq] at valid
  split at valid
  · cases valid
  split at valid
  · cases valid
  split at valid
  · cases valid
  rename_i lastCommit
  split at valid
  · cases valid
  split at valid
  · cases valid
  split at valid
  · cases valid
  rename_i evidence
  exact ⟨(not_not.mp lastCommit).symm, (not_not.mp evidence).symm⟩

/-- Two decoded blocks with one hash have the same header, the same evidence and
the same signatures in the LastCommit. -/
theorem same_hash_same_content (sized : hashing.Sized) {evidenceBasic : Bytes → Option String}
    {block other : Block} (decoded : block.Decoded hashing evidenceBasic)
    (otherDecoded : other.Decoded hashing evidenceBasic) (apart : block.Apart hashing other)
    (present : block.header.validatorsHash ≠ []) (same : block.hash hashing = other.hash hashing) :
    block.header = other.header ∧ block.evidence = other.evidence ∧
      block.lastCommit.signatures = other.lastCommit.signatures := by
  have headers : block.header = other.header :=
    Header.hash_injective sized decoded.header otherDecoded.header apart.header present same
  obtain ⟨lastCommit, evidence⟩ := decoded.hashes
  obtain ⟨otherLastCommit, otherEvidence⟩ := otherDecoded.hashes
  refine ⟨headers, ?_, ?_⟩
  · refine Merkle.hash_from_byte_slices_injective hashing sized apart.evidence ?_
    exact evidence.symm.trans ((congrArg Header.evidenceHash headers).trans otherEvidence)
  · refine encodings_injective _ _ decoded.signatures otherDecoded.signatures ?_
    refine Merkle.hash_from_byte_slices_injective hashing sized apart.signatures ?_
    exact lastCommit.symm.trans ((congrArg Header.lastCommitHash headers).trans otherLastCommit)

end Tendermint.Types
