import Tendermint.Types.Basic

/-!
The canonical messages that validators sign, and their protobuf bytes. The
encoders write the fields in the order of `canonical.pb.go` and leave out the
zero ones; the decoders update a message field by field, so that a repeated
embedded message is merged into what was read before. Encoding fails only for
an instant outside the years 1 to 9999, where the source panics.
-/

namespace Tendermint.Types

open List
open Wire (Field Value encodeFields toWord ofWord unmarshal unmarshal_encode)

/-- The panic of a Go call, with its message. -/
abbrev Panics := Except String

def minValidSeconds : Int := -62135596800

def maxValidSeconds : Int := 253402300800

def nanosPerSecond : Int := 1000000000

/-- `time.Time{}`, the first instant of the year 1. -/
def zeroTime : Time := minValidSeconds * nanosPerSecond

def timestampFields (time : Time) : List Field :=
  (if time / nanosPerSecond = 0 then []
    else [⟨1, .varint (toWord (time / nanosPerSecond))⟩]) ++
  (if time % nanosPerSecond = 0 then []
    else [⟨2, .varint (toWord (time % nanosPerSecond))⟩])

def validTimestamp (seconds nanos : Int) : Bool :=
  decide (minValidSeconds ≤ seconds ∧ seconds < maxValidSeconds ∧ 0 ≤ nanos ∧
    nanos < nanosPerSecond)

def stdTimeMarshal (time : Time) : Option Bytes :=
  if validTimestamp (time / nanosPerSecond) (time % nanosPerSecond) then
    some (encodeFields (timestampFields time))
  else none

def timestampStep (timestamp : Int × Int) (field : Field) : Option (Int × Int) :=
  match field with
  | ⟨1, .varint word⟩ => some (ofWord word, timestamp.2)
  | ⟨1, _⟩ => none
  | ⟨2, .varint word⟩ => some (timestamp.1, Int.bmod word (2 ^ 32))
  | ⟨2, _⟩ => none
  | _ => some timestamp

def stdTimeUnmarshal (input : Bytes) : Option Time :=
  (unmarshal timestampStep (0, 0) input).bind fun timestamp =>
    if validTimestamp timestamp.1 timestamp.2 then
      some (timestamp.1 * nanosPerSecond + timestamp.2)
    else none

theorem timestamp_fields_fit (time : Time) : ∀ field ∈ timestampFields time, field.Fits := by
  intro field member
  simp only [timestampFields, mem_append] at member
  rcases member with first | second
  · rw [Wire.eq_of_mem_optional first]
    exact Wire.fits_varint 1 _ (by decide) (Wire.to_word_lt _)
  · rw [Wire.eq_of_mem_optional second]
    exact Wire.fits_varint 2 _ (by decide) (Wire.to_word_lt _)

theorem bmod_to_word_nanos (nanos : Int) (low : 0 ≤ nanos) (high : nanos < nanosPerSecond) :
    Int.bmod (toWord nanos) (2 ^ 32) = nanos := by
  unfold nanosPerSecond at high
  have word : ((toWord nanos : Nat) : Int) = nanos := by
    unfold toWord
    omega
  rw [word, Int.bmod_eq_of_le] <;> omega

variable {bytes : Bytes} {blockID : BlockID} {α : Type} {chainID : ChainID} {vote : Vote}

theorem std_time_round_trip {time : Time} (encoded : stdTimeMarshal time = some bytes) :
    stdTimeUnmarshal bytes = some time := by
  unfold stdTimeMarshal at encoded
  split at encoded
  case isFalse => cases encoded
  case isTrue valid =>
    cases encoded
    have bounds := of_decide_eq_true valid
    obtain ⟨low, high, nanosLow, nanosHigh⟩ := bounds
    have seconds : ofWord (toWord (time / nanosPerSecond)) = time / nanosPerSecond := by
      apply Wire.of_word_to_word
      · unfold minValidSeconds at low
        omega
      · unfold maxValidSeconds at high
        omega
    have nanos := bmod_to_word_nanos _ nanosLow nanosHigh
    have fold : (timestampFields time).foldlM timestampStep (0, 0) =
        some (time / nanosPerSecond, time % nanosPerSecond) := by
      by_cases noSeconds : time / nanosPerSecond = 0 <;>
        by_cases noNanos : time % nanosPerSecond = 0 <;>
        simp only [timestampFields, timestampStep, noSeconds, noNanos, if_true, if_false,
          nil_append, append_nil, cons_append, foldlM_cons, foldlM_nil,
          nanos, seconds, pure, Option.bind_eq_bind, Option.bind_some]
    have whole : time / nanosPerSecond * nanosPerSecond + time % nanosPerSecond = time := by
      rw [Int.mul_comm]
      exact Int.mul_ediv_add_emod time nanosPerSecond
    simp only [stdTimeUnmarshal, unmarshal_encode _ _ _ (timestamp_fields_fit time), fold,
      Option.bind_some, valid, ↓reduceIte, whole]

/-- The embedded block ID of a canonical message has the fields of `BlockID`. -/
def partSetHeaderStep (header : PartSetHeader) (field : Field) : Option PartSetHeader :=
  match field with
  | ⟨1, .varint word⟩ => some { header with total := word % 2 ^ 32 }
  | ⟨1, _⟩ => none
  | ⟨2, .bytes payload⟩ => some { header with hash := payload }
  | ⟨2, _⟩ => none
  | _ => some header

def blockIDFields (blockID : BlockID) : List Field :=
  (if blockID.hash.length = 0 then [] else [⟨1, .bytes blockID.hash⟩]) ++
  [⟨2, .bytes blockID.partSetHeader.marshal⟩]

def blockIDStep (blockID : BlockID) (field : Field) : Option BlockID :=
  match field with
  | ⟨1, .bytes payload⟩ => some { blockID with hash := payload }
  | ⟨1, _⟩ => none
  | ⟨2, .bytes payload⟩ =>
    (unmarshal partSetHeaderStep blockID.partSetHeader payload).map fun header =>
      { blockID with partSetHeader := header }
  | ⟨2, _⟩ => none
  | _ => some blockID

theorem part_set_header_round_trip {header : PartSetHeader} (typed : header.Typed) :
    unmarshal partSetHeaderStep PartSetHeader.zero header.marshal = some header := by
  rw [PartSetHeader.marshal, unmarshal_encode _ _ _ (PartSetHeader.fields_fit header typed)]
  obtain ⟨total, hash⟩ := header
  have small : total % 2 ^ 32 = total := Nat.mod_eq_of_lt typed.1
  by_cases noTotal : total = 0 <;> by_cases noHash : hash.length = 0 <;>
    simp_all [PartSetHeader.fields, partSetHeaderStep, PartSetHeader.zero]

theorem part_set_header_length {header : PartSetHeader} (typed : header.Typed) :
    header.marshal.length ≤ 2 * (20 + 2 ^ 32) := by
  have count : header.fields.length ≤ 2 := by
    unfold PartSetHeader.fields
    split <;> split <;> simp
  have bytes := Wire.encode_fields_length_le header.fields (2 ^ 32) (by
    intro field member
    simp only [PartSetHeader.fields, mem_append] at member
    rcases member with first | second
    · split at first <;> simp_all [Value.size]
    · rw [Wire.eq_of_mem_optional second]
      exact Nat.le_of_lt typed.2)
  have scaled := Nat.mul_le_mul_right (20 + 2 ^ 32) count
  exact Nat.le_trans bytes scaled

theorem block_id_fields_fit (typed : blockID.Typed) :
    ∀ field ∈ blockIDFields blockID, field.Fits := by
  intro field member
  have headerSize := part_set_header_length typed.2
  have hashSize := typed.1
  simp only [blockIDFields, mem_append, mem_singleton] at member
  rcases member with first | second
  · rw [Wire.eq_of_mem_optional first]
    exact Wire.fits_bytes 1 _ (by decide) (by omega)
  · subst second
    exact Wire.fits_bytes 2 _ (by decide) (by omega)

theorem block_id_round_trip (typed : blockID.Typed) :
    unmarshal blockIDStep BlockID.zero (encodeFields (blockIDFields blockID)) = some blockID := by
  rw [unmarshal_encode _ _ _ (block_id_fields_fit typed)]
  have header := part_set_header_round_trip typed.2
  by_cases noHash : blockID.hash.length = 0
  · have empty := length_eq_zero_iff.mp noHash
    simp [blockIDFields, noHash, blockIDStep, BlockID.zero, header]
    rw [← empty]
  · simp [blockIDFields, noHash, blockIDStep, BlockID.zero, header]

theorem block_id_length (typed : blockID.Typed) :
    (encodeFields (blockIDFields blockID)).length ≤ 2 * (20 + 2 * (20 + 2 ^ 32)) := by
  have count : (blockIDFields blockID).length ≤ 2 := by
    unfold blockIDFields
    split <;> simp
  have headerSize := part_set_header_length typed.2
  have hashSize := typed.1
  have bytes := Wire.encode_fields_length_le (blockIDFields blockID) (2 * (20 + 2 ^ 32)) (by
    intro field member
    simp only [blockIDFields, mem_append, mem_singleton] at member
    rcases member with first | second
    · rw [Wire.eq_of_mem_optional first]
      simp only [Value.size]
      omega
    · subst second
      exact headerSize)
  exact Nat.le_trans bytes (Nat.mul_le_mul_right _ count)

/-- A nil canonical block ID stands for the zero one, and is not written. -/
def canonicalizeBlockID (blockID : BlockID) : Panics (Option BlockID) :=
  match blockID.validateBasic with
  | some error => .error error
  | none => .ok (if blockID.isZero then none else some blockID)

structure CanonicalVote where
  type : SignedMsgType
  height : Int
  round : Int
  blockID : Option BlockID
  timestamp : Time
  chainID : ChainID
  deriving DecidableEq, Repr

structure CanonicalProposal where
  type : SignedMsgType
  height : Int
  round : Int
  polRound : Int
  blockID : Option BlockID
  timestamp : Time
  chainID : ChainID
  deriving DecidableEq, Repr

def canonicalizeVote (chainID : ChainID) (vote : Vote) : Panics CanonicalVote := do
  let blockID ← canonicalizeBlockID vote.blockID
  pure ⟨vote.type, vote.height, vote.round, blockID, vote.timestamp, chainID⟩

def canonicalizeProposal (chainID : ChainID) (proposal : Proposal) :
    Panics CanonicalProposal := do
  let blockID ← canonicalizeBlockID proposal.blockID
  pure ⟨.proposal, proposal.height, proposal.round, proposal.polRound, blockID,
    proposal.timestamp, chainID⟩

def codeField (type : SignedMsgType) : List Field :=
  if type.code = 0 then [] else [⟨1, .varint type.code⟩]

def fixedField (number : Nat) (value : Int) : List Field :=
  if value = 0 then [] else [⟨number, .fixed64 (toWord value)⟩]

def varintField (number : Nat) (value : Int) : List Field :=
  if value = 0 then [] else [⟨number, .varint (toWord value)⟩]

def blockIDField (number : Nat) (blockID : Option BlockID) : List Field :=
  match blockID with
  | none => []
  | some blockID => [⟨number, .bytes (encodeFields (blockIDFields blockID))⟩]

def chainIDField (number : Nat) (chainID : ChainID) : List Field :=
  if chainID.length = 0 then [] else [⟨number, .bytes chainID⟩]

def CanonicalVote.fields (vote : CanonicalVote) (timestamp : Bytes) : List Field :=
  codeField vote.type ++ fixedField 2 vote.height ++ fixedField 3 vote.round ++
    blockIDField 4 vote.blockID ++ [⟨5, .bytes timestamp⟩] ++ chainIDField 6 vote.chainID

def CanonicalVote.marshal (vote : CanonicalVote) : Option Bytes :=
  (stdTimeMarshal vote.timestamp).map fun timestamp => encodeFields (vote.fields timestamp)

def CanonicalProposal.fields (proposal : CanonicalProposal) (timestamp : Bytes) :
    List Field :=
  codeField proposal.type ++ fixedField 2 proposal.height ++ fixedField 3 proposal.round ++
    varintField 4 proposal.polRound ++ blockIDField 5 proposal.blockID ++
    [⟨6, .bytes timestamp⟩] ++ chainIDField 7 proposal.chainID

def CanonicalProposal.marshal (proposal : CanonicalProposal) : Option Bytes :=
  (stdTimeMarshal proposal.timestamp).map fun timestamp =>
    encodeFields (proposal.fields timestamp)

def CanonicalVote.empty : CanonicalVote := ⟨.unknown, 0, 0, none, zeroTime, []⟩

def CanonicalProposal.empty : CanonicalProposal := ⟨.unknown, 0, 0, 0, none, zeroTime, []⟩

def mergeBlockID (current : Option BlockID) (payload : Bytes) : Option BlockID :=
  unmarshal blockIDStep (current.getD BlockID.zero) payload

def canonicalVoteStep (vote : CanonicalVote) (field : Field) : Option CanonicalVote :=
  match field with
  | ⟨1, .varint word⟩ => some { vote with type := .ofCode word }
  | ⟨2, .fixed64 word⟩ => some { vote with height := ofWord word }
  | ⟨3, .fixed64 word⟩ => some { vote with round := ofWord word }
  | ⟨4, .bytes payload⟩ => (mergeBlockID vote.blockID payload).map fun blockID =>
    { vote with blockID := some blockID }
  | ⟨5, .bytes payload⟩ => (stdTimeUnmarshal payload).map fun time =>
    { vote with timestamp := time }
  | ⟨6, .bytes payload⟩ => some { vote with chainID := payload }
  | ⟨number, _⟩ => if 1 ≤ number ∧ number ≤ 6 then none else some vote

def canonicalProposalStep (proposal : CanonicalProposal) (field : Field) :
    Option CanonicalProposal :=
  match field with
  | ⟨1, .varint word⟩ => some { proposal with type := .ofCode word }
  | ⟨2, .fixed64 word⟩ => some { proposal with height := ofWord word }
  | ⟨3, .fixed64 word⟩ => some { proposal with round := ofWord word }
  | ⟨4, .varint word⟩ => some { proposal with polRound := ofWord word }
  | ⟨5, .bytes payload⟩ => (mergeBlockID proposal.blockID payload).map fun blockID =>
    { proposal with blockID := some blockID }
  | ⟨6, .bytes payload⟩ => (stdTimeUnmarshal payload).map fun time =>
    { proposal with timestamp := time }
  | ⟨7, .bytes payload⟩ => some { proposal with chainID := payload }
  | ⟨number, _⟩ => if 1 ≤ number ∧ number ≤ 7 then none else some proposal

def CanonicalVote.unmarshalDelimited (input : Bytes) : Option CanonicalVote :=
  (Wire.getDelimited input).bind (unmarshal canonicalVoteStep .empty)

def CanonicalProposal.unmarshalDelimited (input : Bytes) : Option CanonicalProposal :=
  (Wire.getDelimited input).bind (unmarshal canonicalProposalStep .empty)

def marshalDelimited (message : Option Bytes) : Panics Bytes :=
  match message with
  | none => .error "timestamp: seconds out of range"
  | some bytes => .ok (Wire.putDelimited bytes)

def voteSignBytes (chainID : ChainID) (vote : Vote) : Panics Bytes := do
  let canonical ← canonicalizeVote chainID vote
  marshalDelimited canonical.marshal

def proposalSignBytes (chainID : ChainID) (proposal : Proposal) : Panics Bytes := do
  let canonical ← canonicalizeProposal chainID proposal
  marshalDelimited canonical.marshal

structure CanonicalVote.Typed (vote : CanonicalVote) : Prop where
  height : InInt64 vote.height
  round : InInt64 vote.round
  blockID : ∀ blockID, vote.blockID = some blockID → blockID.Typed
  chainID : vote.chainID.length < 2 ^ 32

structure CanonicalProposal.Typed (proposal : CanonicalProposal) : Prop where
  height : InInt64 proposal.height
  round : InInt64 proposal.round
  polRound : InInt64 proposal.polRound
  blockID : ∀ blockID, proposal.blockID = some blockID → blockID.Typed
  chainID : proposal.chainID.length < 2 ^ 32

def payloadBound : Nat := 2 * (20 + 2 * (20 + 2 ^ 32))

theorem timestamp_length {time : Time} (encoded : stdTimeMarshal time = some bytes) :
    bytes.length ≤ payloadBound := by
  unfold stdTimeMarshal at encoded
  split at encoded
  case isFalse => cases encoded
  case isTrue =>
    cases encoded
    have count : (timestampFields time).length ≤ 2 := by
      unfold timestampFields
      split <;> split <;> simp
    have size := Wire.encode_fields_length_le (timestampFields time) 0 (by
      intro field member
      simp only [timestampFields, mem_append] at member
      rcases member with first | second
      · split at first <;> simp_all [Value.size]
      · split at second <;> simp_all [Value.size])
    unfold payloadBound
    omega

/-- A field as the encoders above write it: it fits the wire and is not larger
than `payloadBound`. -/
def Small (field : Field) : Prop := field.Fits ∧ field.value.size ≤ payloadBound

theorem code_field_small {type : SignedMsgType} : ∀ field ∈ codeField type, Small field := by
  intro field member
  cases type <;> simp [codeField, SignedMsgType.code] at member <;> subst member
  all_goals exact ⟨Wire.fits_varint 1 _ (by decide) (by decide), by simp [Value.size]⟩

theorem fixed_field_small (number : Nat) (value : Int) (valid : 0 < number ∧ number < 2 ^ 29) :
    ∀ field ∈ fixedField number value, Small field := by
  intro field member
  unfold fixedField at member
  rw [Wire.eq_of_mem_optional member]
  exact ⟨Wire.fits_fixed64 number _ valid (Wire.to_word_lt _), by simp [Value.size]⟩

theorem varint_field_small (number : Nat) (value : Int) (valid : 0 < number ∧ number < 2 ^ 29) :
    ∀ field ∈ varintField number value, Small field := by
  intro field member
  unfold varintField at member
  rw [Wire.eq_of_mem_optional member]
  exact ⟨Wire.fits_varint number _ valid (Wire.to_word_lt _), by simp [Value.size]⟩

theorem bytes_field_small (number : Nat) (payload : Bytes) (valid : 0 < number ∧ number < 2 ^ 29)
    (bounded : payload.length ≤ payloadBound) : Small ⟨number, .bytes payload⟩ := by
  refine ⟨Wire.fits_bytes number payload valid ?_, bounded⟩
  unfold payloadBound at bounded
  omega

theorem block_id_field_small (number : Nat) (blockID : Option BlockID)
    (valid : 0 < number ∧ number < 2 ^ 29) (typed : ∀ id, blockID = some id → id.Typed) :
    ∀ field ∈ blockIDField number blockID, Small field := by
  intro field member
  cases blockID with
  | none => simp [blockIDField] at member
  | some id =>
    simp only [blockIDField, mem_singleton] at member
    subst member
    exact bytes_field_small number _ valid (block_id_length (typed id rfl))

theorem chain_id_field_small (number : Nat) (chainID : ChainID)
    (valid : 0 < number ∧ number < 2 ^ 29) (bounded : chainID.length < 2 ^ 32) :
    ∀ field ∈ chainIDField number chainID, Small field := by
  intro field member
  unfold chainIDField at member
  rw [Wire.eq_of_mem_optional member]
  refine bytes_field_small number _ valid ?_
  unfold payloadBound
  omega

theorem delimited_round_trip {step : α → Field → Option α} {initial : α} {fields : List Field}
    (few : fields.length ≤ 7) (small : ∀ field ∈ fields, Small field) :
    (Wire.getDelimited (Wire.putDelimited (encodeFields fields))).bind
      (unmarshal step initial) = fields.foldlM step initial := by
  have size := Wire.encode_fields_length_le fields payloadBound
    (fun field member => (small field member).2)
  have scaled := Nat.mul_le_mul_right (20 + payloadBound) few
  have bounded : (encodeFields fields).length < 2 ^ 63 - 1 := by
    unfold payloadBound at size scaled
    omega
  rw [Wire.get_put_delimited _ bounded, Option.bind_some,
    unmarshal_encode _ _ _ (fun field member => (small field member).1)]

theorem fold_optional (step : α → Field → Option α) (absent : Prop) [Decidable absent]
    (field : Field) (current next : α) (keeps : absent → next = current)
    (writes : ¬ absent → step current field = some next) :
    (if absent then [] else [field]).foldlM step current = some next := by
  by_cases missing : absent
  · simp [missing, keeps missing]
  · simp [missing, writes missing]

theorem block_id_field_fold (step : α → Field → Option α) (number : Nat) (blockID : Option BlockID)
    (current next : α) (keeps : blockID = none → next = current)
    (writes : ∀ id, blockID = some id →
      step current ⟨number, .bytes (encodeFields (blockIDFields id))⟩ = some next) :
    (blockIDField number blockID).foldlM step current = some next := by
  cases blockID with
  | none => simp [blockIDField, keeps rfl]
  | some id => simp [blockIDField, writes id rfl]

theorem merge_block_id {id : BlockID} (typed : id.Typed) :
    mergeBlockID none (encodeFields (blockIDFields id)) = some id :=
  block_id_round_trip typed

section

variable (vote : CanonicalVote) (typed : vote.Typed) (timestamp : Bytes)
  (encoded : stdTimeMarshal vote.timestamp = some timestamp)

include typed encoded

theorem canonical_vote_fields_small : ∀ field ∈ vote.fields timestamp, Small field := by
  intro field member
  simp only [CanonicalVote.fields, mem_append, mem_singleton] at member
  rcases member with ((((kind | height) | round) | block) | stamp) | chain
  · exact code_field_small field kind
  · exact fixed_field_small 2 _ (by decide) field height
  · exact fixed_field_small 3 _ (by decide) field round
  · exact block_id_field_small 4 _ (by decide) typed.blockID field block
  · subst stamp
    exact bytes_field_small 5 _ (by decide) (timestamp_length encoded)
  · exact chain_id_field_small 6 _ (by decide) typed.chainID field chain

theorem canonical_vote_fields_fold :
    (vote.fields timestamp).foldlM canonicalVoteStep .empty = some vote := by
  obtain ⟨kind, height, round, block, instant, chain⟩ := vote
  -- A field that is left out keeps the zero value that decoding starts from.
  have first : (codeField kind).foldlM canonicalVoteStep .empty =
      some ⟨kind, 0, 0, none, zeroTime, []⟩ := by
    apply fold_optional
    · cases kind <;> simp [SignedMsgType.code, CanonicalVote.empty]
    · intro _
      simp [canonicalVoteStep, of_code_code, CanonicalVote.empty]
  have second : (fixedField 2 height).foldlM canonicalVoteStep
      ⟨kind, 0, 0, none, zeroTime, []⟩ = some ⟨kind, height, 0, none, zeroTime, []⟩ := by
    apply fold_optional
    · simp_all
    · intro _
      simp [canonicalVoteStep, Wire.of_word_to_word typed.height.1 typed.height.2]
  have third : (fixedField 3 round).foldlM canonicalVoteStep
      ⟨kind, height, 0, none, zeroTime, []⟩ = some ⟨kind, height, round, none, zeroTime, []⟩ := by
    apply fold_optional
    · simp_all
    · intro _
      simp [canonicalVoteStep, Wire.of_word_to_word typed.round.1 typed.round.2]
  have fourth : (blockIDField 4 block).foldlM canonicalVoteStep
      ⟨kind, height, round, none, zeroTime, []⟩ =
        some ⟨kind, height, round, block, zeroTime, []⟩ := by
    apply block_id_field_fold
    · simp_all
    · intro id present
      simp [canonicalVoteStep, merge_block_id (typed.blockID id present), present]
  have sixth : (chainIDField 6 chain).foldlM canonicalVoteStep
      ⟨kind, height, round, block, instant, []⟩ =
        some ⟨kind, height, round, block, instant, chain⟩ := by
    apply fold_optional
    · intro missing
      rw [length_eq_zero_iff.mp missing]
    · intro _
      simp [canonicalVoteStep]
  have stamp := std_time_round_trip encoded
  simp [CanonicalVote.fields, foldlM_append, first, second, third, fourth, sixth,
    canonicalVoteStep, stamp]

end

theorem canonical_vote_round_trip {vote : CanonicalVote} (typed : vote.Typed)
    (encoded : marshalDelimited vote.marshal = .ok bytes) :
    CanonicalVote.unmarshalDelimited bytes = some vote := by
  unfold CanonicalVote.marshal at encoded
  cases time : stdTimeMarshal vote.timestamp with
  | none => simp [time, marshalDelimited] at encoded
  | some timestamp =>
  simp only [time, Option.map_some, marshalDelimited, Except.ok.injEq] at encoded
  subst encoded
  have few : (vote.fields timestamp).length ≤ 7 := by
    simp only [CanonicalVote.fields, codeField, fixedField, blockIDField, chainIDField]
    split <;> split <;> split <;> split <;> split <;> simp
  rw [CanonicalVote.unmarshalDelimited, delimited_round_trip few
    (canonical_vote_fields_small vote typed timestamp time)]
  exact canonical_vote_fields_fold vote typed timestamp time

section

variable (proposal : CanonicalProposal) (typed : proposal.Typed) (timestamp : Bytes)
  (encoded : stdTimeMarshal proposal.timestamp = some timestamp)

include typed encoded

theorem canonical_proposal_fields_small : ∀ field ∈ proposal.fields timestamp, Small field := by
  intro field member
  simp only [CanonicalProposal.fields, mem_append, mem_singleton] at member
  rcases member with (((((kind | height) | round) | polRound) | block) | stamp) | chain
  · exact code_field_small field kind
  · exact fixed_field_small 2 _ (by decide) field height
  · exact fixed_field_small 3 _ (by decide) field round
  · exact varint_field_small 4 _ (by decide) field polRound
  · exact block_id_field_small 5 _ (by decide) typed.blockID field block
  · subst stamp
    exact bytes_field_small 6 _ (by decide) (timestamp_length encoded)
  · exact chain_id_field_small 7 _ (by decide) typed.chainID field chain

theorem canonical_proposal_fields_fold :
    (proposal.fields timestamp).foldlM canonicalProposalStep .empty = some proposal := by
  obtain ⟨kind, height, round, polRound, block, instant, chain⟩ := proposal
  have first : (codeField kind).foldlM canonicalProposalStep .empty =
      some ⟨kind, 0, 0, 0, none, zeroTime, []⟩ := by
    apply fold_optional
    · cases kind <;> simp [SignedMsgType.code, CanonicalProposal.empty]
    · intro _
      simp [canonicalProposalStep, of_code_code, CanonicalProposal.empty]
  have second : (fixedField 2 height).foldlM canonicalProposalStep
      ⟨kind, 0, 0, 0, none, zeroTime, []⟩ = some ⟨kind, height, 0, 0, none, zeroTime, []⟩ := by
    apply fold_optional
    · simp_all
    · intro _
      simp [canonicalProposalStep, Wire.of_word_to_word typed.height.1 typed.height.2]
  have third : (fixedField 3 round).foldlM canonicalProposalStep
      ⟨kind, height, 0, 0, none, zeroTime, []⟩ =
        some ⟨kind, height, round, 0, none, zeroTime, []⟩ := by
    apply fold_optional
    · simp_all
    · intro _
      simp [canonicalProposalStep, Wire.of_word_to_word typed.round.1 typed.round.2]
  have fourth : (varintField 4 polRound).foldlM canonicalProposalStep
      ⟨kind, height, round, 0, none, zeroTime, []⟩ =
        some ⟨kind, height, round, polRound, none, zeroTime, []⟩ := by
    apply fold_optional
    · simp_all
    · intro _
      simp [canonicalProposalStep, Wire.of_word_to_word typed.polRound.1 typed.polRound.2]
  have fifth : (blockIDField 5 block).foldlM canonicalProposalStep
      ⟨kind, height, round, polRound, none, zeroTime, []⟩ =
        some ⟨kind, height, round, polRound, block, zeroTime, []⟩ := by
    apply block_id_field_fold
    · simp_all
    · intro id present
      simp [canonicalProposalStep, merge_block_id (typed.blockID id present), present]
  have seventh : (chainIDField 7 chain).foldlM canonicalProposalStep
      ⟨kind, height, round, polRound, block, instant, []⟩ =
        some ⟨kind, height, round, polRound, block, instant, chain⟩ := by
    apply fold_optional
    · intro missing
      rw [length_eq_zero_iff.mp missing]
    · intro _
      simp [canonicalProposalStep]
  have stamp := std_time_round_trip encoded
  simp [CanonicalProposal.fields, foldlM_append, first, second, third, fourth, fifth,
    seventh, canonicalProposalStep, stamp]

end

theorem canonical_proposal_round_trip {proposal : CanonicalProposal} (typed : proposal.Typed)
    (encoded : marshalDelimited proposal.marshal = .ok bytes) :
    CanonicalProposal.unmarshalDelimited bytes = some proposal := by
  unfold CanonicalProposal.marshal at encoded
  cases time : stdTimeMarshal proposal.timestamp with
  | none => simp [time, marshalDelimited] at encoded
  | some timestamp =>
  simp only [time, Option.map_some, marshalDelimited, Except.ok.injEq] at encoded
  subst encoded
  have few : (proposal.fields timestamp).length ≤ 7 := by
    simp only [CanonicalProposal.fields, codeField, fixedField, varintField, blockIDField,
      chainIDField]
    split <;> split <;> split <;> split <;> split <;> split <;> simp
  rw [CanonicalProposal.unmarshalDelimited, delimited_round_trip few
    (canonical_proposal_fields_small proposal typed timestamp time)]
  exact canonical_proposal_fields_fold proposal typed timestamp time

theorem canonicalize_vote_ok {canonical : CanonicalVote}
    (made : canonicalizeVote chainID vote = .ok canonical) :
    vote.blockID.validateBasic = none ∧
      canonical = ⟨vote.type, vote.height, vote.round,
        (if vote.blockID.isZero then none else some vote.blockID), vote.timestamp, chainID⟩ := by
  unfold canonicalizeVote canonicalizeBlockID at made
  cases check : vote.blockID.validateBasic with
  | some error => simp [check] at made
  | none =>
    simp only [check, bind_eq, pure_eq, Except.ok.injEq] at made
    exact ⟨rfl, made.symm⟩

theorem canonicalize_vote_typed {canonical : CanonicalVote} (typed : vote.Typed)
    (bounded : chainID.length < 2 ^ 32) (made : canonicalizeVote chainID vote = .ok canonical) :
    canonical.Typed := by
  obtain ⟨_, rfl⟩ := canonicalize_vote_ok made
  refine ⟨typed.height, typed.round.toInt64, ?_, bounded⟩
  intro id present
  simp only [Option.ite_none_left_eq_some] at present
  rw [← Option.some.inj present.2]
  exact typed.blockID

theorem vote_sign_bytes_ok (typed : vote.Typed) (bounded : chainID.length < 2 ^ 32)
    (signed : voteSignBytes chainID vote = .ok bytes) :
    ∃ canonical, canonicalizeVote chainID vote = .ok canonical ∧
      marshalDelimited canonical.marshal = .ok bytes ∧
      CanonicalVote.unmarshalDelimited bytes = some canonical := by
  unfold voteSignBytes at signed
  cases made : canonicalizeVote chainID vote with
  | error text => simp [made] at signed
  | ok canonical =>
    simp only [made, bind_eq] at signed
    exact ⟨canonical, rfl, signed, canonical_vote_round_trip
      (canonicalize_vote_typed typed bounded made) signed⟩

theorem vote_sign_bytes_injective {otherChainID : ChainID} {other : Vote} (typed : vote.Typed)
    (otherTyped : other.Typed) (bounded : chainID.length < 2 ^ 32)
    (otherBounded : otherChainID.length < 2 ^ 32) (signed : voteSignBytes chainID vote = .ok bytes)
    (otherSigned : voteSignBytes otherChainID other = .ok bytes) :
    chainID = otherChainID ∧ vote.type = other.type ∧ vote.height = other.height ∧
      vote.round = other.round ∧ vote.blockID = other.blockID ∧
      vote.timestamp = other.timestamp := by
  obtain ⟨canonical, made, _, decoded⟩ :=
    vote_sign_bytes_ok typed bounded signed
  obtain ⟨otherCanonical, otherMade, _, otherDecoded⟩ :=
    vote_sign_bytes_ok otherTyped otherBounded otherSigned
  have same : canonical = otherCanonical := Option.some.inj (decoded.symm.trans otherDecoded)
  obtain ⟨_, shape⟩ := canonicalize_vote_ok made
  obtain ⟨_, otherShape⟩ := canonicalize_vote_ok otherMade
  rw [shape, otherShape] at same
  simp only [CanonicalVote.mk.injEq] at same
  obtain ⟨kind, height, round, block, instant, chain⟩ := same
  refine ⟨chain, kind, height, round, ?_, instant⟩
  by_cases isZero : vote.blockID.isZero = true <;>
    by_cases otherZero : other.blockID.isZero = true <;> simp [isZero, otherZero] at block
  · rw [(BlockID.is_zero_iff _).mp isZero, (BlockID.is_zero_iff _).mp otherZero]
  · exact block

theorem canonicalize_proposal_ok {proposal : Proposal} {canonical : CanonicalProposal}
    (made : canonicalizeProposal chainID proposal = .ok canonical) :
    canonical = ⟨.proposal, proposal.height, proposal.round, proposal.polRound,
      (if proposal.blockID.isZero then none else some proposal.blockID), proposal.timestamp,
      chainID⟩ := by
  unfold canonicalizeProposal canonicalizeBlockID at made
  cases check : proposal.blockID.validateBasic with
  | some error => simp [check] at made
  | none =>
    simp only [check, bind_eq, pure_eq, Except.ok.injEq] at made
    exact made.symm

theorem proposal_sign_bytes_ok {proposal : Proposal} (typed : proposal.Typed)
    (bounded : chainID.length < 2 ^ 32) (signed : proposalSignBytes chainID proposal = .ok bytes) :
    ∃ canonical, canonicalizeProposal chainID proposal = .ok canonical ∧
      marshalDelimited canonical.marshal = .ok bytes ∧
      CanonicalProposal.unmarshalDelimited bytes = some canonical := by
  unfold proposalSignBytes at signed
  cases made : canonicalizeProposal chainID proposal with
  | error text => simp [made] at signed
  | ok canonical =>
  simp only [made, bind_eq] at signed
  refine ⟨canonical, rfl, signed, canonical_proposal_round_trip ?_ signed⟩
  rw [canonicalize_proposal_ok made]
  refine ⟨typed.height, typed.round.toInt64, typed.polRound.toInt64, ?_, bounded⟩
  intro id present
  simp only [Option.ite_none_left_eq_some] at present
  rw [← Option.some.inj present.2]
  exact typed.blockID

end Tendermint.Types
