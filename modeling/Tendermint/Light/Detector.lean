import Tendermint.Lib.Interleaving
import Tendermint.Light.Providers
import Tendermint.Types.Evidence

/-!
light/detector.go: the comparison of a verified header with the witnesses. Each
witness is asked by a task of its own, which sends what it found on one channel;
the channel is read once for each witness. A conflicting header is examined
against the trace of the primary when it is read, and evidence is formed if the
witness can verify it. What a provider answers during one call comes from
`Replies`, for each task by the number of its request. Logging, waiting and the
sending of the evidence are left out.
-/

namespace Tendermint.Light

open Types
open Merkle (Hashing)
open Program (Act)
open Program.Act (get raise lift)

abbrev Answers := Nat → Int → Except ProviderError LightBlock

def getTargetBlockOrLatest (answers : Answers) (number : Nat) (height : Int) :
    Except ProviderError (Bool × LightBlock) × Nat :=
  match answers number 0 with
  | .error error => (.error error, number + 1)
  | .ok latest =>
    if latest.height = height then (.ok (true, latest), number + 1)
    else if height < latest.height then
      match answers (number + 1) height with
      | .error error => (.error error, number + 2)
      | .ok block => (.ok (true, block), number + 2)
    else (.ok (false, latest), number + 1)

inductive Fetched where
  | block (block : LightBlock)
  /-- A lower block that is not earlier than the header. -/
  | laterBelow (block : LightBlock)
  | failed (error : ProviderError)
  | bad (error : ProviderError)
  deriving DecidableEq, Repr

def fetchFailed (error : ProviderError) : Fetched :=
  if providerShouldBeRemoved (.provider error) then .bad error else .failed error

def fetchToCompare (answers : Answers) (h : SignedHeader) : Fetched :=
  match answers 0 h.header.height with
  | .ok block => .block block
  | .error .noResponse => .failed .noResponse
  | .error .lightBlockNotFound => .failed .lightBlockNotFound
  | .error .deadlineExceeded => .failed .deadlineExceeded
  | .error .canceled => .failed .canceled
  | .error .heightTooHigh =>
    match getTargetBlockOrLatest answers 1 h.header.height with
    | (.error error, _) => fetchFailed error
    | (.ok (true, block), _) => .block block
    | (.ok (false, latest), number) =>
      if h.header.time ≤ latest.time then .laterBelow latest
      else match getTargetBlockOrLatest answers number h.header.height with
      | (.error error, _) => fetchFailed error
      | (.ok (true, block), _) => .block block
      | (.ok (false, latest), _) =>
        if h.header.time ≤ latest.time then .laterBelow latest else .failed .noResponse
  | .error error => .bad error

/-- What the task of a witness sends. After a conflicting header at the height of
the primary's the task does not return and sends that the headers match, too. -/
def compareNewHeaderWithWitness (hashing : Hashing) (answers : Answers) (h : SignedHeader)
    (witnessIndex : Nat) : List Comparison :=
  match fetchToCompare answers h with
  | .failed error => [.failed error]
  | .bad _ => [.badWitness witnessIndex]
  | .laterBelow block => [.conflictingHeaders block witnessIndex]
  | .block block =>
    if h.header.hash hashing ≠ block.hash hashing then
      [.conflictingHeaders block witnessIndex, .matched]
    else [.matched]

inductive ExamineError where
  | targetTooLow (target trusted : Int)
  | traceTooLate
  | examineTrace (error : ProviderError)
  | trustedDiffers (trusted source : Bytes)
  | verifySkipping (error : ClientError)
  | noDivergence
  deriving DecidableEq, Repr

def newLightClientAttackEvidence (conflicted trusted common : LightBlock) :
    Panics (Option LightClientAttackEvidence) := do
  let evidence : LightClientAttackEvidence := ⟨conflicted, 0, none, 0, zeroTime⟩
  let blamed := if evidence.conflictingHeaderIsInvalid trusted.header then common else trusted
  let total ← blamed.validatorSet.totalVotingPower
  let validators ← evidence.getByzantineValidators common.validatorSet trusted.signedHeader
  if validators.any Option.isNone then pure none
  else pure (some ⟨conflicted, blamed.height,
    if validators = [] then none else some (validators.filterMap id), total, blamed.time⟩)

def evidenceAgainst (trace : List LightBlock) (conflicted : LightBlock) :
    Panics (Option LightClientAttackEvidence) :=
  match trace.head?, trace.getLast? with
  | some common, some trusted => newLightClientAttackEvidence conflicted trusted common
  | _, _ => .error outOfRange

section

variable (env : Env) (world : World)

def sourceBlockAt (source : Provider) (targetBlock traceBlock : LightBlock) :
    Act Client (Except ProviderError LightBlock) :=
  if traceBlock.height = targetBlock.height then pure (.ok targetBlock)
  else getLightBlock world source traceBlock.height

/-- The loop of examineConflictingHeaderAgainstTrace after the first block of the
trace. The nil source trace is empty. -/
def examineRest (fuel : Nat) (targetBlock : LightBlock) (source : Provider) (now : Time) :
    List LightBlock → LightBlock → List LightBlock →
      Act Client (Except ExamineError (List LightBlock × LightBlock))
  | [], _, _ => pure (.error .noDivergence)
  | traceBlock :: rest, previouslyVerifiedBlock, sourceTrace =>
    if targetBlock.height < traceBlock.height then
      if targetBlock.time < traceBlock.time then pure (.error .traceTooLate)
      else if previouslyVerifiedBlock.height ≠ targetBlock.height then do
        match ← verifySkipping env world fuel source previouslyVerifiedBlock targetBlock now with
        | .error error => pure (.error (.verifySkipping error))
        | .ok sourceTrace => pure (.ok (sourceTrace, traceBlock))
      else pure (.ok (sourceTrace, traceBlock))
    else do
      match ← sourceBlockAt world source targetBlock traceBlock with
      | .error error => pure (.error (.examineTrace error))
      | .ok sourceBlock => do
        match ← verifySkipping env world fuel source previouslyVerifiedBlock sourceBlock now with
        | .error error => pure (.error (.verifySkipping error))
        | .ok sourceTrace =>
          if sourceBlock.hash env.hashing ≠ traceBlock.hash env.hashing then
            pure (.ok (sourceTrace, traceBlock))
          else examineRest fuel targetBlock source now rest sourceBlock sourceTrace

def examineConflictingHeaderAgainstTrace (fuel : Nat) (trace : List LightBlock)
    (targetBlock : LightBlock) (source : Provider) (now : Time) :
    Act Client (Except ExamineError (List LightBlock × LightBlock)) :=
  match trace with
  | [] => raise outOfRange
  | first :: rest =>
    if targetBlock.height < first.height then
      pure (.error (.targetTooLow targetBlock.height first.height))
    else do
      match ← sourceBlockAt world source targetBlock first with
      | .error error => pure (.error (.examineTrace error))
      | .ok sourceBlock =>
        if sourceBlock.hash env.hashing ≠ first.hash env.hashing then
          pure (.error (.trustedDiffers (first.hash env.hashing) (sourceBlock.hash env.hashing)))
        else examineRest env world fuel targetBlock source now rest sourceBlock []

def handleConflictingHeaders (fuel : Nat) (primaryTrace : List LightBlock)
    (challengingBlock : LightBlock) (witnessIndex : Nat) (now : Time) :
    Act Client (Option ClientError) := do
  let c ← get
  match c.witnesses[witnessIndex]? with
  | none => raise outOfRange
  | some supportingWitness => do
    match ← examineConflictingHeaderAgainstTrace env world fuel primaryTrace challengingBlock
        supportingWitness now with
    | .error _ => pure none
    | .ok (witnessTrace, primaryBlock) => do
      let _ ← lift (evidenceAgainst witnessTrace primaryBlock)
      -- Now the primary is held for right.
      match ← examineConflictingHeaderAgainstTrace env world fuel witnessTrace primaryBlock
          c.primary now with
      | .error _ => pure (some .lightClientAttack)
      | .ok (primaryTrace, witnessBlock) => do
        let _ ← lift (evidenceAgainst primaryTrace witnessBlock)
        pure (some .lightClientAttack)

def handleComparisons (handle : LightBlock → Nat → Panics (Option ClientError)) :
    Nat → List Comparison → Bool → List Nat → Act Client (Option ClientError)
  | 0, _, headerMatched, witnessesToRemove => do
    match ← removeWitnesses witnessesToRemove with
    | some error => pure (some error)
    | none => pure (if headerMatched then none else some .failedHeaderCrossReferencing)
  | _ + 1, [], _, _ => raise waiting
  | left + 1, result :: rest, headerMatched, witnessesToRemove =>
    match result with
    | .matched => handleComparisons handle left rest true witnessesToRemove
    | .conflictingHeaders block witnessIndex => do
      match ← lift (handle block witnessIndex) with
      | some error => pure (some error)
      | none =>
        handleComparisons handle left rest headerMatched (witnessesToRemove ++ [witnessIndex])
    | .badWitness witnessIndex =>
      handleComparisons handle left rest headerMatched (witnessesToRemove ++ [witnessIndex])
    | .failed .canceled => pure (some (.provider .canceled))
    | .failed .deadlineExceeded => pure (some (.provider .deadlineExceeded))
    | .failed _ => handleComparisons handle left rest headerMatched witnessesToRemove

/-- The answers of the providers during one call of detectDivergence, by the index
of the witness: to the comparison, and while its conflict is handled. -/
structure Replies where
  compared : Nat → Answers
  handled : Nat → World

def detectDivergenceIn (fuel : Nat) (replies : Replies) (primaryTrace : List LightBlock)
    (now : Time) (order : List (Nat × Comparison)) : Act Client (Option ClientError) := do
  if primaryTrace.length < 2 then pure (some (.text "nil or single block primary trace"))
  else do
    let c ← get
    if c.witnesses.length = 0 then pure (some .noWitnesses)
    else
      handleComparisons
        (fun block index =>
          (handleConflictingHeaders env (replies.handled index) fuel primaryTrace block index now
            c).1)
        c.witnesses.length (order.map Prod.snd) false []

end

end Tendermint.Light
