import Tendermint.Lib.Program
import Tendermint.Light.Store
import Tendermint.Light.Verification

/-!
light/client.go: the light client with its providers and its trusted store, in
both verification modes. A provider may answer every request as it likes, so
the answers come from a `World` that is asked by the number of the request; the
order in which the witnesses answer is part of it. Loops without a bound of
their own run on fuel: one that has used it up goes on like a call that never
returns, and nothing happens after it. Logging, the locks and the creation of a
client are left out; the examination of a conflicting header is an answer of the
world.
-/

namespace Tendermint.Light

open Types
open Merkle (Hashing)
open Program (Act)
open Program.Act (get modify raise lift)

abbrev Provider := Nat

inductive ProviderError where
  | noResponse
  | lightBlockNotFound
  | heightTooHigh
  | connectionClosed
  | badLightBlock (text : String)
  | unreliableProvider (text : String)
  | canceled
  | deadlineExceeded
  | other (text : String)
  deriving DecidableEq, Repr

inductive ClientError where
  | text (text : String)
  | provider (error : ProviderError)
  | verify (error : VerifyError)
  | verificationFailed (source target : Int) (reason : ClientError)
  | noWitnesses
  | lightClientAttack
  | failedHeaderCrossReferencing
  deriving DecidableEq, Repr

inductive Comparison where
  | matched
  | conflictingHeaders (block : LightBlock) (witnessIndex : Nat)
  | badWitness (witnessIndex : Nat)
  | failed (error : ProviderError)
  deriving DecidableEq, Repr

inductive Mode where
  | sequential
  | skipping
  deriving DecidableEq, Repr

structure Config where
  trustingPeriod : Int
  verificationMode : Mode
  trustLevel : Fraction
  maxClockDrift : Int
  pruningSize : Nat
  deriving DecidableEq, Repr

/-- What is fixed for one client. -/
structure Env where
  crypto : Crypto
  hashing : Hashing
  config : Config

/-- The answers from outside, by the number of the request. -/
structure World where
  lightBlock : Nat → Provider → Int → Except ProviderError LightBlock
  /-- The answers of the witnesses with their indexes, in the order of arrival. -/
  responses : Nat → Int → List (Nat × Except ProviderError LightBlock)
  comparisons : Nat → SignedHeader → List Comparison
  /-- handleConflictingHeaders -/
  conflict : Nat → List LightBlock → LightBlock → Nat → Option ClientError

/-- How a block that was saved had been verified. -/
inductive Origin where
  | forward (trusted : LightBlock) (trace : List LightBlock) (now : Time)
  | backwards (trusted : Header)
  deriving DecidableEq, Repr

structure Saved where
  block : LightBlock
  origin : Origin
  deriving DecidableEq, Repr

structure Client where
  primary : Provider
  witnesses : List Provider
  trustedStore : Store
  latestTrustedBlock : Option LightBlock
  asked : Nat
  saved : List Saved
  deriving DecidableEq, Repr

/-- A client on a trusted store: restoreTrustedLightBlock takes the last block of
it. A new client has stored the block of its trust options. -/
def Client.restore (primary : Provider) (witnesses : List Provider) (store : Store) : Client :=
  ⟨primary, witnesses, store, store.blocks.getLast?, 0, []⟩

def nilDereference : String := "invalid memory address or nil pointer dereference"

def outOfRange : String := "index out of range"

def waiting : String := "the call has not returned"

def ask : Act Client Nat := do
  let c ← get
  modify fun c => { c with asked := c.asked + 1 }
  pure c.asked

def providerShouldBeRemoved : ClientError → Bool
  | .provider (.unreliableProvider _) | .provider (.badLightBlock _)
  | .provider .connectionClosed => true
  | _ => false

def swapRemove (witnesses : List Provider) (index : Nat) : Panics (List Provider) :=
  match witnesses.getLast? with
  | some last =>
    if index < witnesses.length then .ok (witnesses.set index last).dropLast
    else .error outOfRange
  | none => .error outOfRange

def removeWitnesses (indexes : List Nat) : Act Client (Option ClientError) := do
  let c ← get
  if c.witnesses.length ≤ indexes.length then pure (some .noWitnesses)
  else do
    let witnesses ← lift ((indexes.insertionSort (· ≥ ·)).foldlM swapRemove c.witnesses)
    modify fun c => { c with witnesses := witnesses }
    pure none

def promote (remove : Bool) (witnessIndex : Nat) (witnessesToRemove : List Nat)
    (block : LightBlock) : Act Client (Except ClientError LightBlock) := do
  modify fun c => { c with
    witnesses := if remove then c.witnesses else c.witnesses ++ [c.primary] }
  let c ← get
  match c.witnesses[witnessIndex]? with
  | none => raise outOfRange
  | some primary => do
    modify fun c => { c with primary := primary }
    match ← removeWitnesses (witnessesToRemove ++ [witnessIndex]) with
    | some error => pure (.error error)
    | none => pure (.ok block)

def processResponses (remove : Bool) : Nat → List (Nat × Except ProviderError LightBlock) →
    List Nat → Option ProviderError → Act Client (Except ClientError LightBlock)
  | 0, _, _, some error => pure (.error (.provider error))
  | 0, _, _, none => raise nilDereference
  | _ + 1, [], _, _ => raise waiting
  | left + 1, (witnessIndex, answer) :: rest, witnessesToRemove, _ =>
    match answer with
    | .ok block => promote remove witnessIndex witnessesToRemove block
    | .error .canceled => pure (.error (.provider .canceled))
    | .error .deadlineExceeded => pure (.error (.provider .deadlineExceeded))
    | .error .noResponse =>
      processResponses remove left rest witnessesToRemove (some .noResponse)
    | .error .lightBlockNotFound =>
      processResponses remove left rest witnessesToRemove (some .lightBlockNotFound)
    | .error .heightTooHigh =>
      processResponses remove left rest witnessesToRemove (some .heightTooHigh)
    | .error error =>
      processResponses remove left rest (witnessesToRemove ++ [witnessIndex]) (some error)

def processComparisons (conflict : LightBlock → Nat → Option ClientError) :
    Nat → List Comparison → Bool → List Nat → Act Client (Option ClientError)
  | 0, _, headerMatched, witnessesToRemove => do
    match ← removeWitnesses witnessesToRemove with
    | some error => pure (some error)
    | none => pure (if headerMatched then none else some .failedHeaderCrossReferencing)
  | _ + 1, [], _, _ => raise waiting
  | left + 1, result :: rest, headerMatched, witnessesToRemove =>
    match result with
    | .matched => processComparisons conflict left rest true witnessesToRemove
    | .conflictingHeaders block witnessIndex =>
      match conflict block witnessIndex with
      | some error => pure (some error)
      | none =>
        processComparisons conflict left rest headerMatched (witnessesToRemove ++ [witnessIndex])
    | .badWitness witnessIndex =>
      processComparisons conflict left rest headerMatched (witnessesToRemove ++ [witnessIndex])
    | .failed .canceled => pure (some (.provider .canceled))
    | .failed .deadlineExceeded => pure (some (.provider .deadlineExceeded))
    | .failed _ => processComparisons conflict left rest headerMatched witnessesToRemove

inductive FirstHeaderError where
  | conflictingHeaders (block : LightBlock) (witnessIndex : Nat)
  | client (error : ClientError)
  deriving DecidableEq, Repr

def processFirstComparisons : Nat → List Comparison → List Nat →
    Act Client (Option FirstHeaderError)
  | 0, _, witnessesToRemove => do
    match ← removeWitnesses witnessesToRemove with
    | some error => pure (some (.client error))
    | none => pure none
  | _ + 1, [], _ => raise waiting
  | left + 1, result :: rest, witnessesToRemove =>
    match result with
    | .matched => processFirstComparisons left rest witnessesToRemove
    | .conflictingHeaders block witnessIndex =>
      pure (some (.conflictingHeaders block witnessIndex))
    | .badWitness witnessIndex =>
      processFirstComparisons left rest (witnessesToRemove ++ [witnessIndex])
    | .failed .canceled => pure (some (.client (.provider .canceled)))
    | .failed .deadlineExceeded => pure (some (.client (.provider .deadlineExceeded)))
    | .failed _ => processFirstComparisons left rest witnessesToRemove

def schedule (lastVerifiedHeight lastFailedHeight : Int) : Int :=
  int64 (lastVerifiedHeight + (int64 (int64 (lastFailedHeight - lastVerifiedHeight) * 9)).tdiv 16)

inductive Retry where
  | give (error : ClientError)
  | replace (remove : Bool)
  deriving DecidableEq, Repr

def retryAfter (newLightBlock : LightBlock) (source target : Int) (reason : ClientError) : Retry :=
  match reason with
  | .verify (.invalidHeader _) =>
    if target = newLightBlock.height then .give (.verificationFailed source target reason)
    else .replace true
  | .verify (.oldHeaderExpired _ _) => .give (.verificationFailed source target reason)
  | .provider .canceled | .provider .deadlineExceeded => .give reason
  | _ => .replace (providerShouldBeRemoved reason)

section

variable (env : Env) (world : World)

def getLightBlock (source : Provider) (height : Int) :
    Act Client (Except ProviderError LightBlock) := do
  let number ← ask
  pure (world.lightBlock number source height)

def findNewPrimary (height : Int) (remove : Bool) :
    Act Client (Except ClientError LightBlock) := do
  let c ← get
  if c.witnesses.length < 1 then pure (.error .noWitnesses)
  else do
    let number ← ask
    processResponses remove c.witnesses.length (world.responses number height) [] none

def lightBlockFromPrimary (height : Int) : Act Client (Except ClientError LightBlock) := do
  let c ← get
  match ← getLightBlock world c.primary height with
  | .ok block => pure (.ok block)
  | .error .canceled => pure (.error (.provider .canceled))
  | .error .deadlineExceeded => pure (.error (.provider .deadlineExceeded))
  | .error .noResponse | .error .lightBlockNotFound | .error .heightTooHigh =>
    findNewPrimary world height false
  | .error _ => findNewPrimary world height true

def detectDivergence (primaryTrace : List LightBlock) : Act Client (Option ClientError) := do
  match primaryTrace.getLast? with
  | none => pure (some (.text "nil or single block primary trace"))
  | some last =>
    if primaryTrace.length < 2 then pure (some (.text "nil or single block primary trace"))
    else do
      let c ← get
      if c.witnesses.length = 0 then pure (some .noWitnesses)
      else do
        let number ← ask
        processComparisons (world.conflict number primaryTrace) c.witnesses.length
          (world.comparisons number last.signedHeader) false []

def compareFirstHeaderWithWitnesses (header : SignedHeader) :
    Act Client (Option FirstHeaderError) := do
  let c ← get
  if c.witnesses.length < 1 then pure (some (.client .noWitnesses))
  else do
    let number ← ask
    processFirstComparisons c.witnesses.length (world.comparisons number header) []

def verifyLink (trusted untrusted : LightBlock) (now : Time) : Panics (Option VerifyError) :=
  verify env.crypto env.hashing trusted.signedHeader trusted.validatorSet untrusted.signedHeader
    untrusted.validatorSet env.config.trustingPeriod now env.config.maxClockDrift
    env.config.trustLevel

def verifyAdjacentLink (trusted untrusted : LightBlock) (now : Time) :
    Panics (Option VerifyError) :=
  verifyAdjacent env.crypto env.hashing trusted.signedHeader untrusted.signedHeader
    untrusted.validatorSet env.config.trustingPeriod now env.config.maxClockDrift

def interimLightBlock (newLightBlock : LightBlock) (height : Int) :
    Act Client (Except ClientError LightBlock) :=
  if height = newLightBlock.height then pure (.ok newLightBlock)
  else lightBlockFromPrimary world height

def sequentialLoop (newLightBlock : LightBlock) (now : Time) :
    Nat → Int → LightBlock → List LightBlock → Act Client (Except ClientError (List LightBlock))
  | 0, _, _, _ => raise waiting
  | fuel + 1, height, verifiedBlock, trace =>
    if newLightBlock.height < height then pure (.ok trace)
    else do
      match ← interimLightBlock world newLightBlock height with
      | .error reason => pure (.error (.verificationFailed verifiedBlock.height height reason))
      | .ok interimBlock => do
        match ← lift (verifyAdjacentLink env verifiedBlock interimBlock now) with
        | none =>
          sequentialLoop newLightBlock now fuel (height + 1) interimBlock (trace ++ [interimBlock])
        | some reason => do
          let failure : ClientError :=
            .verificationFailed verifiedBlock.height interimBlock.height (.verify reason)
          match reason with
          | .invalidHeader _ =>
            if interimBlock.height = newLightBlock.height then pure (.error failure)
            else do
              match ← findNewPrimary world newLightBlock.height true with
              | .error _ => pure (.error failure)
              | .ok replacementBlock =>
                if replacementBlock.hash env.hashing ≠ newLightBlock.hash env.hashing then
                  pure (.error failure)
                -- The height is tried again with the new primary.
                else sequentialLoop newLightBlock now fuel height verifiedBlock trace
          | _ => pure (.error failure)

def verifySequential (fuel : Nat) (trustedBlock newLightBlock : LightBlock) (now : Time) :
    Act Client (Except ClientError (List LightBlock)) := do
  match ← sequentialLoop env world newLightBlock now fuel (trustedBlock.height + 1) trustedBlock
      [trustedBlock] with
  | .error error => pure (.error error)
  | .ok trace => do
    match ← detectDivergence world trace with
    | some error => pure (.error error)
    | none => pure (.ok trace)

/-- The loop of verifySkipping: the blocks asked for so far are ordered from the
highest to the lowest. -/
def skippingLoop (source : Provider) (newLightBlock : LightBlock) (now : Time) :
    Nat → List LightBlock → Nat → LightBlock → List LightBlock →
      Act Client (Except ClientError (List LightBlock))
  | 0, _, _, _, _ => raise waiting
  | fuel + 1, blockCache, depth, verifiedBlock, trace =>
    match blockCache[depth]? with
    | none => raise outOfRange
    | some candidate => do
      match ← lift (verifyLink env verifiedBlock candidate now) with
      | none =>
        if depth = 0 then pure (.ok (trace ++ [newLightBlock]))
        else
          skippingLoop source newLightBlock now fuel (blockCache.take depth) 0 candidate
            (trace ++ [candidate])
      | some (.newValSetCantBeTrusted _ _) =>
        if depth = blockCache.length - 1 then do
          let pivotHeight := schedule verifiedBlock.height candidate.height
          match ← getLightBlock world source pivotHeight with
          | .error error =>
            pure (.error (.verificationFailed verifiedBlock.height pivotHeight (.provider error)))
          | .ok interimBlock =>
            skippingLoop source newLightBlock now fuel (blockCache ++ [interimBlock])
              (depth + 1) verifiedBlock trace
        else skippingLoop source newLightBlock now fuel blockCache (depth + 1) verifiedBlock trace
      | some error =>
        pure (.error (.verificationFailed verifiedBlock.height candidate.height (.verify error)))

def verifySkipping (fuel : Nat) (source : Provider) (trustedBlock newLightBlock : LightBlock)
    (now : Time) : Act Client (Except ClientError (List LightBlock)) :=
  skippingLoop env world source newLightBlock now fuel [newLightBlock] 0 trustedBlock [trustedBlock]

def verifySkippingAgainstPrimary (trustedBlock : LightBlock) (now : Time) :
    Nat → LightBlock → Act Client (Except ClientError (List LightBlock))
  | 0, _ => raise waiting
  | fuel + 1, newLightBlock => do
    let c ← get
    match ← verifySkipping env world fuel c.primary trustedBlock newLightBlock now with
    | .ok trace => do
      match ← detectDivergence world trace with
      | some error => pure (.error error)
      | none => pure (.ok trace)
    | .error (.verificationFailed source target reason) =>
      match retryAfter newLightBlock source target reason with
      | .give error => pure (.error error)
      | .replace remove => do
        match ← findNewPrimary world newLightBlock.height remove with
        | .error _ => pure (.error reason)
        | .ok replacementBlock =>
          if replacementBlock.hash env.hashing ≠ newLightBlock.hash env.hashing then
            pure (.error reason)
          else verifySkippingAgainstPrimary trustedBlock now fuel replacementBlock
    | .error error => pure (.error error)

def verifyFunc (fuel : Nat) (trustedBlock newLightBlock : LightBlock) (now : Time) :
    Act Client (Except ClientError (List LightBlock)) :=
  match env.config.verificationMode with
  | .sequential => verifySequential env world fuel trustedBlock newLightBlock now
  | .skipping => verifySkippingAgainstPrimary env world trustedBlock now fuel newLightBlock

def backwards : Nat → Header → Header → Act Client (Option ClientError)
  | 0, _, _ => raise waiting
  | fuel + 1, verifiedHeader, newHeader =>
    if verifiedHeader.height ≤ newHeader.height then pure none
    else do
      match ← lightBlockFromPrimary world (verifiedHeader.height - 1) with
      | .error error => pure (some error)
      | .ok interimBlock =>
        match verifyBackwards env.hashing interimBlock.header verifiedHeader with
        | none => backwards fuel interimBlock.header newHeader
        | some fault => do
          match ← findNewPrimary world newHeader.height true with
          | .error _ => pure (some (.verify (.invalidHeader fault)))
          | .ok newPrimarysBlock =>
            if newPrimarysBlock.hash env.hashing ≠ newHeader.hash env.hashing then
              pure (some (.verify (.invalidHeader fault)))
            else backwards fuel verifiedHeader newPrimarysBlock.header

def updateTrustedLightBlock (block : LightBlock) (origin : Origin) : Act Client Unit := do
  let c ← get
  let store ← lift (c.trustedStore.saveLightBlock block)
  modify fun c => { c with
    trustedStore := if 0 < env.config.pruningSize then store.prune env.config.pruningSize else store
    latestTrustedBlock := if c.latestTrustedBlock.all (·.height < block.height) then some block
      else c.latestTrustedBlock
    saved := c.saved ++ [⟨block, origin⟩] }

def verifyForward (fuel : Nat) (trustedBlock newLightBlock : LightBlock) (now : Time) :
    Act Client (Option ClientError) := do
  match ← verifyFunc env world fuel trustedBlock newLightBlock now with
  | .error error => pure (some error)
  | .ok trace => do
    updateTrustedLightBlock env newLightBlock (.forward trustedBlock trace now)
    pure none

def verifyLightBlock (fuel : Nat) (newLightBlock : LightBlock) (now : Time) :
    Act Client (Option ClientError) := do
  let c ← get
  match c.latestTrustedBlock with
  | none => raise nilDereference
  | some latest =>
    let firstBlockHeight := c.trustedStore.firstLightBlockHeight
    if latest.height ≤ newLightBlock.height then
      verifyForward env world fuel latest newLightBlock now
    else if newLightBlock.height < firstBlockHeight then do
      match ← lift (c.trustedStore.lightBlock firstBlockHeight) with
      | none => pure (some (.text "can't get first light block"))
      | some firstBlock => do
        match ← backwards env world fuel firstBlock.header newLightBlock.header with
        | some error => pure (some error)
        | none => do
          updateTrustedLightBlock env newLightBlock (.backwards firstBlock.header)
          pure none
    else do
      match ← lift (c.trustedStore.lightBlockBefore newLightBlock.height) with
      | none => pure (some (.text "can't get signed header before height"))
      | some closestBlock => verifyForward env world fuel closestBlock newLightBlock now

/-- TrustedLightBlock: the error texts are left out. -/
def trustedLightBlock (store : Store) (height : Int) : Panics (Option LightBlock) :=
  let latestHeight := store.lastLightBlockHeight
  if latestHeight = -1 then .ok none
  else if latestHeight < height then .ok none
  else if height = 0 then store.lightBlock latestHeight
  else if height < 0 then .ok none
  else store.lightBlock height

def update (fuel : Nat) (now : Time) : Act Client (Except ClientError (Option LightBlock)) := do
  let c ← get
  let lastTrustedHeight := c.trustedStore.lastLightBlockHeight
  if lastTrustedHeight = -1 then pure (.ok none)
  else do
    match ← lightBlockFromPrimary world 0 with
    | .error error => pure (.error error)
    | .ok latestBlock =>
      if lastTrustedHeight < latestBlock.height then do
        match ← verifyLightBlock env world fuel latestBlock now with
        | some error => pure (.error error)
        | none => pure (.ok (some latestBlock))
      else pure (.ok c.latestTrustedBlock)

def verifyLightBlockAtHeight (fuel : Nat) (height : Int) (now : Time) :
    Act Client (Except ClientError LightBlock) := do
  if height ≤ 0 then pure (.error (.text "negative or zero height"))
  else do
    let c ← get
    match ← lift (trustedLightBlock c.trustedStore height) with
    | some known => pure (.ok known)
    | none => do
      match ← lightBlockFromPrimary world height with
      | .error error => pure (.error error)
      | .ok block => do
        match ← verifyLightBlock env world fuel block now with
        | some error => pure (.error error)
        | none => pure (.ok block)

def verifyHeader (fuel : Nat) (newHeader : Header) (now : Time) :
    Act Client (Option ClientError) := do
  if newHeader.height ≤ 0 then pure (some (.text "negative or zero height"))
  else do
    let c ← get
    match ← lift (trustedLightBlock c.trustedStore newHeader.height) with
    | some known =>
      if known.hash env.hashing ≠ newHeader.hash env.hashing then
        pure (some (.text "existing trusted header does not match newHeader"))
      else pure none
    | none => do
      match ← lightBlockFromPrimary world newHeader.height with
      | .error error => pure (some error)
      | .ok block =>
        if block.hash env.hashing ≠ newHeader.hash env.hashing then
          pure (some (.text "header from primary does not match newHeader"))
        else verifyLightBlock env world fuel block now

def addProvider (provider : Provider) : Act Client Unit :=
  modify fun c => { c with witnesses := c.witnesses ++ [provider] }

def cleanup : Act Client Unit :=
  modify fun c => { c with latestTrustedBlock := none, trustedStore := c.trustedStore.prune 0 }

inductive Operation where
  | update (now : Time)
  | verifyLightBlockAtHeight (height : Int) (now : Time)
  | verifyHeader (newHeader : Header) (now : Time)
  | addProvider (provider : Provider)
  | cleanup
  deriving DecidableEq, Repr

def perform (fuel : Nat) : Operation → Act Client Unit
  | .update now => do
    let _ ← update env world fuel now
    pure ()
  | .verifyLightBlockAtHeight height now => do
    let _ ← verifyLightBlockAtHeight env world fuel height now
    pure ()
  | .verifyHeader newHeader now => do
    let _ ← verifyHeader env world fuel newHeader now
    pure ()
  | .addProvider provider => addProvider provider
  | .cleanup => cleanup

/-- A run of the client, with the fuel of each call; it stops at a panic and at a
call that does not return. -/
def runOperations : List (Nat × Operation) → Act Client Unit
  | [] => pure ()
  | (fuel, operation) :: rest => do
    perform env world fuel operation
    runOperations rest

end

end Tendermint.Light
