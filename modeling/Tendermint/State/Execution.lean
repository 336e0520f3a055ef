import Tendermint.State.Validation

/-!
internal/state/execution.go: the update of the state by a block and the answers of
the application. The responses keep what the update and its hash read. A failure
of the connection to the application or of a store ends `ApplyBlock` before the
state changes and is left out, as are the events and the pruning after it.
-/

namespace Tendermint.SM

open Types
open Merkle (Hashing hashFromByteSlices)
open Wire (encodeFields)

structure ResponseDeliverTx where
  code : Nat
  data : Bytes
  gasWanted : Int
  gasUsed : Int
  deriving DecidableEq, Repr

/-- The encoding of a result without its nondeterministic fields. -/
def ResponseDeliverTx.marshal (response : ResponseDeliverTx) : Bytes :=
  encodeFields (uintField 1 response.code ++ bytesField 2 response.data ++
    int64Field 5 response.gasWanted ++ int64Field 6 response.gasUsed)

/-- A validator as the application names it; the key is what `PubKeyFromProto`
makes of it. -/
structure ValidatorUpdate where
  pubKey : Except String PubKey
  power : Int

structure ABCIResponses where
  deliverTxs : List ResponseDeliverTx
  validatorUpdates : List ValidatorUpdate
  consensusParamUpdates : Option ConsensusParamsUpdate

def abciResponsesResultsHash (hashing : Hashing) (responses : ABCIResponses) : Bytes :=
  hashFromByteSlices hashing (responses.deliverTxs.map ResponseDeliverTx.marshal)

def keyTypeName : KeyType → String
  | .ed25519 => "ed25519"
  | .sr25519 => "sr25519"
  | .secp256k1 => "secp256k1"

inductive UpdateError where
  | negativePower (power : Int)
  | pubKey (text : String)
  | keyType (name : String)
  | validatorSet (error : ValidatorSet.ChangeSetError)
  | consensusParams (text : String)
  deriving DecidableEq, Repr

def validateValidatorUpdates (params : ValidatorParams) :
    List ValidatorUpdate → Except UpdateError Unit
  | [] => .ok ()
  | update :: rest =>
    if update.power < 0 then .error (.negativePower update.power)
    -- a removal needs no key of a known type
    else if update.power = 0 then validateValidatorUpdates params rest
    else match update.pubKey with
    | .error text => .error (.pubKey text)
    | .ok pubKey =>
      if keyTypeName pubKey.keyType ∈ params.pubKeyTypes then validateValidatorUpdates params rest
      else .error (.keyType (keyTypeName pubKey.keyType))

def validatorUpdates (crypto : Crypto) (updates : List ValidatorUpdate) :
    Except UpdateError (List Validator) :=
  updates.mapM fun update => match update.pubKey with
    | .error text => .error (.pubKey text)
    | .ok pubKey => .ok (Validator.new crypto pubKey update.power)

def State.nextValidatorSet (state : State) (height : Int) (updates : List Validator) :
    Panics (Except UpdateError (ValidatorSet × Int)) :=
  if updates.isEmpty then do
    let next ← state.nextValidators.incrementProposerPriority 1
    pure (.ok (next, state.lastHeightValidatorsChanged))
  else do
    match ← state.nextValidators.updateWithChangeSet updates true with
    | (some error, _) => pure (.error (.validatorSet error))
    | (none, changed) =>
      let next ← changed.incrementProposerPriority 1
      pure (.ok (next, height + 1 + 1))

def State.nextConsensusParams (state : State) (height : Int)
    (update : Option ConsensusParamsUpdate) :
    Except UpdateError (ConsensusParams × Int × Version) :=
  match update with
  | none => .ok (state.consensusParams, state.lastHeightConsensusParamsChanged, state.version)
  | some _ =>
    let nextParams := state.consensusParams.updateConsensusParams update
    match nextParams.validateConsensusParams with
    | some text => .error (.consensusParams text)
    | none => .ok (nextParams, height + 1, { state.version with
        consensus := { state.version.consensus with app := nextParams.version.appVersion } })

def updateState (hashing : Hashing) (state : State) (blockID : BlockID) (header : Header)
    (responses : ABCIResponses) (updates : List Validator) : Panics (Except UpdateError State) := do
  match ← state.nextValidatorSet header.height updates with
  | .error error => pure (.error error)
  | .ok (nextValidators, lastHeightValsChanged) =>
    match state.nextConsensusParams header.height responses.consensusParamUpdates with
    | .error error => pure (.error error)
    | .ok (nextParams, lastHeightParamsChanged, nextVersion) =>
      pure (.ok {
        version := nextVersion
        chainID := state.chainID
        initialHeight := state.initialHeight
        lastBlockHeight := header.height
        lastBlockID := blockID
        lastBlockTime := header.time
        nextValidators := nextValidators
        validators := state.nextValidators
        lastValidators := state.validators
        lastHeightValidatorsChanged := lastHeightValsChanged
        consensusParams := nextParams
        lastHeightConsensusParamsChanged := lastHeightParamsChanged
        lastResultsHash := abciResponsesResultsHash hashing responses
        appHash := [] })

/-- What a height of the chain decided: the block with its ID, what the evidence pool
finds by then, and the answers of the application to its execution and its commit. -/
structure Decision where
  blockID : BlockID
  block : Block
  evidenceFault : Option String
  responses : ABCIResponses
  appHash : Bytes

inductive ApplyError where
  | invalidBlock (error : ValidationError)
  | evidence (text : String)
  | update (error : UpdateError)
  deriving DecidableEq, Repr

/-- `ApplyBlock` without the cache of validated blocks. -/
def State.applyBlock (env : Env) (state : State) (decision : Decision) :
    Panics (Except ApplyError State) := do
  match ← state.validateBlock env decision.block with
  | some error => pure (.error (.invalidBlock error))
  | none =>
    match decision.evidenceFault with
    | some text => pure (.error (.evidence text))
    | none =>
      match validateValidatorUpdates state.consensusParams.validator
          decision.responses.validatorUpdates with
      | .error error => pure (.error (.update error))
      | .ok _ =>
        match validatorUpdates env.crypto decision.responses.validatorUpdates with
        | .error error => pure (.error (.update error))
        | .ok updates =>
          match ← updateState env.hashing state decision.blockID decision.block.header
              decision.responses updates with
          | .error error => pure (.error (.update error))
          | .ok next => pure (.ok { next with appHash := decision.appHash })

def State.replay (env : Env) : State → List Decision → Panics (Except ApplyError State)
  | state, [] => .ok (.ok state)
  | state, decision :: rest => do
    match ← state.applyBlock env decision with
    | .error error => pure (.error error)
    | .ok next => State.replay env next rest

section

variable {env : Env} {state next final : State} {decision : Decision}

structure AppliedBy (env : Env) (state : State) (decision : Decision) (next : State)
    (updates : List Validator) : Prop where
  valid : state.validateBlock env decision.block = .ok none
  checked : decision.evidenceFault = none
  converted : validatorUpdates env.crypto decision.responses.validatorUpdates = .ok updates
  updated : updateState env.hashing state decision.blockID decision.block.header
    decision.responses updates = .ok (.ok { next with appHash := [] })
  appHash : next.appHash = decision.appHash

structure UpdatesTo (hashing : Hashing) (state : State) (blockID : BlockID) (header : Header)
    (responses : ABCIResponses) (updates : List Validator) (next : State) : Prop where
  validatorSet : state.nextValidatorSet header.height updates =
    .ok (.ok (next.nextValidators, next.lastHeightValidatorsChanged))
  params : state.nextConsensusParams header.height responses.consensusParamUpdates =
    .ok (next.consensusParams, next.lastHeightConsensusParamsChanged, next.version)
  chainID : next.chainID = state.chainID
  initialHeight : next.initialHeight = state.initialHeight
  lastBlockHeight : next.lastBlockHeight = header.height
  lastBlockID : next.lastBlockID = blockID
  lastBlockTime : next.lastBlockTime = header.time
  validators : next.validators = state.nextValidators
  lastValidators : next.lastValidators = state.validators
  lastResultsHash : next.lastResultsHash = abciResponsesResultsHash hashing responses
  appHash : next.appHash = []

theorem updates_to {hashing : Hashing} {blockID : BlockID} {header : Header}
    {responses : ABCIResponses} {updates : List Validator}
    (updated : updateState hashing state blockID header responses updates = .ok (.ok next)) :
    UpdatesTo hashing state blockID header responses updates next := by
  unfold updateState at updated
  obtain ⟨result, chosen, updated⟩ := bind_ok.mp updated
  cases result with
  | error error => simp [chosen] at updated
  | ok pair =>
  cases given : state.nextConsensusParams header.height responses.consensusParamUpdates with
  | error error => simp [chosen, given] at updated
  | ok triple =>
    simp only [chosen, given, bind_eq, pure_eq, Except.ok.injEq] at updated
    subst updated
    exact ⟨chosen, given, rfl, rfl, rfl, rfl, rfl, rfl, rfl, rfl, rfl⟩

theorem applied_by (applied : state.applyBlock env decision = .ok (.ok next)) :
    ∃ updates, AppliedBy env state decision next updates := by
  unfold State.applyBlock at applied
  obtain ⟨verdict, valid, applied⟩ := bind_ok.mp applied
  cases verdict with
  | some error => simp [valid] at applied
  | none =>
  cases checked : decision.evidenceFault with
  | some text => simp [valid, checked] at applied
  | none =>
  cases typed : validateValidatorUpdates state.consensusParams.validator
      decision.responses.validatorUpdates with
  | error error => simp [valid, checked, typed] at applied
  | ok _ =>
  cases converted : validatorUpdates env.crypto decision.responses.validatorUpdates with
  | error error =>
    simp [valid, checked, typed, converted] at applied
  | ok updates =>
  simp only [valid, checked, typed, converted, bind_eq, pure_eq] at applied
  obtain ⟨result, updated, applied⟩ := bind_ok.mp applied
  cases result with
  | error error => simp [updated] at applied
  | ok bare =>
  simp only [updated, Except.ok.injEq] at applied
  subst applied
  have empty := (updates_to updated).appHash
  exact ⟨updates, valid, checked, converted, by simpa [← empty] using updated, rfl⟩

theorem next_consensus_params_eq {height : Int} {update : Option ConsensusParamsUpdate}
    {params : ConsensusParams} {changed : Int} {version : Version}
    (given : state.nextConsensusParams height update = .ok (params, changed, version)) :
    params = state.consensusParams.updateConsensusParams update := by
  cases update with
  | none =>
    cases given
    rfl
  | some update =>
  simp only [State.nextConsensusParams] at given
  split at given
  · cases given
  · cases given
    rfl

namespace AppliedBy

variable {updates : List Validator} (applied : AppliedBy env state decision next updates)
include applied

theorem fits : state.Fits env decision.block.header := (valid_basic_and_header applied.valid).2

theorem last_block_height : next.lastBlockHeight = decision.block.header.height :=
  (updates_to applied.updated).lastBlockHeight

theorem height_pos : 0 < decision.block.header.height :=
  valid_height_pos (valid_basic_and_header applied.valid).1

theorem consensus_params : next.consensusParams =
    state.consensusParams.updateConsensusParams decision.responses.consensusParamUpdates :=
  next_consensus_params_eq (updates_to applied.updated).params

end AppliedBy

theorem replay_cons {rest : List Decision}
    (replayed : state.replay env (decision :: rest) = .ok (.ok final)) :
    ∃ next, state.applyBlock env decision = .ok (.ok next) ∧
      next.replay env rest = .ok (.ok final) := by
  cases applied : state.applyBlock env decision with
  | error text => simp [State.replay, applied] at replayed
  | ok result =>
  cases result with
  | error error => simp [State.replay, applied] at replayed
  | ok next =>
    refine ⟨next, rfl, ?_⟩
    simpa [State.replay, applied] using replayed

theorem replay_singleton (replayed : state.replay env [decision] = .ok (.ok final)) :
    state.applyBlock env decision = .ok (.ok final) := by
  obtain ⟨next, applied, done⟩ := replay_cons replayed
  cases done
  exact applied

theorem replay_append (past rest : List Decision)
    (replayed : state.replay env (past ++ rest) = .ok (.ok final)) :
    ∃ between, state.replay env past = .ok (.ok between) ∧
      between.replay env rest = .ok (.ok final) := by
  induction past generalizing state with
  | nil => exact ⟨state, rfl, replayed⟩
  | cons decision past ih =>
  obtain ⟨next, applied, later⟩ := replay_cons replayed
  obtain ⟨between, first, second⟩ := ih later
  refine ⟨between, ?_, second⟩
  simpa [State.replay, applied] using first

end

end Tendermint.SM
