import Tendermint.Light.RPC
import Tendermint.State.Execution

/-!
light/rpc/client.go, BlockResults: the results of a block are checked against the header of
the next height. The client hashes three leaves, the executor the results of the
transactions. The events are kept in their encoded form.
-/

namespace Tendermint.Light.RPC

open Types
open Merkle (Hashing hashFromByteSlices)
open SM
open Wire (encodeFields)

structure ResultBlockResults where
  height : Int
  txsResults : List ResponseDeliverTx
  beginBlockEvents : List Bytes
  endBlockEvents : List Bytes
  deriving DecidableEq

inductive BlockResultsError where
  | client (error : ClientError)
  | lastResults (rH trusted : Bytes)
  deriving DecidableEq

def eventsBytes (number : Nat) (events : List Bytes) : Bytes :=
  encodeFields (events.map fun event => ⟨number, .bytes event⟩)

def bbeBytes (res : ResultBlockResults) : Bytes := eventsBytes 1 res.beginBlockEvents

def ebeBytes (res : ResultBlockResults) : Bytes := eventsBytes 3 res.endBlockEvents

def ResultBlockResults.leaves (hashing : Hashing) (res : ResultBlockResults) : List Bytes :=
  [bbeBytes res, hashFromByteSlices hashing (res.txsResults.map ResponseDeliverTx.marshal),
    ebeBytes res]

def Client.verifyBlockResults (client : Client) (h : Int) (res : ResultBlockResults) :
    Except BlockResultsError ResultBlockResults :=
  if res.height ≤ 0 then .error (.client .zeroOrNegativeHeight)
  else
    match client.verifyLightBlockAtHeight (h + 1) with
    | .error text => .error (.client (.lightClient text))
    | .ok trustedBlock =>
      let rH := hashFromByteSlices client.hashing (res.leaves client.hashing)
      if rH ≠ trustedBlock.header.lastResultsHash then
        .error (.lastResults rH trustedBlock.header.lastResultsHash)
      else .ok res

/-- `nextBlockResults` is what the full node answers to BlockResults. -/
def Client.blockResults (client : Client)
    (nextBlockResults : Int → Except String ResultBlockResults) (height : Option Int) :
    Except BlockResultsError ResultBlockResults := do
  let h ← match height, client.next.latestBlockHeight with
    | some h, _ => .ok h
    | none, .error text => .error (.client (.latestHeight text))
    | none, .ok latest => .ok (latest - 1)
  match nextBlockResults h with
  | .error text => .error (.client (.node text))
  | .ok res => client.verifyBlockResults h res

/-- The client holds the canonical header after this one, which fits the state that the
executor made of the responses, and the node answers what it stored. -/
structure HonestResults (env : SM.Env) (client : Client) (header : Header)
    (responses : ABCIResponses) (nextBlockResults : Int → Except String ResultBlockResults)
    (res : ResultBlockResults) : Prop where
  chain : ∃ state next blockID updates appHash nextHeader commit validators,
    updateState env.hashing state blockID header responses updates = .ok (.ok next) ∧
    { next with appHash }.validateHeader env nextHeader = none ∧
    client.verifyLightBlockAtHeight (header.height + 1) = .ok ⟨⟨nextHeader, commit⟩, validators⟩
  hashing : client.hashing = env.hashing
  positive : 0 < header.height
  answered : nextBlockResults header.height = .ok res
  height : res.height = header.height
  stored : res.txsResults = responses.deliverTxs

section

variable {env : SM.Env} {client : Client} {header : Header} {responses : ABCIResponses}
  {nextBlockResults : Int → Except String ResultBlockResults} {res : ResultBlockResults}

theorem HonestResults.accepted_iff
    (honest : HonestResults env client header responses nextBlockResults res) :
    client.blockResults nextBlockResults (some header.height) = .ok res ↔
      hashFromByteSlices env.hashing (res.leaves env.hashing) =
        hashFromByteSlices env.hashing (responses.deliverTxs.map ResponseDeliverTx.marshal) := by
  obtain ⟨state, next, blockID, updates, appHash, nextHeader, commit, validators, updated,
    follows, verified⟩ := honest.chain
  have trusted : nextHeader.lastResultsHash =
      hashFromByteSlices env.hashing (responses.deliverTxs.map ResponseDeliverTx.marshal) :=
    (validate_header_none_iff.mp follows).lastResultsHash.trans (updates_to updated).lastResultsHash
  have positive : ¬ res.height ≤ 0 := by
    rw [honest.height]
    exact not_le.mpr honest.positive
  simp only [Client.blockResults, bind_eq, honest.answered, Client.verifyBlockResults,
    if_neg positive, verified, honest.hashing, LightBlock.header, trusted]
  split
  · rename_i differ
    exact ⟨fun accepted => (by cases accepted), fun same => absurd same differ⟩
  · rename_i same
    exact ⟨fun _ => not_not.mp same, fun _ => rfl⟩

end

/-- The results of a block pass exactly if the encoded results of its transactions are the
three leaves of the client, of which one is the root of those results. -/
theorem honest_results_accepted_iff (env : SM.Env) (client : Client) (header : Header)
    (responses : ABCIResponses) (nextBlockResults : Int → Except String ResultBlockResults)
    (res : ResultBlockResults)
    (honest : HonestResults env client header responses nextBlockResults res)
    (sized : env.hashing.Sized)
    (apart : env.hashing.Apart (res.leaves env.hashing)
      (responses.deliverTxs.map ResponseDeliverTx.marshal)) :
    client.blockResults nextBlockResults (some header.height) = .ok res ↔
      res.leaves env.hashing = responses.deliverTxs.map ResponseDeliverTx.marshal := by
  rw [honest.accepted_iff]
  constructor
  · exact Merkle.hash_from_byte_slices_injective env.hashing sized apart
  · exact congrArg _

section OneResult

def oneResult : ABCIResponses := ⟨[⟨0, [7], 1, 1⟩], [], none⟩

def storedResults : ResultBlockResults := ⟨2, oneResult.deliverTxs, [], []⟩

def nextHeader : Header :=
  { sharedHeader with
    height := 3
    lastResultsHash := abciResponsesResultsHash valueHash oneResult }

def resultsClient : Client :=
  { replayedClient with
    verifyLightBlockAtHeight := fun _ => .ok ⟨⟨nextHeader, sharedCommit sharedBlockID⟩, sharedSet⟩ }

theorem one_result_honest : HonestResults sharedEnv resultsClient sharedHeader oneResult
    (fun _ => .ok storedResults) storedResults where
  chain :=
    ⟨sharedState, { sharedState with
        lastBlockHeight := 2
        lastBlockTime := 2000
        lastResultsHash := abciResponsesResultsHash valueHash oneResult },
      sharedBlockID, [], [], nextHeader, sharedCommit sharedBlockID, sharedSet,
      by rfl, by decide +kernel, rfl⟩
  hashing := rfl
  positive := by decide
  answered := rfl
  height := rfl
  stored := rfl

theorem one_result_refused :
    resultsClient.blockResults (fun _ => .ok storedResults) (some 2) ≠ .ok storedResults := by
  have refused := honest_results_accepted_iff sharedEnv resultsClient sharedHeader oneResult
    (fun _ => .ok storedResults) storedResults one_result_honest value_hash_sized
    (by decide +kernel)
  exact refused.not.mpr (by decide +kernel)

/-- The answer of an honest node for a block with one transaction and no events fails. -/
theorem stored_results_fail :
    HonestResults sharedEnv resultsClient sharedHeader oneResult (fun _ => .ok storedResults)
      storedResults ∧
    resultsClient.blockResults (fun _ => .ok storedResults) (some 2) =
      .error (.lastResults (hashFromByteSlices valueHash (storedResults.leaves valueHash))
        (abciResponsesResultsHash valueHash oneResult)) :=
  ⟨one_result_honest, by decide +kernel⟩

end OneResult

end Tendermint.Light.RPC
