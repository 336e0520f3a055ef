import Tendermint.Consensus.State
import Tendermint.Store.BlockStore
import Tendermint.StateSync.StateProvider
import Tendermint.Types.LightCommit

/-!
internal/blocksync/v0/reactor.go: the routine that stores and applies the blocks of
the pool, and the end of internal/statesync/reactor.go: the state and the commit
that a node has after a state sync. Which blocks the pool has next is up to the
peers. The requests to the peers and the backfill of light blocks are left out.
-/

namespace Tendermint.BlockSync

open Types
open SM
open BlockStore (Db)
open StateSync (StateProviderP2P StateError)

structure Env where
  exec : SM.Env
  unmarshalBlock : Bytes → Except String Block

def Env.store (env : Env) : BlockStore.Env := ⟨env.exec.hashing, env.unmarshalBlock⟩

structure Node where
  state : State
  db : Db
  deriving DecidableEq

/-- The two blocks that the pool has next, and what the evidence pool and the
application answer if the first is applied. -/
structure Pair where
  first : Block
  second : Block
  evidenceFault : Option String
  responses : ABCIResponses
  appHash : Bytes

def Pair.firstParts (env : Env) (pair : Pair) : PartSet :=
  .newFromData env.exec.hashing pair.first.marshal blockPartSizeBytes

def Pair.firstID (env : Env) (pair : Pair) : BlockID :=
  ⟨pair.first.hash env.exec.hashing, (pair.firstParts env).header⟩

namespace Node

variable (env : Env)

def trySync (chainID : ChainID) (node : Node) (pair : Pair) : Panics Node := do
  match ← verifyCommitLight env.exec.crypto chainID node.state.validators (pair.firstID env)
      pair.first.header.height pair.second.lastCommit with
  -- both blocks are requested again
  | some _ => pure node
  | none =>
    let db ← BlockStore.saveBlock env.store node.db
      ⟨pair.first, pair.firstParts env, pair.second.lastCommit⟩
    match ← node.state.applyBlock env.exec
        ⟨pair.firstID env, pair.first, pair.evidenceFault, pair.responses, pair.appHash⟩ with
    | .error _ => throw "failed to process committed block"
    | .ok state => pure ⟨state, db⟩

def poolRoutine (chainID : ChainID) : Node → List Pair → Panics Node
  | node, [] => .ok node
  | node, pair :: rest => do poolRoutine chainID (← node.trySync env chainID pair) rest

/-- `Sync` for the snapshot of a height, with `SaveSeenCommit` at its end. -/
def stateSync (provider : StateProviderP2P) (consensusParams : Int → Except String ConsensusParams)
    (height : Nat) (db : Db) : Except StateError Node := do
  let _ ← provider.appHash height
  let state ← provider.state env.exec.hashing consensusParams height
  let commit ← provider.commit height
  pure ⟨state, Database.set db .seenCommit (.commit commit)⟩

def reconstructLastCommit (out : Consensus.Outcomes) (node : Node) : Panics VoteSet := do
  let seen ← BlockStore.loadSeenCommit node.db
  let height := node.state.lastBlockHeight
  let block ← if seen.any fun commit => commit.height == height then pure none
    else BlockStore.loadBlockCommit node.db height
  Consensus.reconstructLastCommit env.exec.crypto
    { out with loadSeenCommit := seen, loadBlockCommit := fun _ => block } node.state

/-- The store has a commit for the last block that the light loop accepted. -/
structure Seen (node : Node) (commit : Commit) : Prop where
  stored : Database.get node.db .seenCommit = some (.commit commit)
  decodes : commit.decodeFault = none
  accepted : ∃ blockID, verifyCommitLight env.exec.crypto node.state.chainID
    node.state.lastValidators blockID node.state.lastBlockHeight commit = .ok none

variable {env}

variable {node : Node}

theorem Seen.height {commit : Commit} (seen : node.Seen env commit) :
    commit.height = node.state.lastBlockHeight := by
  obtain ⟨blockID, accepted⟩ := seen.accepted
  have basic : verifyBasicValsAndCommit node.state.lastValidators commit
      node.state.lastBlockHeight blockID = none := by
    cases checked : verifyBasicValsAndCommit node.state.lastValidators commit
        node.state.lastBlockHeight blockID with
    | none => rfl
    | some error => simp [verifyCommitLight, checked] at accepted
  unfold verifyBasicValsAndCommit at basic
  split at basic
  · cases basic
  split at basic
  · cases basic
  rename_i same
  exact (not_not.mp same).symm

theorem save_block_seen {db next : Db} {saved : BlockStore.Saved}
    (done : BlockStore.saveBlock env.store db saved = .ok next) :
    Database.get next .seenCommit = some (.commit saved.seenCommit) := by
  simp only [BlockStore.saveBlock, bind_eq, pure_eq, throw_eq] at done
  split at done
  · cases done
  split at done
  · cases done
  split at done
  · cases done
  cases done
  rw [Database.get_write, Database.last_write_append]
  simp [Database.lastWrite, Database.Write.answer]

theorem try_sync_cases {next : Node} {pair : Pair}
    (decoded : pair.second.lastCommit.decodeFault = none)
    (done : node.trySync env node.state.chainID pair = .ok next) :
    next.state.chainID = node.state.chainID ∧
      (next = node ∨ next.Seen env pair.second.lastCommit) := by
  unfold trySync at done
  obtain ⟨verdict, accepted, done⟩ := bind_ok.mp done
  cases verdict with
  | some error =>
    simp only [pure_eq, Except.ok.injEq] at done
    exact ⟨by rw [done], Or.inl done.symm⟩
  | none =>
  simp only [bind_eq] at done
  obtain ⟨db, saved, done⟩ := bind_ok.mp done
  obtain ⟨result, applied, done⟩ := bind_ok.mp done
  cases result with
  | error error => simp at done
  | ok state =>
  simp only [pure_eq, Except.ok.injEq] at done
  subst done
  obtain ⟨updates, decided⟩ := applied_by applied
  have updated := updates_to decided.updated
  have chain : state.chainID = node.state.chainID := updated.chainID
  refine ⟨chain, Or.inr ⟨save_block_seen saved, decoded, pair.firstID env, ?_⟩⟩
  have sameVals : state.lastValidators = node.state.validators := updated.lastValidators
  have sameHeight : state.lastBlockHeight = pair.first.header.height := updated.lastBlockHeight
  rw [chain, sameVals, sameHeight]
  exact accepted

theorem pool_routine_seen {start final : Node} {pairs : List Pair}
    (decoded : ∀ pair ∈ pairs, pair.second.lastCommit.decodeFault = none)
    (ran : start.poolRoutine env start.state.chainID pairs = .ok final) :
    final = start ∨ ∃ commit, final.Seen env commit := by
  induction pairs generalizing start with
  | nil =>
    cases ran
    exact Or.inl rfl
  | cons pair rest ih =>
  cases done : start.trySync env start.state.chainID pair with
  | error text => simp [poolRoutine, done] at ran
  | ok next =>
  simp only [poolRoutine, done, bind_eq] at ran
  obtain ⟨chain, turn⟩ := try_sync_cases (decoded pair List.mem_cons_self) done
  rw [← chain] at ran
  rcases ih (fun other member => decoded other (List.mem_cons_of_mem _ member)) ran with
    rfl | later
  · exact turn.imp_right fun seen => ⟨_, seen⟩
  · exact Or.inr later

def LightVerified (env : Env) (provider : StateProviderP2P) : Prop :=
  ∀ height block, provider.verifyLightBlockAtHeight height = .ok block →
    block.signedHeader.commit.decodeFault = none ∧
    verifyCommitLight env.exec.crypto provider.chainID block.validatorSet
      block.signedHeader.commit.blockID block.header.height block.signedHeader.commit = .ok none

def StateSynced (env : Env) (node : Node) : Prop :=
  ∃ provider peers height db, LightVerified env provider ∧
    stateSync env provider peers height db = .ok node

theorem StateSynced.seen (synced : node.StateSynced env) :
    ∃ commit, node.Seen env commit := by
  obtain ⟨provider, peers, height, db, verified, done⟩ := synced
  unfold stateSync at done
  obtain ⟨_, hash, done⟩ := bind_ok.mp done
  cases built : provider.state env.exec.hashing peers height with
  | error error => simp [built] at done
  | ok state =>
  cases given : provider.commit height with
  | error error => simp [built, given] at done
  | ok commit =>
  simp only [built, given, bind_eq, pure_eq, Except.ok.injEq] at done
  subst done
  obtain ⟨last, fetched, sameCommit⟩ := StateProviderP2P.commit_ok given
  obtain ⟨sameChain, sameHeight, sameVals⟩ := StateProviderP2P.state_last fetched built
  obtain ⟨requested, returned⟩ := StateProviderP2P.light_block_at_ok fetched
  obtain ⟨decodes, accepted⟩ := verified _ _ returned
  refine ⟨commit, by simp [Database.get_set], by rw [sameCommit]; exact decodes,
    last.signedHeader.commit.blockID, ?_⟩
  simp only [sameChain, sameHeight, sameVals, sameCommit]
  exact accepted

section

variable {node : Node} {commit : Commit} (seen : node.Seen env commit)

include seen

theorem Seen.loaded : BlockStore.loadSeenCommit node.db = .ok (some commit) := by
  simp [BlockStore.loadSeenCommit, BlockStore.loadCommit, seen.stored, seen.decodes]

theorem Seen.reconstruct_eq (out : Consensus.Outcomes) : node.reconstructLastCommit env out = (do
      let lastPrecommits ← commitToVoteSet env.exec.crypto node.state.chainID commit
        node.state.lastValidators
      if lastPrecommits.hasTwoThirdsMajority then pure lastPrecommits
      else throw "failed to reconstruct last commit; does not have +2/3 maj") := by
  simp [reconstructLastCommit, Consensus.reconstructLastCommit, seen.loaded, seen.height,
    Option.filter_some]

theorem Seen.reconstructs_iff (out : Consensus.Outcomes) :
    (∃ voteSet, node.reconstructLastCommit env out = .ok voteSet) ↔
      ∃ voteSet, commitToVoteSet env.exec.crypto node.state.chainID commit
        node.state.lastValidators = .ok voteSet ∧ voteSet.hasTwoThirdsMajority = true := by
  rw [seen.reconstruct_eq]
  cases rebuilt : commitToVoteSet env.exec.crypto node.state.chainID commit
      node.state.lastValidators with
  | error text => simp
  | ok voteSet =>
    by_cases majority : voteSet.hasTwoThirdsMajority = true
    · simp [majority]
    · simp [majority]

end

end Node

/-- A node that has applied a block of the pool, or has restored a snapshot and then
turned to the pool, can start the consensus exactly when every signature of the stored
commit that is not absent verifies and carries the address of its validator. -/
theorem synced_node_starts_iff (env : Env) (out : Consensus.Outcomes)
    (faithful : env.exec.crypto.BatchFaithful) (start final : Node) (pairs : List Pair)
    (synced : final ≠ start ∨ start.StateSynced env)
    (decoded : ∀ pair ∈ pairs, pair.second.lastCommit.decodeFault = none)
    (ran : start.poolRoutine env start.state.chainID pairs = .ok final)
    (wellFormed : final.state.lastValidators.WellFormed) :
    ∃ commit, BlockStore.loadSeenCommit final.db = .ok (some commit) ∧
      ((∃ voteSet, final.reconstructLastCommit env out = .ok voteSet) ↔
        AddressBound env.exec.crypto final.state.lastValidators commit ∧
        ∀ index sig, commit.signatures[index]? = some sig → sig.absent = false →
          SignatureHolds env.exec.crypto final.state.chainID final.state.lastValidators commit
            sig index) := by
  have seen : ∃ commit, final.Seen env commit := by
    rcases Node.pool_routine_seen decoded ran with rfl | seen
    · exact (synced.resolve_left (not_not.mpr rfl)).seen
    · exact seen
  obtain ⟨commit, seen⟩ := seen
  obtain ⟨blockID, accepted⟩ := seen.accepted
  refine ⟨commit, seen.loaded, ?_⟩
  rw [seen.reconstructs_iff out]
  exact light_commit_rebuilds_iff faithful wellFormed accepted

section Tail

def oneByteCrypto : Crypto where
  verifySignature _ _ signature := signature == [1]
  address pubKey := pubKey.bytes
  batchMalformed _ _ := none
  batchVerify entries := (entries.all fun entry => entry.signature == [1],
    entries.map fun entry => entry.signature == [1])

theorem one_byte_faithful : oneByteCrypto.BatchFaithful :=
  ⟨fun _ _ _ _ => rfl, fun _ => rfl⟩

def tailEnv : Env where
  exec := { sharedEnv with crypto := oneByteCrypto }
  unmarshalBlock _ := .error ""

def minorValidator : Types.Validator :=
  ⟨List.replicate 20 8, ⟨.ed25519, List.replicate 20 8⟩, 1, 0⟩

def majorSet : ValidatorSet := ⟨[sharedValidator, minorValidator], some sharedValidator, 11⟩

theorem major_set_well_formed : majorSet.WellFormed where
  positive := by decide
  distinct := by decide
  cached := by decide
  bounded := by decide

def majorNode : Node where
  state := { StateSync.startState with validators := majorSet, nextValidators := majorSet }
  db := []

/-- The first block, and a second one whose LastCommit has the given signature of the
second validator. -/
def tailPair (signature : Bytes) : Pair :=
  let first := StateSync.blockOn majorNode.state
  let bare : Pair := ⟨first, first, none, ⟨[], [], none⟩, []⟩
  let commit : Commit := ⟨1, 0, bare.firstID tailEnv,
    [⟨.commit, sharedValidator.address, 2000, [1]⟩,
      ⟨.commit, minorValidator.address, 2000, signature⟩]⟩
  { bare with second := { first with
    header := { first.header with
      height := 2
      lastBlockID := commit.blockID
      lastCommitHash := Merkle.hashFromByteSlices valueHash
        (commit.signatures.map CommitSig.encoding) }
    lastCommit := commit } }

def tailNode (signature : Bytes) : Node :=
  match majorNode.poolRoutine tailEnv majorNode.state.chainID [tailPair signature] with
  | .ok node => node
  | .error _ => majorNode

theorem tail_node_seen (signature : Bytes)
    (ran : majorNode.poolRoutine tailEnv majorNode.state.chainID [tailPair signature] =
      .ok (tailNode signature))
    (decoded : (tailPair signature).second.lastCommit.decodeFault = none)
    (moved : tailNode signature ≠ majorNode) :
    (tailNode signature).Seen tailEnv (tailPair signature).second.lastCommit := by
  have turn : majorNode.trySync tailEnv majorNode.state.chainID (tailPair signature) =
      .ok (tailNode signature) := by
    cases done : majorNode.trySync tailEnv majorNode.state.chainID (tailPair signature) with
    | error text => simp [Node.poolRoutine, done] at ran
    | ok next => simpa [Node.poolRoutine, done] using ran
  exact (Node.try_sync_cases decoded turn).2.resolve_left moved

/-- The second signature is not needed and does not verify: the block is stored and
applied, and the consensus cannot start. -/
theorem invalid_tail_stops_start :
    majorNode.poolRoutine tailEnv majorNode.state.chainID [tailPair [9]] = .ok (tailNode [9]) ∧
    (tailPair [9]).second.validateBasic valueHash sharedEnv.evidenceBasic = .ok none ∧
    (tailPair [9]).second.lastCommit.decodeFault = none ∧
    (tailNode [9]).state.lastBlockHeight = 1 ∧
    ∀ out, (tailNode [9]).reconstructLastCommit tailEnv out =
      .error "Failed to reconstruct LastCommit" := by
  have ran : majorNode.poolRoutine tailEnv majorNode.state.chainID [tailPair [9]] =
      .ok (tailNode [9]) := by decide +kernel
  have decoded : (tailPair [9]).second.lastCommit.decodeFault = none := by decide +kernel
  refine ⟨ran, by decide +kernel, decoded, by decide +kernel, fun out => ?_⟩
  have refused : (match commitToVoteSet oneByteCrypto (tailNode [9]).state.chainID
      (tailPair [9]).second.lastCommit (tailNode [9]).state.lastValidators with
      | .error text => text
      | .ok _ => "") = "Failed to reconstruct LastCommit" := by decide +kernel
  rw [(tail_node_seen [9] ran decoded (by decide +kernel)).reconstruct_eq]
  cases rebuilt : commitToVoteSet oneByteCrypto (tailNode [9]).state.chainID
      (tailPair [9]).second.lastCommit (tailNode [9]).state.lastValidators with
  | ok voteSet => simp [rebuilt] at refused
  | error text =>
    simp only [rebuilt] at refused
    rw [show tailEnv.exec.crypto = oneByteCrypto from rfl, rebuilt, refused]
    rfl

/-- The check of one signature that `commitToVoteSet` makes, where one byte is the
signature and the key is the address. -/
def wholeAt (chainID : ChainID) (vals : ValidatorSet) (commit : Commit) (index : Nat) : Bool :=
  match commit.signatures[index]?, vals.validators[index]?, commit.voteSignBytes chainID index with
  | some sig, some val, .ok _ => sig.signature == [1] && sig.validatorAddress == val.address &&
      val.address == val.pubKey.bytes && val.address != []
  | _, _, _ => false

theorem whole_of_checks {chainID : ChainID} {vals : ValidatorSet} {commit : Commit}
    (later : commit.height ≠ 0)
    (checks : ∀ index < commit.signatures.length, wholeAt chainID vals commit index = true) :
    AddressBound oneByteCrypto vals commit ∧
    ∀ index sig, commit.signatures[index]? = some sig → sig.absent = false →
      SignatureHolds oneByteCrypto chainID vals commit sig index := by
  have signed : ∀ index sig, commit.signatures[index]? = some sig →
      ∃ val bytes, vals.validators[index]? = some val ∧
        commit.voteSignBytes chainID index = .ok bytes ∧ sig.signature = [1] ∧
        sig.validatorAddress = val.address ∧ val.address = val.pubKey.bytes ∧
        val.address ≠ [] := by
    intro index sig found
    have check := checks index (List.getElem?_eq_some_iff.mp found).1
    unfold wholeAt at check
    split at check
    · rename_i val _ given here made
      cases found.symm.trans given
      simp only [Bool.and_eq_true, beq_iff_eq, bne_iff_ne] at check
      obtain ⟨⟨⟨signature, address⟩, key⟩, nonempty⟩ := check
      exact ⟨_, _, here, made, signature, address, key, nonempty⟩
    · cases check
  constructor
  · refine ⟨later, fun index sig val found _ here => ?_⟩
    obtain ⟨_, _, same, _, _, bound⟩ := signed index sig found
    cases here.symm.trans same
    exact bound
  · intro index sig found _
    obtain ⟨val, bytes, here, made, signature, _⟩ := signed index sig found
    refine ⟨val, bytes, here, made, ?_⟩
    rw [signature]
    rfl

def snapshotNode : Node where
  state := StateSync.snapshotState
  db := [(.seenCommit,
    .commit (StateSync.lightOf (StateSync.threeHeights none).1).signedHeader.commit)]

theorem snapshot_node_synced : snapshotNode.StateSynced tailEnv := by
  refine ⟨StateSync.chainProvider none, fun _ => .ok StateSync.secondState.consensusParams, 1, [],
    fun height block returned => ?_, by decide +kernel⟩
  have verified : ∀ decision ∈ [(StateSync.threeHeights none).1,
      (StateSync.threeHeights none).2.1, (StateSync.threeHeights none).2.2],
      (StateSync.lightOf decision).signedHeader.commit.decodeFault = none ∧
      verifyCommitLight oneByteCrypto [99] sharedSet
        (StateSync.lightOf decision).signedHeader.commit.blockID
        (StateSync.lightOf decision).header.height
        (StateSync.lightOf decision).signedHeader.commit = .ok none := by decide +kernel
  obtain ⟨decision, member, rfl⟩ : ∃ decision ∈ [(StateSync.threeHeights none).1,
      (StateSync.threeHeights none).2.1, (StateSync.threeHeights none).2.2],
      StateSync.lightOf decision = block := by
    simp only [List.mem_cons, List.not_mem_nil, or_false, exists_eq_or_imp, exists_eq_left]
    unfold StateSync.chainProvider at returned
    dsimp only at returned
    split_ifs at returned
    · exact .inl (Except.ok.inj returned)
    · exact .inr (.inl (Except.ok.inj returned))
    · exact .inr (.inr (Except.ok.inj returned))
  exact verified decision member

/-- With a valid second signature the consensus starts. It also starts from a snapshot
whose light blocks the light client verified. -/
theorem valid_tail_starts :
    majorNode.poolRoutine tailEnv majorNode.state.chainID [tailPair [1]] = .ok (tailNode [1]) ∧
    ∀ out, (∃ voteSet, (tailNode [1]).reconstructLastCommit tailEnv out = .ok voteSet) ∧
      ∃ voteSet, snapshotNode.reconstructLastCommit tailEnv out = .ok voteSet := by
  have ran : majorNode.poolRoutine tailEnv majorNode.state.chainID [tailPair [1]] =
      .ok (tailNode [1]) := by decide +kernel
  refine ⟨ran, fun out => ⟨?_, ?_⟩⟩
  · have sameVals : (tailNode [1]).state.lastValidators = majorSet := by decide +kernel
    obtain ⟨commit, loaded, agree⟩ := synced_node_starts_iff tailEnv out one_byte_faithful
      majorNode (tailNode [1]) [tailPair [1]] (.inl (by decide +kernel)) (by decide +kernel) ran
      (by rw [sameVals]; exact major_set_well_formed)
    have stored : BlockStore.loadSeenCommit (tailNode [1]).db =
        .ok (some (tailPair [1]).second.lastCommit) := by decide +kernel
    cases loaded.symm.trans stored
    exact agree.mpr (whole_of_checks (by decide +kernel) (by decide +kernel))
  · obtain ⟨commit, loaded, agree⟩ := synced_node_starts_iff tailEnv out one_byte_faithful
      snapshotNode snapshotNode [] (.inr snapshot_node_synced) (by simp) rfl
      ⟨by decide, by decide, by decide, by decide⟩
    cases loaded.symm.trans (show BlockStore.loadSeenCommit snapshotNode.db = .ok (some _) from rfl)
    exact agree.mpr (whole_of_checks (by decide +kernel) (by decide +kernel))

end Tail

end Tendermint.BlockSync
