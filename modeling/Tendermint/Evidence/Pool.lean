import Tendermint.Evidence.Verify
import Tendermint.Lib.Keyed

/-!
internal/evidence/pool.go: the pool of evidence. Pending evidence is kept in the
database in the order of height and hash, committed evidence by its key alone.
Beside the database there are a count of the pending evidence, a list for the
broadcast, and the height and the time before which nothing is pruned. The
database does not fail here and the locks are left out; a pool starts on an
empty database.
-/

namespace Tendermint.EvPool

open Types
open Merkle (Hashing)

/-- The height and the bytes of the hash in a key of the database, with its order. -/
abbrev Key := Int ×ₗ List Nat

def keyOf (hashing : Hashing) (evidence : Evidence) : Key :=
  toLex (evidence.height, (evidence.hash hashing).map UInt8.toNat)

structure Pool where
  /-- As it is decoded from the database, in the order of the keys. -/
  pending : List Evidence
  committed : List Key
  evidenceList : List Evidence
  evidenceSize : Nat
  state : SM.State
  consensusBuffer : List (Vote × Vote)
  pruningHeight : Int
  pruningTime : Time
  deriving DecidableEq

def Pool.new (state : SM.State) : Pool :=
  ⟨[], [], [], 0, state, [], state.lastBlockHeight, state.lastBlockTime⟩

def pendingKeys (hashing : Hashing) (pool : Pool) : List Key := pool.pending.map (keyOf hashing)

/-- The count modulo the size of its word. -/
def countBack (count removed : Nat) : Nat := (count + (2 ^ 32 - removed % 2 ^ 32)) % 2 ^ 32

def isExpired (state : SM.State) (height : Int) (time : Time) : Bool :=
  decide (state.consensusParams.evidence.maxAgeNumBlocks < int64 (state.lastBlockHeight - height))
    && decide (state.consensusParams.evidence.maxAgeDuration < timeSub state.lastBlockTime time)

section

variable (env : Env)

def isPending (pool : Pool) (evidence : Evidence) : Bool :=
  decide (keyOf env.hashing evidence ∈ pendingKeys env.hashing pool)

def isCommitted (pool : Pool) (evidence : Evidence) : Bool :=
  decide (keyOf env.hashing evidence ∈ pool.committed)

def addPendingEvidence (pool : Pool) (evidence : Evidence) : Pool :=
  { pool with
    pending := Keyed.put (keyOf env.hashing) evidence.reloaded pool.pending
    evidenceSize := (pool.evidenceSize + 1) % 2 ^ 32 }

def pushBack (pool : Pool) (evidence : Evidence) : Pool :=
  { pool with evidenceList := pool.evidenceList ++ [evidence] }

inductive PoolError where
  | verify (error : VerifyError)
  | alreadyCommitted
  | duplicateEvidence
  deriving DecidableEq, Repr

/-- The effect of a verdict on the pool: the evidence with a new ABCI part is added. -/
def settle (pool : Pool) : Verdict → Option PoolError × Pool
  | .accepted => (none, pool)
  | .refused error => (some (.verify error), pool)
  | .rectified fault none => (some (.verify (.abci fault)), pool)
  | .rectified fault (some evidence) =>
    (some (.verify (.abci fault)), addPendingEvidence env pool evidence)

def addEvidence (pool : Pool) (evidence : Evidence) : Panics (Option PoolError × Pool) := do
  if isPending env pool evidence then pure (none, pool)
  else if isCommitted env pool evidence then pure (none, pool)
  else do
    match settle env pool (← verify env pool.state evidence) with
    | (some error, next) => pure (some error, next)
    | (none, next) => pure (none, pushBack (addPendingEvidence env next evidence) evidence)

def reportConflictingVotes (pool : Pool) (voteA voteB : Vote) : Pool :=
  { pool with consensusBuffer := pool.consensusBuffer ++ [(voteA, voteB)] }

def isLightEvidence : Evidence → Bool
  | .lightClientAttack _ => true
  | .duplicateVote _ => false

def checkOne (pool : Pool) (evidence : Evidence) : Panics (Option PoolError × Pool) := do
  if isLightEvidence evidence || !isPending env pool evidence then
    if isCommitted env pool evidence then pure (some .alreadyCommitted, pool)
    else do
      match settle env pool (← verify env pool.state evidence) with
      | (some error, next) => pure (some error, next)
      | (none, next) => pure (none, addPendingEvidence env next evidence)
  else pure (none, pool)

def checkLoop : Pool → List Bytes → List Evidence → Panics (Option PoolError × Pool)
  | pool, _, [] => .ok (none, pool)
  | pool, hashes, evidence :: rest => do
    match ← checkOne env pool evidence with
    | (some error, next) => pure (some error, next)
    | (none, next) =>
      if evidence.hash env.hashing ∈ hashes then pure (some .duplicateEvidence, next)
      else checkLoop next (evidence.hash env.hashing :: hashes) rest

def checkEvidence (pool : Pool) (evList : List Evidence) : Panics (Option PoolError × Pool) :=
  checkLoop env pool [] evList

/-- The evidence as `verify` leaves it: the new ABCI part is written into it. With nil
validators it passes neither before nor after. -/
def leftBy (evidence : Evidence) : Verdict → Evidence
  | .rectified _ (some rectified) => rectified
  | _ => evidence

def leftByCheck (pool : Pool) (evidence : Evidence) : Evidence :=
  if (isLightEvidence evidence || !isPending env pool evidence) &&
      !isCommitted env pool evidence then
    match verify env pool.state evidence with
    | .ok verdict => leftBy evidence verdict
    | .error _ => evidence
  else evidence

def leftByLoop : Pool → List Bytes → List Evidence → List Evidence
  | _, _, [] => []
  | pool, hashes, evidence :: rest =>
    match checkOne env pool evidence with
    | .ok (none, next) =>
      if evidence.hash env.hashing ∈ hashes then evidence :: rest
      else evidence :: leftByLoop next (evidence.hash env.hashing :: hashes) rest
    | _ => leftByCheck env pool evidence :: rest

def leftByCheckEvidence (pool : Pool) (evList : List Evidence) : List Evidence :=
  leftByLoop env pool [] evList

/-- The loop of listEvidence; an entry that does not decode ends it without a list. -/
def listFrom (maxBytes : Int) : List Evidence → List Evidence → Int → List Evidence × Int
  | [], evidence, totalSize => (evidence, totalSize)
  | next :: rest, evidence, totalSize =>
    let evSize := evidenceListSize (evidence ++ [next])
    if maxBytes ≠ -1 ∧ maxBytes < evSize then (evidence, totalSize)
    else if !next.isValidBasic env.hashing then ([], totalSize)
    else listFrom maxBytes rest (evidence ++ [next]) evSize

def pendingEvidence (pool : Pool) (maxBytes : Int) : List Evidence × Int :=
  if pool.evidenceSize = 0 then ([], 0) else listFrom env maxBytes pool.pending [] 0

def bufferedEvidence (state : SM.State) (votes : Vote × Vote) :
    Panics (Option DuplicateVoteEvidence) :=
  if votes.1.height = state.lastBlockHeight then
    DuplicateVoteEvidence.new votes.1 votes.2 state.lastBlockTime state.lastValidators
  else if votes.1.height < state.lastBlockHeight then
    match env.stores.loadValidators votes.1.height with
    | .error _ => .ok none
    | .ok valSet =>
      match env.stores.loadBlockMeta votes.1.height with
      | none => .ok none
      | some header => DuplicateVoteEvidence.new votes.1 votes.2 header.time valSet
  else .ok none

def flushOne (state : SM.State) (pool : Pool) (votes : Vote × Vote) : Panics Pool := do
  match ← bufferedEvidence env state votes with
  | none => pure pool
  | some evidence =>
    if isPending env pool (.duplicateVote evidence) then pure pool
    else if isCommitted env pool (.duplicateVote evidence) then pure pool
    else pure (pushBack (addPendingEvidence env pool (.duplicateVote evidence))
      (.duplicateVote evidence))

def processConsensusBuffer (pool : Pool) (state : SM.State) : Panics Pool := do
  let flushed ← pool.consensusBuffer.foldlM (flushOne env state) pool
  pure { flushed with consensusBuffer := [] }

def removeEvidence (pool : Pool) (removed : List Evidence) : Pool :=
  let hashes := (removed.map (Evidence.hash env.hashing)).dedup
  if hashes = [] then pool
  else { pool with
    pending := pool.pending.filter fun evidence =>
      keyOf env.hashing evidence ∉ removed.map (keyOf env.hashing)
    evidenceList := pool.evidenceList.filter fun evidence => evidence.hash env.hashing ∉ hashes
    evidenceSize := countBack pool.evidenceSize hashes.length }

def markEvidenceAsCommitted (pool : Pool) (evidence : List Evidence) : Pool :=
  removeEvidence env
    { pool with committed := evidence.map (keyOf env.hashing) ++ pool.committed }
    (evidence.filter (isPending env pool))

/-- batchExpiredPendingEvidence: what is expired up to the first that is not, and
when that one is to be pruned. -/
def batchExpired (state : SM.State) : List Evidence → (Int × Time) × List Evidence
  | [] => ((state.lastBlockHeight, state.lastBlockTime), [])
  | evidence :: rest =>
    if !evidence.isValidBasic env.hashing then batchExpired state rest
    else if !isExpired state evidence.height evidence.time then
      ((int64 (evidence.height + state.consensusParams.evidence.maxAgeNumBlocks + 1),
        evidence.time + state.consensusParams.evidence.maxAgeDuration + nanosPerSecond), [])
    else ((batchExpired state rest).1, evidence :: (batchExpired state rest).2)

def removeExpiredPendingEvidence (pool : Pool) : Pool :=
  let found := batchExpired env pool.state pool.pending
  { removeEvidence env pool found.2 with pruningHeight := found.1.1, pruningTime := found.1.2 }

def Pool.Due (pool : Pool) : Prop :=
  0 < pool.evidenceSize ∧ pool.pruningHeight < pool.state.lastBlockHeight ∧
    pool.pruningTime < pool.state.lastBlockTime

instance (pool : Pool) : Decidable pool.Due := inferInstanceAs (Decidable (_ ∧ _ ∧ _))

def prune (pool : Pool) : Pool :=
  if pool.Due then removeExpiredPendingEvidence env pool else pool

def update (pool : Pool) (state : SM.State) (evidence : List Evidence) : Panics Pool := do
  if state.lastBlockHeight ≤ pool.state.lastBlockHeight then
    .error
      "failed EvidencePool.Update new state height is less than or equal to previous state height"
  else do
    let flushed ← processConsensusBuffer env pool state
    pure (prune env (markEvidenceAsCommitted env { flushed with state := state } evidence))

inductive Call where
  | addEvidence (evidence : Evidence)
  | checkEvidence (evList : List Evidence)
  | reportConflictingVotes (voteA voteB : Vote)
  | pendingEvidence (maxBytes : Int)
  | update (state : SM.State) (evidence : List Evidence)

def Pool.step (pool : Pool) : Call → Panics Pool
  | .addEvidence evidence => Prod.snd <$> EvPool.addEvidence env pool evidence
  | .checkEvidence evList => Prod.snd <$> EvPool.checkEvidence env pool evList
  | .reportConflictingVotes voteA voteB => .ok (EvPool.reportConflictingVotes pool voteA voteB)
  | .pendingEvidence _ => .ok pool
  | .update state evidence => EvPool.update env pool state evidence

end

def Pool.run (crypto : Crypto) (hashing : Hashing) : Pool → List (Stores × Call) → Panics Pool
  | pool, [] => .ok pool
  | pool, (stores, call) :: rest => do
    let next ← pool.step ⟨crypto, hashing, stores⟩ call
    next.run crypto hashing rest

section

variable (env : Env)

@[simp]
theorem key_of_reloaded (hashing : Hashing) (evidence : Evidence) :
    keyOf hashing evidence.reloaded = keyOf hashing evidence := by
  simp [keyOf]

theorem is_pending_add (pool : Pool) (evidence other : Evidence) :
    isPending env (addPendingEvidence env pool evidence) other =
      (decide (keyOf env.hashing other = keyOf env.hashing evidence) ||
        isPending env pool other) := by
  simp [isPending, pendingKeys, addPendingEvidence, Keyed.mem_keys_put]

theorem check_one_passes_iff (pool next : Pool) (evidence : Evidence) :
    checkOne env pool evidence = .ok (none, next) ↔
      (isLightEvidence evidence = false ∧ isPending env pool evidence = true ∧ next = pool) ∨
      ((isLightEvidence evidence = true ∨ isPending env pool evidence = false) ∧
        isCommitted env pool evidence = false ∧
        verify env pool.state evidence = .ok .accepted ∧
        next = addPendingEvidence env pool evidence) := by
  rw [checkOne]
  by_cases asked : (isLightEvidence evidence || !isPending env pool evidence) = true
  · rw [if_pos asked]
    have asked' : isLightEvidence evidence = true ∨ isPending env pool evidence = false := by
      simpa using asked
    have notTaken : ¬(isLightEvidence evidence = false ∧ isPending env pool evidence = true ∧
        next = pool) := by
      rintro ⟨duplicate, pending, _⟩
      simp [duplicate, pending] at asked
    by_cases committed : isCommitted env pool evidence = true
    · simp [committed, notTaken]
    · rw [if_neg committed]
      cases verdict : verify env pool.state evidence with
      | error text => simp [notTaken]
      | ok result =>
        rcases result with _ | error | ⟨fault, _ | rectified⟩ <;>
          simp [settle, notTaken, committed, asked', @eq_comm Pool _ next]
  · rw [if_neg asked]
    simp only [Bool.or_eq_true, Bool.not_eq_true', not_or, Bool.not_eq_true,
      Bool.not_eq_false] at asked
    simp [asked.1, asked.2, @eq_comm Pool pool]

end

end Tendermint.EvPool
