import Tendermint.Evidence.Pool
import Tendermint.State.Validation

/-!
Two pools with one state, the same stores and the same committed evidence agree
on every list of evidence if and only if the duplicate votes that are pending in
one of them alone would pass in the other. The loop over the list is related step
by step: after each piece of evidence that passes, it is pending in both pools.
The lists may be restricted to evidence of any kind, such as what can be encoded.
A pool accepts again what it accepted, however much it has checked since.
-/

namespace Tendermint.EvPool

open Types
open Merkle (Hashing)

section

variable (env : Env) (known : Evidence → Prop)

def Accepts (pool : Pool) (evList : List Evidence) : Prop :=
  ∃ next, checkEvidence env pool evList = .ok (none, next)

structure Alike (pool other : Pool) : Prop where
  state : pool.state = other.state
  committed : ∀ key, key ∈ pool.committed ↔ key ∈ other.committed

/-- The evidence of duplicate votes that only one pool has would pass without it. -/
def Vouched (pool other : Pool) : Prop :=
  ∀ votes : DuplicateVoteEvidence, known (.duplicateVote votes) →
    isPending env pool (.duplicateVote votes) ≠ isPending env other (.duplicateVote votes) →
    isCommitted env pool (.duplicateVote votes) = false ∧
      verify env pool.state (.duplicateVote votes) = .ok .accepted

/-- The half of it that lets the other pool accept what the first one does. -/
def Covered (pool other : Pool) : Prop :=
  ∀ votes : DuplicateVoteEvidence, known (.duplicateVote votes) →
    isPending env pool (.duplicateVote votes) = true →
    isPending env other (.duplicateVote votes) = false →
    isCommitted env pool (.duplicateVote votes) = false ∧
      verify env pool.state (.duplicateVote votes) = .ok .accepted

variable {env known}

theorem Alike.refl (pool : Pool) : Alike pool pool := ⟨rfl, fun _ => Iff.rfl⟩

variable {other pool next : Pool} {evidence : Evidence}

theorem Alike.symm (alike : Alike pool other) : Alike other pool :=
  ⟨alike.state.symm, fun key => (alike.committed key).symm⟩

theorem Alike.trans {third : Pool} (first : Alike pool other) (second : Alike other third) :
    Alike pool third :=
  ⟨first.state.trans second.state, fun key => (first.committed key).trans (second.committed key)⟩

theorem Alike.committed_eq (alike : Alike pool other) (evidence : Evidence) :
    isCommitted env pool evidence = isCommitted env other evidence := by
  simp [isCommitted, alike.committed]

theorem Vouched.covered (vouched : Vouched env known pool other) :
    Covered env known pool other := by
  intro votes member taken absent
  exact vouched votes member (by simp [taken, absent])

theorem Vouched.symm (vouched : Vouched env known pool other) (alike : Alike pool other) :
    Vouched env known other pool := by
  intro votes member differ
  have passes := vouched votes member differ.symm
  rwa [alike.committed_eq, alike.state] at passes

theorem check_one_effect (passes : checkOne env pool evidence = .ok (none, next)) :
    Alike next pool ∧ ∀ other, isPending env next other =
      (decide (keyOf env.hashing other = keyOf env.hashing evidence) ||
        isPending env pool other) := by
  rcases (check_one_passes_iff env pool next evidence).mp passes with
    ⟨_, pending, rfl⟩ | ⟨_, _, _, rfl⟩
  · constructor
    · exact Alike.refl _
    · intro other
      by_cases same : keyOf env.hashing other = keyOf env.hashing evidence
      · simpa [isPending, same] using pending
      · simp [same]
  · exact ⟨⟨rfl, fun _ => Iff.rfl⟩, is_pending_add env pool evidence⟩

theorem check_one_follows (alike : Alike pool other) (covered : Covered env known pool other)
    (member : known evidence) (passes : checkOne env pool evidence = .ok (none, next)) :
    ∃ next', checkOne env other evidence = .ok (none, next') := by
  by_cases light : isLightEvidence evidence = true
  · -- an attack on a light client is verified in any case
    rcases (check_one_passes_iff env pool next evidence).mp passes with
      ⟨duplicate, _, _⟩ | ⟨_, committed, accepted, _⟩
    · rw [light] at duplicate
      cases duplicate
    · rw [alike.committed_eq] at committed
      rw [alike.state] at accepted
      exact ⟨_, (check_one_passes_iff env other _ evidence).mpr
        (.inr ⟨.inl light, committed, accepted, rfl⟩)⟩
  · have duplicate : isLightEvidence evidence = false := by simpa using light
    by_cases pending : isPending env other evidence = true
    · exact ⟨_, (check_one_passes_iff env other _ evidence).mpr
        (.inl ⟨duplicate, pending, rfl⟩)⟩
    · have absent : isPending env other evidence = false := by simpa using pending
      have verified : isCommitted env pool evidence = false ∧
          verify env pool.state evidence = .ok .accepted := by
        rcases (check_one_passes_iff env pool next evidence).mp passes with
          ⟨_, taken, _⟩ | ⟨_, committed, accepted, _⟩
        · cases evidence with
          | duplicateVote votes => exact covered votes member taken absent
          | lightClientAttack attack => cases duplicate
        · exact ⟨committed, accepted⟩
      rw [alike.committed_eq, alike.state] at verified
      exact ⟨_, (check_one_passes_iff env other _ evidence).mpr
        (.inr ⟨.inr absent, verified.1, verified.2, rfl⟩)⟩

theorem Covered.step {next' : Pool} (alike : Alike pool other)
    (covered : Covered env known pool other)
    (passes : checkOne env pool evidence = .ok (none, next))
    (passes' : checkOne env other evidence = .ok (none, next')) :
    Alike next next' ∧ Covered env known next next' := by
  obtain ⟨kept, pending⟩ := check_one_effect passes
  obtain ⟨kept', pending'⟩ := check_one_effect passes'
  constructor
  · exact kept.trans (alike.trans kept'.symm)
  · intro votes member taken absent
    rw [pending, Bool.or_eq_true] at taken
    rw [pending', Bool.or_eq_false_iff] at absent
    rw [kept.committed_eq, kept.state]
    refine covered votes member (taken.resolve_left ?_) absent.2
    rw [absent.1]
    decide

theorem check_loop_follows {evList : List Evidence}
    (members : ∀ evidence ∈ evList, known evidence) :
    ∀ (pool other : Pool) (hashes : List Bytes), Alike pool other → Covered env known pool other →
      (∃ next, checkLoop env pool hashes evList = .ok (none, next)) →
      ∃ next, checkLoop env other hashes evList = .ok (none, next) := by
  induction evList with
  | nil =>
    intro pool other hashes _ _ _
    exact ⟨other, rfl⟩
  | cons evidence rest ih =>
  intro pool other hashes alike covered passes
  obtain ⟨last, passes⟩ := passes
  rw [checkLoop] at passes ⊢
  rcases first : checkOne env pool evidence with text | ⟨_ | error, next⟩
  · simp [first] at passes
  · obtain ⟨next', first'⟩ := check_one_follows alike covered
      (members evidence List.mem_cons_self) first
    simp only [first, first', bind_eq] at passes ⊢
    by_cases repeated : evidence.hash env.hashing ∈ hashes
    · simp [repeated] at passes
    · rw [if_neg repeated] at passes ⊢
      obtain ⟨alikeNext, coveredNext⟩ := covered.step alike first first'
      exact ih (fun item later => members item (List.mem_cons_of_mem _ later))
        next next' _ alikeNext coveredNext ⟨last, passes⟩
  · simp [first] at passes

variable {votes : DuplicateVoteEvidence}

theorem accepts_single_of_pending (pending : isPending env pool (.duplicateVote votes) = true) :
    Accepts env pool [.duplicateVote votes] := by
  have passes := (check_one_passes_iff env pool pool (.duplicateVote votes)).mpr
    (.inl ⟨rfl, pending, rfl⟩)
  exact ⟨pool, by simp [checkEvidence, checkLoop, passes]⟩

theorem verified_of_accepts_single (absent : isPending env pool (.duplicateVote votes) = false)
    (accepts : Accepts env pool [.duplicateVote votes]) :
    isCommitted env pool (.duplicateVote votes) = false ∧
      verify env pool.state (.duplicateVote votes) = .ok .accepted := by
  obtain ⟨last, passes⟩ := accepts
  rcases first : checkOne env pool (.duplicateVote votes) with text | ⟨_ | error, next⟩
  · simp [checkEvidence, checkLoop, first] at passes
  · rcases (check_one_passes_iff env pool next _).mp first with
      ⟨_, pending, _⟩ | ⟨_, committed, accepted, _⟩
    · rw [absent] at pending
      cases pending
    · exact ⟨committed, accepted⟩
  · simp [checkEvidence, checkLoop, first] at passes

end

/-- The pools agree on all lists exactly if each piece of evidence of duplicate
votes that is pending in one alone is not committed and passes verification. -/
theorem check_evidence_agrees_iff (env : Env) (known : Evidence → Prop) (pool other : Pool)
    (alike : Alike pool other) :
    (∀ evList, (∀ evidence ∈ evList, known evidence) →
      (Accepts env pool evList ↔ Accepts env other evList)) ↔ Vouched env known pool other := by
  constructor
  · intro agree votes member differ
    have both := agree [.duplicateVote votes] (by simpa using member)
    cases pending : isPending env other (.duplicateVote votes) with
    | true =>
      rw [pending] at differ
      have absent : isPending env pool (.duplicateVote votes) = false := by simpa using differ
      exact verified_of_accepts_single absent (both.mpr (accepts_single_of_pending pending))
    | false =>
      rw [pending] at differ
      have present : isPending env pool (.duplicateVote votes) = true := by simpa using differ
      rw [alike.committed_eq, alike.state]
      exact verified_of_accepts_single pending (both.mp (accepts_single_of_pending present))
  · intro vouched evList members
    constructor
    · exact check_loop_follows members pool other [] alike vouched.covered
    · exact check_loop_follows members other pool [] alike.symm (vouched.symm alike).covered

section

variable (env : Env)

/-- No verification in this state writes an ABCI part into the evidence. -/
def Unaltered (state : SM.State) (evidence : Evidence) : Prop :=
  ∀ fault rectified, verify env state evidence ≠ .ok (.rectified fault rectified)

structure Grown (pool later : Pool) : Prop where
  alike : Alike pool later
  pending : ∀ evidence, isPending env pool evidence = true → isPending env later evidence = true

variable {env}

theorem Grown.refl (pool : Pool) : Grown env pool pool := ⟨Alike.refl pool, fun _ => id⟩

variable {pool next : Pool} {evList : List Evidence}

variable {later : Pool} {evidence : Evidence} {result : Option PoolError}

theorem Grown.trans {latest : Pool} (first : Grown env pool later)
    (second : Grown env later latest) : Grown env pool latest :=
  ⟨first.alike.trans second.alike, fun evidence =>
    second.pending evidence ∘ first.pending evidence⟩

theorem Grown.accepts (grown : Grown env pool later) (accepts : Accepts env pool evList) :
    Accepts env later evList := by
  have covered : Covered env (fun _ => True) pool later := by
    intro votes _ taken absent
    rw [grown.pending _ taken] at absent
    cases absent
  exact check_loop_follows (fun _ _ => trivial) pool later [] grown.alike covered accepts

theorem grown_add (pool : Pool) (evidence : Evidence) :
    Grown env pool (addPendingEvidence env pool evidence) := by
  refine ⟨⟨rfl, fun _ => Iff.rfl⟩, fun other pending => ?_⟩
  rw [is_pending_add, pending, Bool.or_true]

theorem settle_grown (pool : Pool) (verdict : Verdict) :
    Grown env pool (settle env pool verdict).2 := by
  rcases verdict with _ | error | ⟨fault, _ | rectified⟩
  · exact Grown.refl pool
  · exact Grown.refl pool
  · exact Grown.refl pool
  · exact grown_add pool rectified

theorem check_one_grown (checked : checkOne env pool evidence = .ok (result, next)) :
    Grown env pool next := by
  rw [checkOne] at checked
  split at checked
  · split at checked
    · cases checked
      exact Grown.refl _
    · obtain ⟨verdict, _, settled⟩ := bind_ok.mp checked
      have grown : Grown env pool (settle env pool verdict).2 := settle_grown pool verdict
      split at settled
      · rename_i after same
        cases settled
        rwa [same] at grown
      · rename_i after same
        cases settled
        rw [same] at grown
        exact grown.trans (grown_add after evidence)
  · cases checked
    exact Grown.refl _

theorem check_loop_grown {hashes : List Bytes}
    (checked : checkLoop env pool hashes evList = .ok (result, next)) :
    Grown env pool next := by
  induction evList generalizing pool hashes with
  | nil =>
    cases checked
    exact Grown.refl _
  | cons evidence rest ih =>
  rw [checkLoop] at checked
  obtain ⟨⟨found, between⟩, one, checked⟩ := bind_ok.mp checked
  have grown := check_one_grown one
  cases found with
  | some error =>
    cases checked
    exact grown
  | none =>
    dsimp only at checked
    split at checked
    · cases checked
      exact grown
    · exact grown.trans (ih checked)

theorem left_by_check_of_unaltered (unaltered : Unaltered env pool.state evidence) :
    leftByCheck env pool evidence = evidence := by
  rw [leftByCheck]
  split
  · rcases verdict : verify env pool.state evidence with text | _ | error | ⟨fault, rectified⟩
    · rfl
    · rfl
    · rfl
    · exact absurd verdict (unaltered fault rectified)
  · rfl

theorem left_by_loop_of_unaltered (hashes : List Bytes)
    (unaltered : ∀ evidence ∈ evList, Unaltered env pool.state evidence) :
    leftByLoop env pool hashes evList = evList := by
  induction evList generalizing pool hashes with
  | nil => rfl
  | cons evidence rest ih =>
  have first := unaltered evidence List.mem_cons_self
  rw [leftByLoop]
  split
  · rename_i next checked
    split
    · rfl
    · rw [ih _ fun other member => ?_]
      rw [← (check_one_grown checked).alike.state]
      exact unaltered other (List.mem_cons_of_mem _ member)
  · rw [left_by_check_of_unaltered first]

theorem remove_evidence_state (pool : Pool) (removed : List Evidence) :
    (removeEvidence env pool removed).state = pool.state := by
  simp only [removeEvidence]
  split <;> rfl

theorem update_moves {state : SM.State} {evidence : List Evidence}
    (updated : update env pool state evidence = .ok next) :
    next.state = state ∧ pool.state.lastBlockHeight < state.lastBlockHeight := by
  rw [update] at updated
  split at updated
  · cases updated
  rename_i higher
  obtain ⟨flushed, _, done⟩ := bind_ok.mp updated
  cases done
  refine ⟨?_, by omega⟩
  rw [prune]
  split <;> simp [removeExpiredPendingEvidence, markEvidenceAsCommitted, remove_evidence_state]

end

section Altered

def plainHash : Hashing := ⟨id⟩

def firstStores : Stores where
  loadBlockMeta height :=
    if height = 1 then some { SM.sharedHeader with height := 1, time := 1000 } else none
  loadBlockCommit _ := none
  height := 1
  loadValidators _ := .ok SM.sharedSet

def firstEnv : Env := ⟨.acceptAll, plainHash, firstStores⟩

def firstVote (byte : UInt8) : Vote where
  type := .prevote
  height := 1
  round := 0
  blockID := ⟨List.replicate 32 byte, ⟨1, List.replicate 32 4⟩⟩
  timestamp := 900
  validatorAddress := SM.sharedValidator.address
  validatorIndex := 0
  signature := [1]

def firstVotes (timestamp : Time) : DuplicateVoteEvidence :=
  ⟨firstVote 1, firstVote 2, 10, 10, timestamp⟩

def firstEvidence (timestamp : Time) : Evidence := .duplicateVote (firstVotes timestamp)

def secondState : SM.State := { SM.sharedState with lastBlockHeight := 2, lastBlockTime := 2000 }

/-- The evidence is committed with the second block; then it comes once more with
another time and, with its time put right, is pending. -/
def alteredCalls : List (Stores × Call) :=
  [(firstStores, .addEvidence (firstEvidence 1000)),
    (firstStores, .update secondState [firstEvidence 1000]),
    (firstStores, .addEvidence (firstEvidence 1001))]

def poolAfter (calls : List (Stores × Call)) : Pool :=
  ((Pool.new SM.sharedState).run .acceptAll plainHash calls).toOption.getD (Pool.new SM.sharedState)

theorem altered_evidence_splits_pools :
    (firstEvidence 1001).isValidBasic plainHash = true ∧
    Alike (poolAfter alteredCalls) (poolAfter (alteredCalls.take 2)) ∧
    Accepts firstEnv (poolAfter alteredCalls) [firstEvidence 1000] ∧
    ¬Accepts firstEnv (poolAfter (alteredCalls.take 2)) [firstEvidence 1000] := by
  have passes : checkEvidence firstEnv (poolAfter alteredCalls) [firstEvidence 1000] =
      .ok (none, poolAfter alteredCalls) := by decide +kernel
  have refused : checkEvidence firstEnv (poolAfter (alteredCalls.take 2)) [firstEvidence 1000] =
      .ok (some .alreadyCommitted, poolAfter (alteredCalls.take 2)) := by decide +kernel
  have committed : (poolAfter alteredCalls).committed =
    (poolAfter (alteredCalls.take 2)).committed :=
    by decide +kernel
  refine ⟨by decide +kernel, ⟨by decide +kernel, fun key => by rw [committed]⟩, ⟨_, passes⟩, ?_⟩
  rintro ⟨next, accepted⟩
  rw [refused] at accepted
  cases accepted

theorem first_evidence_agreed_on :
    isPending firstEnv (poolAfter (alteredCalls.take 1)) (firstEvidence 1000) = true ∧
    isPending firstEnv (poolAfter []) (firstEvidence 1000) = false ∧
    ∀ evList, (∀ evidence ∈ evList, evidence = firstEvidence 1000) →
      (Accepts firstEnv (poolAfter (alteredCalls.take 1)) evList ↔
        Accepts firstEnv (poolAfter []) evList) := by
  refine ⟨by decide +kernel, by decide +kernel, ?_⟩
  refine (check_evidence_agrees_iff firstEnv (· = firstEvidence 1000)
    (poolAfter (alteredCalls.take 1)) (poolAfter []) ⟨by decide +kernel, fun key => ?_⟩).mpr ?_
  · have committed : (poolAfter (alteredCalls.take 1)).committed = (poolAfter []).committed := by
      decide +kernel
    rw [committed]
  intro votes same _
  rw [same]
  decide +kernel

end Altered

end Tendermint.EvPool
