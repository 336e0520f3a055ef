import Tendermint.Types.Tally
import Tendermint.Types.CommitLoops

/-!
A commit made from a vote set, checked again. `MakeCommit` keeps the votes for
the majority and for nil; verification and reconstruction then see the same
votes, signatures and powers. Batch verification is the exception: it is chosen
by the proposer's key type alone, and refuses a commit that a validator with
another kind of key has signed.
-/

namespace Tendermint.Types

open List
open Quorum (slot weight)

/-- A stored vote: it sits at its validator's index, was accepted, and its
block ID is zero or complete. -/
structure StoredVote (crypto : Crypto) (voteSet : VoteSet) (index : Nat) (vote : Vote) :
    Prop where
  index : vote.validatorIndex = index
  votable : vote.blockID.votable = true
  typed : vote.blockID.Typed
  accepted : ∃ val, VoteSet.Accepted crypto voteSet vote val

/-- A precommit set with a majority for a block, as `AddVote` leaves it. -/
structure DecidedSet (crypto : Crypto) (voteSet : VoteSet) (blockID : BlockID) : Prop where
  wellFormed : voteSet.valSet.WellFormed
  tallied : voteSet.Tallied
  height : voteSet.height ≠ 0
  type : voteSet.signedMsgType = .precommit
  majority : voteSet.maj23 = some blockID
  complete : blockID.isComplete = true
  typed : blockID.Typed
  stored : ∀ index vote, slot voteSet.votes index = some vote → StoredVote crypto voteSet index vote

def KeptFor (blockID : BlockID) (vote : Vote) : Prop :=
  vote.blockID = blockID ∨ vote.blockID = BlockID.zero

instance (blockID : BlockID) (vote : Vote) : Decidable (KeptFor blockID vote) :=
  inferInstanceAs (Decidable (_ ∨ _))

def keptSig (blockID : BlockID) : Option Vote → CommitSig
  | none => .newAbsent
  | some vote =>
    if vote.blockID = blockID then
      ⟨.commit, vote.validatorAddress, vote.timestamp, vote.signature⟩
    else if vote.blockID = BlockID.zero then
      ⟨.nil, vote.validatorAddress, vote.timestamp, vote.signature⟩
    else .newAbsent

theorem kept_sig_cases (blockID : BlockID) (vote : Vote) :
    (vote.blockID = blockID ∧ keptSig blockID (some vote) =
      ⟨.commit, vote.validatorAddress, vote.timestamp, vote.signature⟩) ∨
    (vote.blockID ≠ blockID ∧ vote.blockID = BlockID.zero ∧ keptSig blockID (some vote) =
      ⟨.nil, vote.validatorAddress, vote.timestamp, vote.signature⟩) ∨
    (¬ KeptFor blockID vote ∧ keptSig blockID (some vote) = .newAbsent) := by
  by_cases same : vote.blockID = blockID
  · exact Or.inl ⟨same, by simp only [keptSig, if_pos same]⟩
  · by_cases zero : vote.blockID = BlockID.zero
    · exact Or.inr (Or.inl ⟨same, zero, by simp only [keptSig, if_neg same, if_pos zero]⟩)
    · refine Or.inr (Or.inr ⟨?_, by simp only [keptSig, if_neg same, if_neg zero]⟩)
      rintro (equal | equal)
      · exact same equal
      · exact zero equal

theorem commit_entry_eq {blockID : BlockID} (complete : blockID.isComplete = true)
    {vote : Option Vote} (votable : ∀ present, vote = some present →
      present.blockID.votable = true) :
    commitEntry blockID vote = .ok (keptSig blockID vote) := by
  cases vote with
  | none => rfl
  | some vote =>
  have shape := votable vote rfl
  simp only [BlockID.votable, Bool.or_eq_true] at shape
  rcases kept_sig_cases blockID vote with ⟨same, sig⟩ | ⟨_, zero, sig⟩ | ⟨dropped, sig⟩
  · have isComplete : vote.blockID.isComplete = true := by rw [same]; exact complete
    have equal := (BlockID.equals_iff vote.blockID blockID).mpr same
    simp [commitEntry, Vote.commitSig, isComplete, sig, CommitSig.forBlock, equal]
  · have isZero := (BlockID.is_zero_iff _).mpr zero
    have incomplete : vote.blockID.isComplete = false := by
      rw [zero]
      rfl
    simp [commitEntry, Vote.commitSig, incomplete, isZero, sig, CommitSig.forBlock]
  · simp only [KeptFor, not_or] at dropped
    have isComplete := shape.resolve_left fun isZero =>
      dropped.2 ((BlockID.is_zero_iff _).mp isZero)
    have differ : vote.blockID.equals blockID = false := by
      rw [Bool.eq_false_iff]
      exact fun equal => dropped.1 ((BlockID.equals_iff _ _).mp equal)
    simp [commitEntry, Vote.commitSig, isComplete, sig, CommitSig.forBlock, differ]

theorem map_m_ok {α β : Type} {action : α → Panics β} {result : α → β} {items : List α}
    (succeeds : ∀ item ∈ items, action item = .ok (result item)) :
    items.mapM action = .ok (items.map result) := by
  induction items with
  | nil => rfl
  | cons item rest ih =>
    have tail := ih fun other member => succeeds other (mem_cons_of_mem item member)
    simp [mapM_cons, succeeds item (by simp), tail]

section RoundTrip

variable (crypto : Crypto) (voteSet : VoteSet) (blockID : BlockID)

def decidedCommit : Commit :=
  ⟨voteSet.height, voteSet.round, blockID, voteSet.votes.map (keptSig blockID)⟩

theorem make_commit_eq (decided : DecidedSet crypto voteSet blockID) :
    voteSet.makeCommit = .ok (decidedCommit voteSet blockID) := by
  have entries : voteSet.votes.mapM (commitEntry blockID) =
      .ok (voteSet.votes.map (keptSig blockID)) := by
    apply map_m_ok
    intro vote member
    apply commit_entry_eq decided.complete
    rintro present rfl
    obtain ⟨index, inside, found⟩ := getElem_of_mem member
    refine (decided.stored index present ?_).votable
    simp [slot, inside, found]
  simp [VoteSet.makeCommit, decided.type, decided.majority, entries, decidedCommit]

theorem decided_signature (index : Nat) (sig : CommitSig)
    (found : (decidedCommit voteSet blockID).signatures[index]? = some sig) :
    sig = keptSig blockID (slot voteSet.votes index) := by
  simp only [decidedCommit, getElem?_map, Option.map_eq_some_iff] at found
  obtain ⟨entry, present, rfl⟩ := found
  simp [slot, present]

theorem kept_of_not_absent {entry : Option Vote}
    (present : (keptSig blockID entry).absent = false) :
    ∃ vote, entry = some vote ∧ KeptFor blockID vote ∧
      (keptSig blockID entry).signature = vote.signature := by
  cases entry with
  | none => cases present
  | some vote =>
  refine ⟨vote, rfl, ?_⟩
  rcases kept_sig_cases blockID vote with ⟨same, sig⟩ | ⟨_, zero, sig⟩ | ⟨_, sig⟩
  · exact ⟨Or.inl same, by rw [sig]⟩
  · exact ⟨Or.inr zero, by rw [sig]⟩
  · rw [sig] at present
    cases present

theorem kept_sig_for_block (entry : Option Vote) :
    (keptSig blockID entry).forBlock = true ↔ ∃ vote, entry = some vote ∧
      vote.blockID = blockID := by
  cases entry with
  | none => simp [keptSig, CommitSig.newAbsent, CommitSig.forBlock]
  | some vote =>
  rcases kept_sig_cases blockID vote with ⟨same, sig⟩ | ⟨other, _, sig⟩ | ⟨dropped, sig⟩
  · simp [sig, CommitSig.forBlock, same]
  · simp [sig, CommitSig.forBlock, other]
  · simp only [KeptFor, not_or] at dropped
    simp [sig, CommitSig.forBlock, CommitSig.newAbsent, dropped.1]

theorem get_vote_kept (decided : DecidedSet crypto voteSet blockID) {index : Nat} {vote : Vote}
    (present : slot voteSet.votes index = some vote) (kept : KeptFor blockID vote) :
    (decidedCommit voteSet blockID).getVote index = .ok vote := by
  have own := decided.stored index vote present
  obtain ⟨val, accepted⟩ := own.accepted
  have inside := Quorum.slot_lt present
  have entry : voteSet.votes[index]? = some (some vote) := by
    rw [slot, getD_eq_getElem?_getD, getElem?_eq_getElem inside] at present
    rw [getElem?_eq_getElem inside]
    simpa using present
  have sig : (decidedCommit voteSet blockID).signatures[index]? =
      some (keptSig blockID (some vote)) := by
    simp [decidedCommit, getElem?_map, entry]
  have fields : vote = ⟨.precommit, voteSet.height, voteSet.round, vote.blockID, vote.timestamp,
      vote.validatorAddress, (index : Int), vote.signature⟩ := by
    rw [← own.index, ← accepted.height, ← accepted.round, ← decided.type, ← accepted.type]
  simp only [Commit.getVote, sig, bind_eq, pure_eq]
  rcases kept_sig_cases blockID vote with ⟨same, shape⟩ | ⟨_, zero, shape⟩ | ⟨dropped, _⟩
  · rw [same] at fields
    simpa [shape, CommitSig.blockID, decidedCommit] using fields.symm
  · rw [zero] at fields
    simpa [shape, CommitSig.blockID, decidedCommit] using fields.symm
  · exact absurd kept dropped

theorem decided_signature_holds (decided : DecidedSet crypto voteSet blockID) (index : Nat)
    (sig : CommitSig)
    (found : (decidedCommit voteSet blockID).signatures[index]? = some sig)
    (present : sig.absent = false) :
    SignatureHolds crypto voteSet.chainID voteSet.valSet (decidedCommit voteSet blockID) sig
      index := by
  have shape := decided_signature voteSet blockID index sig found
  rw [shape] at present
  obtain ⟨vote, entry, kept, signature⟩ := kept_of_not_absent blockID present
  have own := decided.stored index vote entry
  obtain ⟨val, accepted⟩ := own.accepted
  have validator : voteSet.valSet.validators[index]? = some val := by
    have lookup := accepted.validator
    rw [own.index] at lookup
    simpa [ValidatorSet.getByIndex] using lookup
  have verified := accepted.verified
  simp only [Vote.verify, bind_eq, pure_eq] at verified
  split at verified
  · cases verified
  obtain ⟨bytes, signed, verified⟩ := bind_ok.mp verified
  split at verified
  case isFalse => cases verified
  case isTrue correct =>
    refine ⟨val, bytes, validator, ?_, ?_⟩
    · simp [Commit.voteSignBytes, get_vote_kept crypto voteSet blockID decided entry
        kept, signed]
    · rw [shape, signature]
      exact correct

def forBlockSet : Finset Nat :=
  (Finset.range voteSet.votes.length).filter fun index =>
    (keptSig blockID (slot voteSet.votes index)).forBlock = true

theorem sum_zip_idx {α : Type} (items : List α) (value : α × Nat → Int) :
    (items.zipIdx.map value).sum =
      ∑ index ∈ Finset.range items.length, (items[index]?.map fun item =>
        value (item, index)).getD 0 := by
  induction items using List.reverseRecOn with
  | nil => simp
  | append_singleton items item ih =>
  rw [zipIdx_append, map_append, sum_append, ih, length_append,
    length_singleton, Finset.sum_range_succ]
  congr 1
  · apply Finset.sum_congr rfl
    intro index member
    rw [getElem?_append_left (Finset.mem_range.mp member)]
  · simp

theorem counted_power_decided {mode : VerifyMode}
    (counts : ∀ sig power, (if mode.ignoreSig sig then 0 else if mode.countSig sig then power
      else 0 : Int) = if sig.forBlock then power else 0) :
    countedPower voteSet.valSet mode (decidedCommit voteSet blockID).signatures.zipIdx =
      weight voteSet.valSet.power (forBlockSet voteSet blockID) := by
  simp only [countedPower, counts, sum_zip_idx, forBlockSet, weight, Finset.sum_filter]
  apply Finset.sum_congr (by simp [decidedCommit])
  intro index member
  have inside : index < voteSet.votes.length := by simpa [decidedCommit] using member
  simp [decidedCommit, inside, slot]

theorem full_mode_counts (sig : CommitSig) (power : Int) :
    (if fullMode.ignoreSig sig then 0 else if fullMode.countSig sig then power else 0 : Int) =
      if sig.forBlock then power else 0 := by
  obtain ⟨flag, address, time, signature⟩ := sig
  cases flag <;> rfl

theorem light_mode_counts (sig : CommitSig) (power : Int) :
    (if lightMode.ignoreSig sig then 0 else if lightMode.countSig sig then power else 0 : Int) =
      if sig.forBlock then power else 0 := by
  obtain ⟨flag, address, time, signature⟩ := sig
  cases flag <;> rfl

theorem block_of_key (decided : DecidedSet crypto voteSet blockID) {index : Nat} {vote : Vote}
    (present : slot voteSet.votes index = some vote) (key : vote.blockID.key = blockID.key) :
    vote.blockID = blockID := by
  have own := decided.stored index vote present
  have votable : blockID.votable = true := by simp [BlockID.votable, decided.complete]
  exact BlockID.key_injective own.votable votable own.typed.2 decided.typed.2 key

theorem quorum_for_block (decided : DecidedSet crypto voteSet blockID) :
    voteSet.quorum ≤ weight voteSet.valSet.power (forBlockSet voteSet blockID) := by
  obtain ⟨votes, found, enough⟩ := decided.tallied.reached blockID decided.majority
  rw [(decided.tallied.blocks _ _ found).sum] at enough
  refine Int.le_trans enough (Quorum.weight_mono _ _ _ ?_ fun index _ =>
    ValidatorSet.power_nonneg decided.wellFormed index)
  intro index member
  obtain ⟨vote, counted⟩ := (Quorum.mem_filled _ _).mp member
  obtain ⟨shown, present, key⟩ :=
    decided.tallied.decided blockID votes index vote decided.majority found counted
  have same := block_of_key crypto voteSet blockID decided present key
  rw [forBlockSet, Finset.mem_filter, Finset.mem_range]
  exact ⟨Quorum.slot_lt present, (kept_sig_for_block blockID _).mpr ⟨shown, present, same⟩⟩

def powerNeeded : Int :=
  (weight voteSet.valSet.power (Finset.range voteSet.valSet.size) * 2).tdiv 3

theorem enough_power (decided : DecidedSet crypto voteSet blockID) (mode : VerifyMode)
    (counts : ∀ sig power, (if mode.ignoreSig sig then 0 else if mode.countSig sig then power
      else 0 : Int) = if sig.forBlock then power else 0) :
    powerNeeded voteSet < 0 + countedPower voteSet.valSet mode
      (decidedCommit voteSet blockID).signatures.zipIdx := by
  have enough := quorum_for_block crypto voteSet blockID decided
  rw [counted_power_decided voteSet blockID counts]
  simp only [VoteSet.quorum, VoteSet.quorumOf] at enough
  unfold powerNeeded
  omega

theorem decided_nonempty (decided : DecidedSet crypto voteSet blockID) :
    voteSet.valSet.validators ≠ [] := by
  intro empty
  have enough := quorum_for_block crypto voteSet blockID decided
  have positive := VoteSet.quorum_pos voteSet decided.wellFormed
  have none : voteSet.votes.length = 0 := by
    rw [decided.tallied.length, ValidatorSet.size, empty]
    rfl
  simp only [forBlockSet, none, Finset.range_zero, Finset.filter_empty, weight,
    Finset.sum_empty] at enough
  omega

/-- Every validator whose kept vote goes into a batch has a key of the type
that the batch is for. -/
def BatchUniform : Prop :=
  batchVerifyThreshold ≤ voteSet.valSet.size →
  ∀ proposer, voteSet.valSet.getProposer = .ok (some proposer) →
    supportsBatchVerifier proposer.pubKey = true →
    ∀ index vote val, slot voteSet.votes index = some vote → KeptFor blockID vote →
      voteSet.valSet.validators[index]? = some val →
      val.pubKey.keyType = proposer.pubKey.keyType

theorem mem_zip_idx {sigs : List CommitSig} {sig : CommitSig} {idx : Nat}
    (member : (sig, idx) ∈ sigs.zipIdx) : sigs[idx]? = some sig := by
  simpa using mk_mem_zipIdx_iff_getElem?.mp member

theorem batch_key_type_cases {vals : ValidatorSet} {proposer : Validator}
    (proposes : vals.getProposer = .ok (some proposer)) (commit : Commit) :
    batchKeyType vals commit =
      .ok (if batchVerifyThreshold ≤ commit.signatures.length ∧
        supportsBatchVerifier proposer.pubKey = true then some proposer.pubKey.keyType
      else none) := by
  have key : proposerKey vals = .ok proposer.pubKey := by
    simp [proposerKey, proposes]
  unfold batchKeyType shouldBatchVerify
  by_cases few : commit.signatures.length < batchVerifyThreshold
  · simp [few, Nat.not_le.mpr few]
  · by_cases supported : supportsBatchVerifier proposer.pubKey = true <;>
      simp [few, Nat.le_of_not_lt few, key, supported]

theorem verify_with_accepts (faithful : crypto.BatchFaithful)
    (decided : DecidedSet crypto voteSet blockID) {mode : VerifyMode}
    (byIndex : mode.lookUpByIndex = true)
    (ignores : ∀ sig, sig.absent = true → mode.ignoreSig sig = true)
    (counts : ∀ sig power, (if mode.ignoreSig sig then 0 else if mode.countSig sig then power
      else 0 : Int) = if sig.forBlock then power else 0)
    (uniform : BatchUniform voteSet blockID) :
    verifyCommitWith crypto voteSet.chainID voteSet.valSet (decidedCommit voteSet blockID)
      (powerNeeded voteSet) mode = .ok none := by
  obtain ⟨proposer, proposes⟩ := ValidatorSet.get_proposer_some voteSet.valSet
    (decided_nonempty crypto voteSet blockID decided)
  have present : ∀ sig, mode.ignoreSig sig = false → sig.absent = false := by
    intro sig kept
    by_contra absent
    rw [ignores sig (by simpa using absent)] at kept
    cases kept
  have valid : ∀ sig idx, (sig, idx) ∈ (decidedCommit voteSet blockID).signatures.zipIdx →
      mode.ignoreSig sig = false → SignatureHolds crypto voteSet.chainID voteSet.valSet
        (decidedCommit voteSet blockID) sig idx := by
    intro sig idx member kept
    exact decided_signature_holds crypto voteSet blockID decided idx sig
      (mem_zip_idx member) (present sig kept)
  have enough := enough_power crypto voteSet blockID decided mode counts
  have fits : 0 + countedPower voteSet.valSet mode
      (decidedCommit voteSet blockID).signatures.zipIdx ≤ maxInt64 := by
    rw [counted_power_decided voteSet blockID counts, Int.zero_add]
    refine Int.le_trans (ValidatorSet.weight_fits _ decided.wellFormed ?_).2 (by decide)
    rw [← decided.tallied.length]
    exact Finset.filter_subset _ _
  obtain ⟨entries, final, examined, above⟩ := examine_by_index voteSet.chainID voteSet.valSet
    (decidedCommit voteSet blockID) (powerNeeded voteSet) mode byIndex
    (ValidatorSet.power_nonneg decided.wellFormed) _ (fun _ => none) 0
    (fun sig idx member kept => by
      obtain ⟨val, bytes, found, signed, _⟩ := valid sig idx member kept
      exact ⟨val, bytes, found, signed⟩) (Int.le_refl 0) fits
  have each := examines_entry _ _ _ _ _ (examines_of_examine _ _ _ _ _ examined)
  rw [verify_with_accepts_iff _ _ _ _ _ _ faithful]
  refine ⟨_, entries, final, batch_key_type_cases proposes _, examined, above enough, ?_, ?_⟩
  · intro entry member
    obtain ⟨sig, val, index, inside, kept, found, position, pubKey, signature, signed⟩ :=
      each entry member
    obtain ⟨holder, bytes, here, bytesSigned, verified⟩ := valid sig entry.2 inside kept
    rw [position byIndex, here] at found
    rw [bytesSigned] at signed
    cases found
    cases signed
    rw [BatchEntry.Verifies, pubKey, signature]
    exact verified
  · intro keyType chosen entry member
    obtain ⟨sig, val, index, inside, kept, found, position, pubKey, _⟩ := each entry member
    split at chosen
    case isFalse => cases chosen
    case isTrue batched =>
      cases chosen
      have shape := decided_signature voteSet blockID entry.2 sig (mem_zip_idx inside)
      have there := present sig kept
      rw [shape] at there
      obtain ⟨vote, stored, keptVote, _⟩ := kept_of_not_absent blockID there
      rw [pubKey]
      rw [position byIndex] at found
      refine uniform ?_ proposer proposes batched.2 entry.2 vote val stored keptVote found
      simpa [decidedCommit, decided.tallied.length] using batched.1

theorem verify_with_refuses (faithful : crypto.BatchFaithful)
    (decided : DecidedSet crypto voteSet blockID)
    (accepted : verifyCommitWith crypto voteSet.chainID voteSet.valSet
      (decidedCommit voteSet blockID) (powerNeeded voteSet) fullMode = .ok none) :
    BatchUniform voteSet blockID := by
  intro many proposer proposes supported index vote val present kept found
  obtain ⟨batchType, entries, final, chosen, examined, _, _, uniform⟩ :=
    (verify_with_accepts_iff _ _ _ _ _ _ faithful).mp accepted
  have size : (decidedCommit voteSet blockID).signatures.length = voteSet.valSet.size := by
    simp [decidedCommit, decided.tallied.length]
  rw [batch_key_type_cases proposes, if_pos ⟨by omega, supported⟩] at chosen
  cases chosen
  have inside : index < (decidedCommit voteSet blockID).signatures.length := by
    rw [size, ← decided.tallied.length]
    exact Quorum.slot_lt present
  have entry : (decidedCommit voteSet blockID).signatures[index]? =
      some (keptSig blockID (some vote)) := by
    have some := decided_signature voteSet blockID index _ (getElem?_eq_getElem inside)
    rw [getElem?_eq_getElem inside, some, present]
  have there : fullMode.ignoreSig (keptSig blockID (some vote)) = false := by
    rcases kept_sig_cases blockID vote with ⟨_, sig⟩ | ⟨_, _, sig⟩ | ⟨dropped, _⟩
    · rw [sig]; rfl
    · rw [sig]; rfl
    · exact absurd kept dropped
  have steps := examines_of_examine _ _ _ _ _ examined
  obtain ⟨own, member, rfl⟩ := examines_all _ _ _ _ _ rfl rfl steps _ index
    (mk_mem_zipIdx_iff_getElem?.mpr entry) there
  obtain ⟨_, holder, position, _, _, here, same, pubKey, _⟩ :=
    examines_entry _ _ _ _ _ steps own member
  rw [same rfl, found] at here
  cases here
  rw [← pubKey]
  exact uniform _ rfl own member

theorem verify_basic_decided (decided : DecidedSet crypto voteSet blockID) :
    verifyBasicValsAndCommit voteSet.valSet (decidedCommit voteSet blockID) voteSet.height
      blockID = none := by
  simp [verifyBasicValsAndCommit, decidedCommit, decided.tallied.length,
    (BlockID.equals_iff blockID blockID).mpr rfl]

theorem verify_commit_decided (decided : DecidedSet crypto voteSet blockID) :
    verifyCommit crypto voteSet.chainID voteSet.valSet blockID voteSet.height
      (decidedCommit voteSet blockID) = verifyCommitWith crypto voteSet.chainID voteSet.valSet
        (decidedCommit voteSet blockID) (powerNeeded voteSet) fullMode := by
  simp [verifyCommit, verify_basic_decided crypto voteSet blockID decided,
    ValidatorSet.total_voting_power_eq _ decided.wellFormed, powerNeeded,
    ValidatorSet.double_total_exact _ decided.wellFormed]

theorem verify_commit_light_decided (decided : DecidedSet crypto voteSet blockID) :
    verifyCommitLight crypto voteSet.chainID voteSet.valSet blockID voteSet.height
      (decidedCommit voteSet blockID) = verifyCommitWith crypto voteSet.chainID voteSet.valSet
        (decidedCommit voteSet blockID) (powerNeeded voteSet) lightMode := by
  simp [verifyCommitLight, verify_basic_decided crypto voteSet blockID decided,
    ValidatorSet.total_voting_power_eq _ decided.wellFormed, powerNeeded,
    ValidatorSet.double_total_exact _ decided.wellFormed]

end RoundTrip

end Tendermint.Types
