import Tendermint.Types.CommitSoundness

/-!
Reconstruction of a commit that only `VerifyCommitLight` has accepted. The light
loop stops once it has counted more than two thirds, so a signature after that
point was not looked at; reconstruction adds every one that is not absent.
-/

namespace Tendermint.Types

open Quorum (weight)

section Counted

variable {chainID : ChainID} {vals : ValidatorSet} {commit : Commit} {needed : Int}
  {mode : VerifyMode}

def blockSigners (commit : Commit) : Finset Nat :=
  (Finset.range commit.signatures.length).filter fun index =>
    (commit.signatures[index]?.any CommitSig.forBlock) = true

theorem mem_block_signers (commit : Commit) (index : Nat) : index ∈ blockSigners commit ↔
    ∃ sig, commit.signatures[index]? = some sig ∧ sig.forBlock = true := by
  simp only [blockSigners, Finset.mem_filter, Finset.mem_range, Option.any_eq_true]
  constructor
  · rintro ⟨-, sig, found, forBlock⟩
    exact ⟨sig, found, forBlock⟩
  · rintro ⟨sig, found, forBlock⟩
    exact ⟨(List.getElem?_eq_some_iff.mp found).1, sig, found, forBlock⟩

theorem counted_power_eq (vals : ValidatorSet) (commit : Commit)
    (counts : ∀ sig power, (if mode.ignoreSig sig then 0 else if mode.countSig sig then power
      else 0 : Int) = if sig.forBlock then power else 0) :
    countedPower vals mode commit.signatures.zipIdx = weight vals.power (blockSigners commit) := by
  simp only [countedPower, counts, sum_zip_idx, blockSigners, weight, Finset.sum_filter]
  apply Finset.sum_congr rfl
  intro index member
  have inside : index < commit.signatures.length := Finset.mem_range.mp member
  simp [inside]

theorem examines_at_most (byIndex : mode.lookUpByIndex = true)
    (nonneg : ∀ index, 0 ≤ vals.power index) {seen : Nat → Option Nat} {tallied : Int}
    {rest : List (CommitSig × Nat)} {entries : List (BatchEntry × Nat)} {final : Int}
    (examined : Examines chainID vals commit needed mode seen tallied rest entries final)
    (start : 0 ≤ tallied) (fits : tallied + countedPower vals mode rest ≤ maxInt64) :
    final ≤ tallied + countedPower vals mode rest := by
  have tally : ∀ (seen next : Nat → Option Nat) (tallied : Int) (sig : CommitSig) (idx : Nat)
      (rest : List (CommitSig × Nat)) (val : Validator), mode.ignoreSig sig = false →
      lookUpValidator mode vals seen sig idx = .ok (.ok (some val, next)) → 0 ≤ tallied →
      tallied + countedPower vals mode ((sig, idx) :: rest) ≤ maxInt64 →
      0 ≤ mode.tally tallied sig val ∧ mode.tally tallied sig val + countedPower vals mode rest =
        tallied + countedPower vals mode ((sig, idx) :: rest) := by
    intro seen next tallied sig idx rest val kept found start fits
    obtain ⟨index, here, look⟩ := look_up_some vals mode found
    have same : index = idx := by
      rcases look with ⟨-, same, -⟩ | ⟨byAddress, -⟩
      · exact same
      · rw [byIndex] at byAddress
        cases byAddress
    subst same
    have power : vals.power index = val.votingPower := by simp [ValidatorSet.power, here]
    have later := counted_power_nonneg vals mode nonneg rest
    have positive := nonneg index
    by_cases counts : mode.countSig sig = true
    · have whole : countedPower vals mode ((sig, index) :: rest) =
          val.votingPower + countedPower vals mode rest := by
        simp [countedPower, kept, counts, power]
      rw [whole] at fits ⊢
      have exact : int64 (tallied + val.votingPower) = tallied + val.votingPower :=
        int64_exact _ (by unfold minInt64; omega) (by omega)
      rw [VerifyMode.tally, if_pos counts, exact]
      omega
    · have whole : countedPower vals mode ((sig, index) :: rest) = countedPower vals mode rest := by
        simp [countedPower, counts]
      rw [VerifyMode.tally, if_neg counts, whole]
      exact ⟨start, rfl⟩
  induction examined with
  | done => simp [countedPower]
  | ignored _ _ sig idx rest _ _ skipped _ ih =>
    have same : countedPower vals mode ((sig, idx) :: rest) = countedPower vals mode rest := by
      simp [countedPower, skipped]
    rw [same] at fits ⊢
    exact ih start fits
  | unknown _ _ _ _ _ _ _ _ _ found =>
    simp only [lookUpValidator, byIndex, if_true] at found
    split at found <;> cases found
  | last seen next tallied sig idx rest val _ kept found =>
    obtain ⟨-, same⟩ := tally seen next tallied sig idx rest val kept found start fits
    have later := counted_power_nonneg vals mode nonneg rest
    omega
  | counted seen next tallied sig idx rest val _ _ _ kept found _ _ ih =>
    obtain ⟨positive, same⟩ := tally seen next tallied sig idx rest val kept found start fits
    rw [← same] at fits ⊢
    exact ih positive fits

end Counted

section Rebuilt

variable {crypto : Crypto} {chainID : ChainID} {vals : ValidatorSet} {commit : Commit}

theorem light_block_signers (faithful : crypto.BatchFaithful) (wellFormed : vals.WellFormed)
    {blockID : BlockID} {height : Int}
    (accepted : verifyCommitLight crypto chainID vals blockID height commit = .ok none) :
    VoteSet.quorumOf (weight vals.power (Finset.range vals.size)) ≤
      weight vals.power (blockSigners commit) := by
  unfold verifyCommitLight at accepted
  cases basic : verifyBasicValsAndCommit vals commit height blockID with
  | some error => simp [basic] at accepted
  | none =>
  have sized : vals.size = commit.signatures.length := by
    unfold verifyBasicValsAndCommit at basic
    split at basic
    · cases basic
    · rename_i same
      exact not_not.mp same
  simp only [basic, ValidatorSet.total_voting_power_eq _ wellFormed, bind_eq] at accepted
  obtain ⟨_, entries, final, _, examined, above, _, _⟩ :=
    (verify_with_accepts_iff _ _ _ _ _ _ faithful).mp accepted
  have nonneg := ValidatorSet.power_nonneg wellFormed
  have total := ValidatorSet.weight_fits vals wellFormed (Finset.Subset.refl _)
  have inside : blockSigners commit ⊆ Finset.range vals.size := by
    rw [sized]
    exact Finset.filter_subset _ _
  have counted := counted_power_eq vals commit light_mode_counts
  have fits := (ValidatorSet.weight_fits vals wellFormed inside).2
  have small : 2 * maxTotalVotingPower ≤ maxInt64 := by decide
  have most := examines_at_most rfl nonneg (examines_of_examine _ _ _ _ _ examined)
    (Int.le_refl 0) (by rw [counted]; omega)
  rw [counted, int64_exact _ (by unfold minInt64; omega) (by omega)] at *
  unfold VoteSet.quorumOf
  omega

theorem signature_holds_of_rebuilt {voteSet : VoteSet}
    (rebuilt : commitToVoteSet crypto chainID commit vals = .ok voteSet) (index : Nat)
    (sig : CommitSig) (found : commit.signatures[index]? = some sig)
    (present : sig.absent = false) : SignatureHolds crypto chainID vals commit sig index := by
  unfold commitToVoteSet at rebuilt
  obtain ⟨start, made, rebuilt⟩ := bind_ok.mp rebuilt
  have fresh := VoteSet.new_subject made
  obtain ⟨vote, val, current, given, same, taken⟩ := add_commit_sigs_accepted rebuilt sig index
    (List.mk_mem_zipIdx_iff_getElem?.mpr found) present
  have sameChain : current.chainID = chainID := congrArg (·.1) (same.trans fresh)
  have sameVals : current.valSet = vals := congrArg (·.2.2.2.2) (same.trans fresh)
  have validator := taken.validator
  have verified := taken.verified
  rw [sameChain, Vote.verify] at verified
  split at verified
  · cases verified
  obtain ⟨bytes, signed, verified⟩ := bind_ok.mp verified
  simp only [pure_eq] at verified
  split at verified
  case isFalse => cases verified
  rename_i correct
  have bytesOf : commit.voteSignBytes chainID index = .ok bytes := by
    simp [Commit.voteSignBytes, given, signed]
  simp only [Commit.getVote, found, bind_eq, pure_eq] at given
  split at given
  · cases given
  cases given
  simp only [sameVals, ValidatorSet.getByIndex, Int.toNat_natCast] at validator
  rw [if_neg (by omega)] at validator
  exact ⟨val, bytes, validator, bytesOf, correct⟩

theorem present_vote_for_block {index : Nat} {sig : CommitSig}
    (found : commit.signatures[index]? = some sig) (forBlock : sig.forBlock = true) :
    ∃ vote, presentVote commit index = some vote ∧ vote.blockID = commit.blockID := by
  have flag : sig.blockIDFlag = .commit := by simpa [CommitSig.forBlock] using forBlock
  have present : sig.absent = false := by simp [CommitSig.absent, flag]
  exact ⟨_, by simp [presentVote, found, Option.filter_some, present, Commit.getVote,
    CommitSig.blockID, flag, Except.toOption]; rfl, rfl⟩

/-- A commit that the light loop accepted is turned into a vote set with +2/3 exactly
when every signature that is not absent verifies and carries the address of its
validator, those after the point where the loop stopped included. -/
theorem light_commit_rebuilds_iff (faithful : crypto.BatchFaithful)
    (wellFormed : vals.WellFormed) {blockID : BlockID} {height : Int}
    (accepted : verifyCommitLight crypto chainID vals blockID height commit = .ok none) :
    (∃ voteSet, commitToVoteSet crypto chainID commit vals = .ok voteSet ∧
      voteSet.hasTwoThirdsMajority = true) ↔
    AddressBound crypto vals commit ∧
      ∀ index sig, commit.signatures[index]? = some sig → sig.absent = false →
        SignatureHolds crypto chainID vals commit sig index := by
  constructor
  · rintro ⟨voteSet, rebuilt, -⟩
    exact ⟨address_bound_of_rebuilt crypto chainID vals commit rebuilt,
      signature_holds_of_rebuilt rebuilt⟩
  · rintro ⟨bound, holds⟩
    obtain ⟨start, final, rebuilt, subject, built⟩ :=
      rebuilt_of_address_bound crypto chainID vals commit wellFormed holds bound
    have sameVals : final.valSet = vals :=
      (congrArg (·.2.2.2.2) built.subject).trans (congrArg (·.2.2.2.2) subject)
    have enough := light_block_signers faithful wellFormed accepted
    obtain ⟨votes, found, reached⟩ := block_reached (by rw [sameVals]; exact wellFormed)
      built.tallied built.mirrored (blockSigners commit) commit.blockID.key
      (fun index member => by
        obtain ⟨sig, here, forBlock⟩ := (mem_block_signers commit index).mp member
        obtain ⟨vote, given, same⟩ := present_vote_for_block here forBlock
        refine ⟨vote, ?_, by rw [same]⟩
        rw [built.slots, if_pos (List.getElem?_eq_some_iff.mp here).1, given])
      (by rw [VoteSet.quorum, sameVals]; exact enough)
    refine ⟨final, rebuilt, ?_⟩
    cases decision : final.maj23 with
    | some majority => simp [VoteSet.hasTwoThirdsMajority, decision]
    | none =>
      have below := built.tallied.undecided decision _ votes found
      omega

end Rebuilt

end Tendermint.Types
