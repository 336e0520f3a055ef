import Tendermint.Types.CommitRoundTrip

/-!
What an accepted commit proves. The signatures that verification counts belong
to distinct validators of the set, whether these are found by index or by
address, so the tally is the power of a set of signers. The batch loop refuses
some commits that the single loop accepts, and accepts no others.
-/

namespace Tendermint.Types

open List
open Quorum (weight)

section Signers

variable (crypto : Crypto) (chainID : ChainID) (vals : ValidatorSet) (commit : Commit)

/-- The commit has a valid signature of the validator at an index of the set,
for the commit's block, height and round. -/
def SignedBy (index : Nat) : Prop :=
  ∃ val sig idx bytes, vals.validators[index]? = some val ∧ commit.signatures[idx]? = some sig ∧
    voteSignBytes chainID ⟨.precommit, commit.height, commit.round, commit.blockID, sig.timestamp,
      sig.validatorAddress, (idx : Nat), sig.signature⟩ = .ok bytes ∧
    crypto.verifySignature val.pubKey bytes sig.signature = true

def SignersWith (power : Int) : Prop :=
  ∃ signers : Finset Nat, signers ⊆ Finset.range vals.size ∧
    (∀ index ∈ signers, SignedBy crypto chainID vals commit index) ∧
    power = weight vals.power signers

theorem vote_sign_bytes_for_block {sig : CommitSig} {idx : Nat}
    (found : commit.signatures[idx]? = some sig) (forBlock : sig.forBlock = true) :
    commit.voteSignBytes chainID idx = voteSignBytes chainID ⟨.precommit, commit.height,
      commit.round, commit.blockID, sig.timestamp, sig.validatorAddress, (idx : Nat),
      sig.signature⟩ := by
  have flag : sig.blockIDFlag = .commit := by simpa [CommitSig.forBlock] using forBlock
  simp [Commit.voteSignBytes, Commit.getVote, found, CommitSig.blockID, flag]

variable (needed : Int) (mode : VerifyMode)

theorem tally_signer (wellFormed : vals.WellFormed) {signers : Finset Nat}
    (inside : signers ⊆ Finset.range vals.size) {index : Nat} {val : Validator}
    (here : vals.validators[index]? = some val) (fresh : index ∉ signers) {sig : CommitSig}
    (counts : mode.countSig sig = true) :
    insert index signers ⊆ Finset.range vals.size ∧
      mode.tally (weight vals.power signers) sig val =
        weight vals.power (insert index signers) := by
  have bound : index < vals.size := (List.getElem?_eq_some_iff.mp here).1
  have within : insert index signers ⊆ Finset.range vals.size :=
    Finset.insert_subset (Finset.mem_range.mpr bound) inside
  have power : vals.power index = val.votingPower := by simp [ValidatorSet.power, here]
  have fits := ValidatorSet.weight_fits vals wellFormed within
  have small : maxTotalVotingPower ≤ maxInt64 := by decide
  refine ⟨within, ?_⟩
  rw [Quorum.weight_insert _ _ _ fresh, power] at fits ⊢
  rw [VerifyMode.tally, if_pos counts]
  exact int64_exact _ (by unfold minInt64; omega) (by omega)

/-- The signers counted so far: none of them is counted again, as an index
occurs once in the commit and an address that was seen is refused. -/
structure Gathered (seen : Nat → Option Nat) (rest : List (CommitSig × Nat)) (tallied : Int)
    (signers : Finset Nat) : Prop where
  inside : signers ⊆ Finset.range vals.size
  signed : ∀ index ∈ signers, SignedBy crypto chainID vals commit index
  apart : ∀ index ∈ signers, if mode.lookUpByIndex then index ∉ rest.map Prod.snd
    else seen index ≠ none
  sum : tallied = weight vals.power signers

variable {crypto chainID vals commit mode} in
theorem Gathered.skip {seen : Nat → Option Nat} {entry : CommitSig × Nat}
    {rest : List (CommitSig × Nat)} {tallied : Int} {signers : Finset Nat}
    (gathered : Gathered crypto chainID vals commit mode seen (entry :: rest) tallied signers) :
    Gathered crypto chainID vals commit mode seen rest tallied signers := by
  refine { gathered with apart := ?_ }
  intro index member
  have before := gathered.apart index member
  split at before
  case isTrue byIndex =>
    simp only [map_cons, mem_cons, not_or] at before
    simpa [byIndex] using before.2
  case isFalse byAddress => simpa [byAddress] using before

variable {crypto chainID vals commit mode} in
theorem Gathered.look_up {seen next : Nat → Option Nat} {sig : CommitSig} {idx : Nat}
    {rest : List (CommitSig × Nat)} {tallied : Int} {signers : Finset Nat}
    (gathered : Gathered crypto chainID vals commit mode seen rest tallied signers)
    (val : Validator)
    (found : lookUpValidator mode vals seen sig idx = .ok (.ok (some val, next))) :
    Gathered crypto chainID vals commit mode next rest tallied signers := by
  refine { gathered with apart := ?_ }
  intro index member
  have before := gathered.apart index member
  obtain ⟨position, _, ⟨_, _, rfl⟩ | ⟨byAddress, _, _, rfl⟩⟩ := look_up_some vals mode found
  · exact before
  · simp only [byAddress, Bool.false_eq_true, if_false] at before ⊢
    by_cases same : index = position
    · rw [same, Function.update_self]
      exact Option.some_ne_none _
    · rw [Function.update_of_ne same]
      exact before

variable {crypto chainID vals commit mode} in
theorem Gathered.add {seen next : Nat → Option Nat} {sig : CommitSig} {idx : Nat}
    {rest : List (CommitSig × Nat)} {tallied : Int} {signers : Finset Nat} {val : Validator}
    {signBytes : Bytes}
    (gathered : Gathered crypto chainID vals commit mode seen ((sig, idx) :: rest) tallied signers)
    (wellFormed : vals.WellFormed)
    (forBlock : mode.countSig sig = true → sig.forBlock = true)
    (found : lookUpValidator mode vals seen sig idx = .ok (.ok (some val, next)))
    (signed : commit.voteSignBytes chainID idx = .ok signBytes)
    (verified : BatchEntry.Verifies crypto ⟨val.pubKey, signBytes, sig.signature⟩)
    (here : commit.signatures[idx]? = some sig) (once : idx ∉ rest.map Prod.snd) :
    ∃ more,
      Gathered crypto chainID vals commit mode next rest (mode.tally tallied sig val) more := by
  have older := gathered.skip.look_up val found
  obtain ⟨index, holder, look⟩ := look_up_some vals mode found
  by_cases counts : mode.countSig sig = true
  case neg =>
    exact ⟨signers, { older with sum := by rw [VerifyMode.tally, if_neg counts, older.sum] }⟩
  have fresh : index ∉ signers := by
    intro member
    have before := gathered.apart index member
    rcases look with ⟨byIndex, same, _⟩ | ⟨byAddress, _, unseen, _⟩
    · simp [byIndex, same] at before
    · simp [byAddress, unseen] at before
  obtain ⟨within, sum⟩ := tally_signer vals mode wellFormed gathered.inside holder fresh counts
  refine ⟨insert index signers, within, ?_, ?_, by rw [gathered.sum, sum]⟩
  · intro other member
    rcases Finset.mem_insert.mp member with rfl | old
    · rw [vote_sign_bytes_for_block chainID commit here (forBlock counts)] at signed
      exact ⟨val, sig, idx, signBytes, holder, here, signed, verified⟩
    · exact gathered.signed other old
  · intro other member
    rcases Finset.mem_insert.mp member with rfl | old
    · rcases look with ⟨byIndex, same, _⟩ | ⟨byAddress, _, _, rfl⟩
      · simpa [byIndex, same] using once
      · simp [byAddress]
    · exact older.apart other old

theorem examines_signers (wellFormed : vals.WellFormed)
    (forBlock : ∀ sig, mode.ignoreSig sig = false → mode.countSig sig = true → sig.forBlock = true)
    {seen : Nat → Option Nat} {tallied : Int} {rest : List (CommitSig × Nat)}
    {entries : List (BatchEntry × Nat)} {final : Int}
    (examined : Examines chainID vals commit needed mode seen tallied rest entries final)
    (valid : ∀ entry ∈ entries, BatchEntry.Verifies crypto entry.1)
    (listed : ∀ sig idx, (sig, idx) ∈ rest → commit.signatures[idx]? = some sig)
    (distinct : (rest.map Prod.snd).Nodup) (signers : Finset Nat)
    (gathered : Gathered crypto chainID vals commit mode seen rest tallied signers) :
    SignersWith crypto chainID vals commit final := by
  induction examined generalizing signers with
  | done => exact ⟨signers, gathered.inside, gathered.signed, gathered.sum⟩
  | ignored _ _ _ _ _ _ _ _ _ ih =>
    exact ih valid (fun other index member => listed other index (mem_cons_of_mem _ member))
      (nodup_cons.mp distinct).2 signers gathered.skip
  | unknown seen next _ sig idx rest _ _ _ found _ ih =>
    have same : next = seen := by
      unfold lookUpValidator at found
      split at found
      · split at found <;> cases found
      · split at found
        · cases found
          rfl
        · split at found <;> cases found
    rw [same] at ih
    exact ih valid (fun other index member => listed other index (mem_cons_of_mem _ member))
      (nodup_cons.mp distinct).2 signers gathered.skip
  | last _ _ _ sig idx _ _ _ kept found signed =>
    obtain ⟨more, final⟩ := gathered.add wellFormed (forBlock sig kept) found signed
      (valid _ (mem_singleton_self _)) (listed sig idx mem_cons_self)
      (nodup_cons.mp distinct).1
    exact ⟨more, final.inside, final.signed, final.sum⟩
  | counted _ _ _ sig idx _ _ _ _ _ kept found signed _ ih =>
    obtain ⟨more, next⟩ := gathered.add wellFormed (forBlock sig kept) found signed
      (valid _ mem_cons_self) (listed sig idx mem_cons_self)
      (nodup_cons.mp distinct).1
    exact ih (fun entry member => valid entry (mem_cons_of_mem _ member))
      (fun other index member => listed other index (mem_cons_of_mem _ member))
      (nodup_cons.mp distinct).2 more next

theorem verify_with_signers (faithful : crypto.BatchFaithful) (wellFormed : vals.WellFormed)
    (forBlock : ∀ sig, mode.ignoreSig sig = false → mode.countSig sig = true → sig.forBlock = true)
    (accepted : verifyCommitWith crypto chainID vals commit needed mode = .ok none) :
    ∃ power, SignersWith crypto chainID vals commit power ∧ needed < power := by
  obtain ⟨_, entries, final, _, examined, above, valid, _⟩ :=
    (verify_with_accepts_iff _ _ _ _ _ _ faithful).mp accepted
  refine ⟨final, ?_, above⟩
  refine examines_signers crypto chainID vals commit needed mode wellFormed forBlock
    (examines_of_examine _ _ _ _ _ examined) valid
    (fun sig idx member => mem_zip_idx member) ?_ ∅
    ⟨Finset.empty_subset _, by simp, by simp, rfl⟩
  rw [zipIdx_map_snd]
  exact nodup_range'

variable {chainID vals commit needed} in
theorem light_of_full {seen : Nat → Option Nat} {tallied : Int} {rest : List (CommitSig × Nat)}
    {entries : List (BatchEntry × Nat)} {final : Int}
    (examined : Examines chainID vals commit needed fullMode seen tallied rest entries final)
    (above : needed < final) :
    ∃ fewer power, examine chainID vals commit needed lightMode seen tallied rest =
        some (fewer, power) ∧ needed < power ∧ fewer ⊆ entries := by
  induction examined with
  | done seen tallied => exact ⟨[], tallied, rfl, above, List.Subset.refl _⟩
  | ignored seen tallied sig idx rest entries final skipped _ ih =>
    have light : lightMode.ignoreSig sig = true := by
      have flag : sig.blockIDFlag = .absent := by
        simpa [fullMode, CommitSig.absent] using skipped
      simp [lightMode, CommitSig.forBlock, flag]
    obtain ⟨fewer, power, later, enough, subset⟩ := ih above
    exact ⟨fewer, power, by rw [examine, if_pos light, later], enough, subset⟩
  | unknown _ _ _ _ _ _ _ _ _ found =>
    simp only [lookUpValidator, fullMode, if_true] at found
    split at found <;> cases found
  | last _ _ _ _ _ _ _ _ _ _ _ partly => cases partly
  | counted seen next tallied sig idx rest val signBytes entries final kept found signed _ ih =>
    have sameSeen : next = seen := by
      obtain ⟨_, _, ⟨_, _, same⟩ | ⟨byAddress, _⟩⟩ := look_up_some vals _ found
      · exact same
      · cases byAddress
    obtain ⟨fewer, power, later, enough, subset⟩ := ih above
    rw [sameSeen] at later
    by_cases forBlock : sig.forBlock = true
    · have light : ¬ lightMode.ignoreSig sig = true := by simp [lightMode, forBlock]
      have tally : fullMode.tally tallied sig val = lightMode.tally tallied sig val := by
        simp [VerifyMode.tally, fullMode, lightMode, forBlock]
      have look : lookUpValidator lightMode vals seen sig idx = .ok (.ok (some val, seen)) := by
        rw [← sameSeen]
        rw [← sameSeen] at found
        exact found
      rw [tally] at later
      rw [examine, if_neg light, look, signed]
      by_cases stop : needed < lightMode.tally tallied sig val
      · exact ⟨_, _, if_pos (Bool.and_eq_true_iff.mpr ⟨rfl, decide_eq_true stop⟩), stop, by simp⟩
      · refine ⟨_, power, ?_, enough, cons_subset_cons _ subset⟩
        simp only
        rw [if_neg (by simp [stop]), later]
        rfl
    · have light : lightMode.ignoreSig sig = true := by simpa [lightMode] using forBlock
      have tally : fullMode.tally tallied sig val = tallied := by
        rw [VerifyMode.tally, if_neg (by simpa [fullMode] using forBlock)]
      rw [tally] at later
      exact ⟨fewer, power, by rw [examine, if_pos light, later], enough,
        subset_cons_of_subset _ subset⟩

theorem verify_with_light_of_full (faithful : crypto.BatchFaithful)
    (accepted : verifyCommitWith crypto chainID vals commit needed fullMode = .ok none) :
    verifyCommitWith crypto chainID vals commit needed lightMode = .ok none := by
  obtain ⟨batchType, entries, final, batch, examined, above, valid, uniform⟩ :=
    (verify_with_accepts_iff _ _ _ _ _ _ faithful).mp accepted
  obtain ⟨fewer, power, light, enough, subset⟩ :=
    light_of_full (examines_of_examine _ _ _ _ _ examined) above
  exact (verify_with_accepts_iff _ _ _ _ _ _ faithful).mpr ⟨batchType, fewer, power, batch, light,
    enough, fun entry member => valid entry (subset member),
    fun keyType chosen entry member => uniform keyType chosen entry (subset member)⟩

end Signers

section Addresses

variable (crypto : Crypto) (chainID : ChainID) (vals : ValidatorSet) (commit : Commit)

variable {crypto chainID vals commit} in
/-- The full loop verifies each signature that is not absent with the key of the
validator at its index. The address beside it is not read. -/
theorem full_signature_holds (faithful : crypto.BatchFaithful) {needed : Int}
    (accepted : verifyCommitWith crypto chainID vals commit needed fullMode = .ok none)
    (index : Nat) (sig : CommitSig) (found : commit.signatures[index]? = some sig)
    (present : sig.absent = false) : SignatureHolds crypto chainID vals commit sig index := by
  obtain ⟨_, entries, final, _, examined, _, valid, _⟩ :=
    (verify_with_accepts_iff _ _ _ _ _ _ faithful).mp accepted
  have steps := examines_of_examine _ _ _ _ _ examined
  obtain ⟨entry, member, rfl⟩ := examines_all _ _ _ _ _ rfl rfl steps sig index
    (mk_mem_zipIdx_iff_getElem?.mpr found) present
  obtain ⟨other, val, position, inside, _, here, same, pubKey, signature, signed⟩ :=
    examines_entry _ _ _ _ _ steps entry member
  rw [mem_zip_idx inside] at found
  cases found
  rw [same rfl] at here
  have verified := valid entry member
  rw [BatchEntry.Verifies, pubKey, signature] at verified
  exact ⟨val, entry.1.message, here, signed, verified⟩

/-- Each signature that is not absent carries the address of the validator at
its index, which is the address of that validator's key. -/
def AddressBound : Prop :=
  commit.height ≠ 0 ∧ ∀ (index : Nat) (sig : CommitSig) (val : Validator),
    commit.signatures[index]? = some sig → sig.absent = false →
    vals.validators[index]? = some val →
    sig.validatorAddress = val.address ∧ val.address = crypto.address val.pubKey ∧ val.address ≠ []

def presentVote (index : Nat) : Option Vote :=
  (commit.signatures[index]?.filter fun sig => !sig.absent).bind fun _ =>
    (commit.getVote index).toOption

variable {crypto chainID vals commit} in
theorem accepted_of_signature {start : VoteSet}
    (subject : start.subject = (chainID, commit.height, commit.round, .precommit, vals))
    {index : Nat} {sig : CommitSig} {val : Validator}
    (found : commit.signatures[index]? = some sig) (here : vals.validators[index]? = some val)
    (holds : SignatureHolds crypto chainID vals commit sig index)
    (bound : sig.validatorAddress = val.address ∧ val.address = crypto.address val.pubKey ∧
      val.address ≠ []) :
    ∃ vote, commit.getVote index = .ok vote ∧ vote.validatorIndex.toNat = index ∧
      VoteSet.Accepted crypto start vote val := by
  simp only [VoteSet.subject, Prod.mk.injEq] at subject
  obtain ⟨sameChain, sameHeight, sameRound, sameType, sameVals⟩ := subject
  obtain ⟨holder, bytes, there, signed, verified⟩ := holds
  rw [here] at there
  cases there
  cases given : commit.getVote index with
  | error text => simp [Commit.voteSignBytes, given] at signed
  | ok vote =>
  have bytesOf : voteSignBytes chainID vote = .ok bytes := by
    simpa [Commit.voteSignBytes, given] using signed
  simp only [Commit.getVote, found, bind_eq, pure_eq] at given
  split at given
  · cases given
  cases given
  refine ⟨_, rfl, rfl, sameHeight.symm, sameRound.symm, sameType.symm, ?_, ?_, bound.1, ?_⟩
  · rw [sameVals]
    simpa [ValidatorSet.getByIndex] using here
  · rw [bound.1]
    simpa using bound.2.2
  · rw [sameChain, Vote.verify, if_neg (by simpa using (bound.1.trans bound.2.1).symm), bytesOf]
    simp [verified]

variable {crypto commit} in
theorem add_commit_sigs_accepted {sigs : List CommitSig} {count : Nat} {start final : VoteSet}
    (returned : addCommitSigs crypto commit start (sigs.zipIdx count) = .ok final) :
    ∀ sig idx, (sig, idx) ∈ sigs.zipIdx count → sig.absent = false →
      ∃ vote val current, commit.getVote idx = .ok vote ∧
        current.subject = start.subject ∧ VoteSet.Accepted crypto current vote val := by
  induction sigs generalizing count start with
  | nil => simp
  | cons head rest ih =>
  intro sig idx member present
  rw [zipIdx_cons] at member returned
  unfold addCommitSigs at returned
  by_cases absent : head.absent = true
  · rw [if_pos absent] at returned
    rcases mem_cons.mp member with same | later
    · cases same
      rw [absent] at present
      cases present
    · exact ih returned sig idx later present
  · rw [if_neg absent] at returned
    obtain ⟨vote, given, returned⟩ := bind_ok.mp returned
    cases added : start.addVote crypto (some vote) with
    | error text => simp [given, added] at returned
    | ok outcome =>
    obtain ⟨result, next⟩ := outcome
    simp only [given, added, bind_eq] at returned
    split at returned
    · cases returned
    rename_i success
    rcases mem_cons.mp member with same | later
    · cases same
      rcases VoteSet.add_vote_cases added with
        ⟨_, refused⟩ | ⟨accepted, val, _, same, holds, _⟩
      · simp [refused] at success
      · cases same
        exact ⟨vote, val, start, given, rfl, holds⟩
    · have sameSubject := (VoteSet.add_vote_frame crypto start next (some vote) result added).1
      obtain ⟨other, val, current, found, subject, holds⟩ :=
        ih returned sig idx later present
      exact ⟨other, val, current, found, subject.trans sameSubject, holds⟩

theorem accepted_addresses {start : VoteSet} {vote : Vote} {val : Validator}
    (accepted : VoteSet.Accepted crypto start vote val) :
    vote.validatorAddress = val.address ∧ val.address = crypto.address val.pubKey ∧
      val.address ≠ [] := by
  have verified := accepted.verified
  unfold Vote.verify at verified
  split at verified
  · cases verified
  rename_i own
  refine ⟨accepted.address, ?_, ?_⟩
  · rw [← accepted.address]
    exact (not_not.mp own).symm
  · intro empty
    apply accepted.named
    rw [accepted.address, empty]
    rfl

theorem address_bound_of_rebuilt {voteSet : VoteSet}
    (rebuilt : commitToVoteSet crypto chainID commit vals = .ok voteSet) :
    AddressBound crypto vals commit := by
  unfold commitToVoteSet at rebuilt
  obtain ⟨start, made, rebuilt⟩ := bind_ok.mp rebuilt
  have fresh : commit.height ≠ 0 ∧ start.valSet = vals := by
    unfold VoteSet.new at made
    split at made
    · cases made
    · rename_i nonzero
      cases made
      exact ⟨nonzero, rfl⟩
  refine ⟨fresh.1, ?_⟩
  intro index sig val found present here
  obtain ⟨vote, holder, current, given, same, taken⟩ := add_commit_sigs_accepted rebuilt sig index
    (mk_mem_zipIdx_iff_getElem?.mpr found) present
  have validator := taken.validator
  simp only [Commit.getVote, found, bind_eq, pure_eq] at given
  split at given
  · cases given
  cases given
  rw [show current.valSet = vals from (congrArg (·.2.2.2.2) same).trans fresh.2] at validator
  simp only [ValidatorSet.getByIndex, Int.toNat_natCast] at validator
  rw [if_neg (by omega), here] at validator
  cases validator
  exact accepted_addresses crypto taken

theorem rebuilt_of_address_bound (wellFormed : vals.WellFormed)
    (holds : ∀ index sig, commit.signatures[index]? = some sig → sig.absent = false →
      SignatureHolds crypto chainID vals commit sig index)
    (bound : AddressBound crypto vals commit) :
    ∃ start final, commitToVoteSet crypto chainID commit vals = .ok final ∧
      start.subject = (chainID, commit.height, commit.round, .precommit, vals) ∧
      Rebuilt start (presentVote commit) (fun _ => True) commit.signatures.length final := by
  obtain ⟨nonzero, addresses⟩ := bound
  cases made : VoteSet.new chainID commit.height commit.round .precommit vals with
  | error text => simp [VoteSet.new, nonzero] at made
  | ok start =>
  have subject : start.subject = (chainID, commit.height, commit.round, .precommit, vals) := by
    simp only [VoteSet.new, nonzero, if_false, Except.ok.injEq] at made
    rw [← made]
    rfl
  have sameChain : start.chainID = chainID := congrArg (·.1) subject
  have sameVals : start.valSet = vals := congrArg (·.2.2.2.2) subject
  have restorable : Restorable crypto commit start (presentVote commit) fun _ => True := by
    refine ⟨by rw [sameVals]; exact wellFormed, ?_, ?_⟩
    · intro index sig found absent
      simp [presentVote, found, Option.filter_some, absent]
    · intro index sig found present
      have valid := holds index sig found present
      obtain ⟨val, _, here, _⟩ := id valid
      obtain ⟨vote, given, position, taken⟩ := accepted_of_signature subject
        found here valid (addresses index sig val found present here)
      exact ⟨vote, val, by simp [presentVote, found, Option.filter_some, present, given,
        Except.toOption], trivial, given, position, taken⟩
  obtain ⟨final, rebuilt, built⟩ := commit_to_vote_set_rebuilds crypto commit start _ _ restorable
    nonzero (by rw [subject, sameChain, sameVals])
  rw [sameChain, sameVals] at rebuilt
  exact ⟨start, final, rebuilt, subject, built⟩

/-- The signatures of an accepted commit belong to the validators whose addresses
they carry, and the commit can be turned into a vote set again, exactly when the
addresses are bound to the keys that verified. -/
theorem verified_commit_bound_iff (faithful : crypto.BatchFaithful) (wellFormed : vals.WellFormed)
    (blockID : BlockID) (height : Int)
    (accepted : verifyCommit crypto chainID vals blockID height commit = .ok none) :
    ((∀ index sig, commit.signatures[index]? = some sig → sig.absent = false →
        ∃ val, vals.validators[index]? = some val ∧ sig.validatorAddress = val.address ∧
          vals.getByAddress sig.validatorAddress = some (index, val)) ∧
      ∃ voteSet, commitToVoteSet crypto chainID commit vals = .ok voteSet) ↔
    AddressBound crypto vals commit := by
  obtain ⟨needed, full⟩ : ∃ needed,
      verifyCommitWith crypto chainID vals commit needed fullMode = .ok none := by
    unfold verifyCommit at accepted
    split at accepted
    · cases accepted
    · simp only [ValidatorSet.total_voting_power_eq _ wellFormed, bind_eq] at accepted
      exact ⟨_, accepted⟩
  have holds := full_signature_holds faithful full
  constructor
  · rintro ⟨-, voteSet, rebuilt⟩
    exact address_bound_of_rebuilt crypto chainID vals commit rebuilt
  · intro bound
    obtain ⟨_, final, rebuilt, _⟩ :=
      rebuilt_of_address_bound crypto chainID vals commit wellFormed holds bound
    refine ⟨?_, final, rebuilt⟩
    intro index sig found present
    obtain ⟨val, _, here, _⟩ := holds index sig found present
    have own := bound.2 index sig val found present here
    refine ⟨val, here, own.1, ?_⟩
    rw [own.1]
    exact ValidatorSet.get_by_address_distinct vals wellFormed.distinct index here

end Addresses

theorem pair_commit_bound :
    verifyCommit .acceptAll [] uniformSet someBlock 1 twoSigned = .ok none ∧
    shouldBatchVerify uniformSet twoSigned = .ok true ∧
    ∃ voteSet, commitToVoteSet .acceptAll [] twoSigned uniformSet = .ok voteSet := by
  refine ⟨by decide, by decide, ((verified_commit_bound_iff .acceptAll [] uniformSet twoSigned
    accept_all_faithful uniform_set_well_formed someBlock 1 (by decide)).mpr ?_).2⟩
  refine ⟨by decide, ?_⟩
  intro index sig val found _ here
  match index with
  | 0 =>
    cases found
    cases here
    exact ⟨rfl, rfl, by decide⟩
  | 1 =>
    cases found
    cases here
    exact ⟨rfl, rfl, by decide⟩
  | later + 2 => cases found

def foreignSigned : Commit := ⟨1, 0, someBlock, [⟨.commit, [2], 0, [7]⟩]⟩

/-- The commit is accepted, its signature is attributed to no validator, and
`CommitToVoteSet` panics on it. -/
theorem foreign_address_accepted :
    verifyCommit .acceptAll [] VoteSet.soleSet someBlock 1 foreignSigned = .ok none ∧
    VoteSet.soleSet.getByAddress [2] = none ∧
    commitToVoteSet .acceptAll [] foreignSigned VoteSet.soleSet =
      .error "Failed to reconstruct LastCommit" := by
  refine ⟨by decide, by decide, ?_⟩
  rfl

section Agreement

variable (crypto : Crypto) (chainID : ChainID) (vals : ValidatorSet) (commit : Commit)
  (needed : Int) (mode : VerifyMode)

def proposedBy (proposer : Validator) : ValidatorSet := { vals with proposer := some proposer }

/-- If the proposer's key makes it a batch: where the signatures that are looked at would be
accepted one by one, their keys all have the type of that key. -/
def BatchReady (proposer : Validator) : Prop :=
  ∀ entries final, batchVerifyThreshold ≤ commit.signatures.length →
    supportsBatchVerifier proposer.pubKey = true →
    examine chainID vals commit needed mode (fun _ => none) 0 commit.signatures.zipIdx =
      some (entries, final) → needed < final →
    (∀ entry ∈ entries, BatchEntry.Verifies crypto entry.1) →
    ∀ entry ∈ entries, entry.1.pubKey.keyType = proposer.pubKey.keyType

theorem examine_other_proposer (proposer : Validator) (rest : List (CommitSig × Nat))
    (seen : Nat → Option Nat) (tallied : Int) :
    examine chainID (proposedBy vals proposer) commit needed mode seen tallied rest =
      examine chainID vals commit needed mode seen tallied rest := by
  induction rest generalizing seen tallied with
  | nil => rfl
  | cons entry rest ih =>
    simp only [examine, ih]
    rfl

variable {vals} in
theorem proposed_by_proposes {proposer : Validator} (member : proposer ∈ vals.validators) :
    (proposedBy vals proposer).getProposer = .ok (some proposer) := by
  unfold ValidatorSet.getProposer
  rw [if_neg (by simp [proposedBy, ne_nil_of_mem member])]
  rfl

section

variable (faithful : crypto.BatchFaithful) {proposer : Validator}
  (member : proposer ∈ vals.validators)

include faithful member

theorem proposed_by_accepts_iff :
    verifyCommitWith crypto chainID (proposedBy vals proposer) commit needed mode = .ok none ↔
      verifyCommitSingle crypto chainID vals commit needed mode = .ok none ∧
        BatchReady crypto chainID vals commit needed mode proposer := by
  rw [verify_with_accepts_iff _ _ _ _ _ _ faithful,
    batch_key_type_cases (proposed_by_proposes member), verifyCommitSingle,
    single_loop_accepts_iff]
  simp only [examine_other_proposer]
  constructor
  · rintro ⟨_, entries, final, chosen, examined, above, valid, uniform⟩
    cases chosen
    refine ⟨⟨entries, final, examined, above, valid⟩, ?_⟩
    intro others last many supported again _ _
    rw [examined] at again
    cases again
    exact uniform _ (if_pos ⟨many, supported⟩)
  · rintro ⟨⟨entries, final, examined, above, valid⟩, ready⟩
    refine ⟨_, entries, final, rfl, examined, above, valid, fun keyType batched => ?_⟩
    split at batched
    · rename_i both
      cases batched
      exact ready entries final both.1 both.2 examined above valid
    · cases batched

theorem proposed_by_batch
    (batched : shouldBatchVerify (proposedBy vals proposer) commit = .ok true) :
    (verifyCommitBatch crypto chainID (proposedBy vals proposer) commit needed mode = .ok none ↔
        verifyCommitSingle crypto chainID vals commit needed mode = .ok none) ↔
      BatchReady crypto chainID vals commit needed mode proposer := by
  have here := proposed_by_accepts_iff crypto chainID vals commit needed mode faithful member
  simp only [verifyCommitWith, batched, bind_eq, if_true] at here
  rw [here]
  constructor
  · intro agree entries final many supported examined above valid
    refine (agree.mpr ?_).2 entries final many supported examined above valid
    rw [verifyCommitSingle, single_loop_accepts_iff]
    exact ⟨entries, final, examined, above, valid⟩
  · exact fun ready => ⟨And.left, fun single => ⟨single, ready⟩⟩

end

end Agreement

theorem uniform_keys_ready (proposer : Validator) (present : proposer ∈ uniformSet.validators) :
    BatchReady .acceptAll [] uniformSet twoSigned 1 fullMode proposer := by
  intro entries final _ _ examined _ _ entry member
  have gathered : (examine [] uniformSet twoSigned 1 fullMode (fun _ => none) 0
      twoSigned.signatures.zipIdx).map (fun found => found.1.map fun entry =>
        entry.1.pubKey.keyType) = some [.ed25519, .ed25519] := by decide
  rw [examined] at gathered
  simp only [Option.map_some, Option.some.injEq] at gathered
  have typed : entry.1.pubKey.keyType ∈ [KeyType.ed25519, KeyType.ed25519] := by
    rw [← gathered]
    exact mem_map_of_mem member
  have proposes : ∀ val ∈ uniformSet.validators, val.pubKey.keyType = .ed25519 := by decide
  rw [proposes proposer present]
  simpa using typed

def mixedSetOther : ValidatorSet :=
  { mixedSet with proposer := some ⟨[2], ⟨.secp256k1, [2]⟩, 1, 0⟩ }

end Tendermint.Types
