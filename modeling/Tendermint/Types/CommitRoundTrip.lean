import Tendermint.Types.CommitVerification

/-!
Reconstruction of a vote set from its commit, and the agreement of `MakeCommit`
with verification and reconstruction. A commit has at most one vote of each
validator, so `CommitToVoteSet` meets no conflict and the set it builds counts
exactly the votes it shows.
-/

namespace Tendermint.Types

open List
open Quorum (slot filled weight)

/-- A set in which the votes shown are exactly those counted. -/
structure Mirrored (voteSet : VoteSet) : Prop where
  counted : ∀ index vote, slot voteSet.votes index = some vote →
    ∃ votes, voteSet.votesByBlock vote.blockID.key = some votes ∧ slot votes.votes index = some vote
  shown : ∀ key votes index vote, voteSet.votesByBlock key = some votes →
    slot votes.votes index = some vote → slot voteSet.votes index = some vote

theorem mirrored_new {chainID : ChainID} {height round : Int} {type : SignedMsgType}
    {valSet : ValidatorSet} {voteSet : VoteSet}
    (made : VoteSet.new chainID height round type valSet = .ok voteSet) : Mirrored voteSet := by
  unfold VoteSet.new at made
  split at made
  · cases made
  · cases made
    refine ⟨?_, ?_⟩
    · intro index vote found
      simp [Quorum.slot_replicate] at found
    · intro key votes index vote found
      cases found

section

variable (crypto : Crypto) (voteSet : VoteSet) (vote : Vote) (val : Validator)
  (wellFormed : voteSet.valSet.WellFormed)

include wellFormed

theorem add_vote_fresh (mirrored : Mirrored voteSet)
    (accepted : VoteSet.Accepted crypto voteSet vote val)
    (vacant : slot voteSet.votes vote.validatorIndex.toNat = none) :
    ∃ votes, (voteSet.votesByBlock vote.blockID.key = some votes ∨
        (voteSet.votesByBlock vote.blockID.key = none ∧ votes = .new false voteSet.valSet.size)) ∧
      slot votes.votes vote.validatorIndex.toNat = none ∧
      voteSet.addVote crypto (some vote) = .ok (⟨true, none⟩,
        (voteSet.place vote vote.blockID.key val.votingPower).count vote vote.blockID.key
          val.votingPower voteSet.quorum votes) := by
  have range := ValidatorSet.get_by_index_some _ accepted.validator
  have uncounted : ∀ votes, voteSet.votesByBlock vote.blockID.key = some votes →
      slot votes.votes vote.validatorIndex.toNat = none := by
    intro votes found
    cases present : slot votes.votes vote.validatorIndex.toNat with
    | none => rfl
    | some other =>
      rw [mirrored.shown _ votes _ other found present] at vacant
      cases vacant
  have unknown : voteSet.getVote vote.validatorIndex.toNat vote.blockID.key = none := by
    simp only [VoteSet.getVote, vacant, Option.filter_none]
    cases found : voteSet.votesByBlock vote.blockID.key with
    | none => rfl
    | some votes => exact uncounted votes found
  obtain ⟨subject, _, blocks⟩ :=
    VoteSet.place_frame voteSet vote vote.blockID.key val.votingPower
  have sameSet : (voteSet.place vote vote.blockID.key val.votingPower).valSet = voteSet.valSet :=
    congrArg (·.2.2.2.2) subject
  have checks : ∀ votes,
      (voteSet.place vote vote.blockID.key val.votingPower).trackedVotes vote.blockID.key none =
        some votes →
      voteSet.addVote crypto (some vote) = .ok (⟨true, none⟩,
        (voteSet.place vote vote.blockID.key val.votingPower).count vote vote.blockID.key
          val.votingPower voteSet.quorum votes) := by
    intro votes tracked
    have stored : voteSet.addVerifiedVote vote vote.blockID.key val.votingPower =
        .ok (true, none, (voteSet.place vote vote.blockID.key val.votingPower).count vote
          vote.blockID.key val.votingPower voteSet.quorum votes) := by
      simp only [VoteSet.addVerifiedVote, vacant, Option.any_none, Bool.false_eq_true, if_false,
        tracked, sameSet, ValidatorSet.total_voting_power_eq _ wellFormed, bind_eq, pure_eq]
      rfl
    exact VoteSet.add_vote_accepted accepted range.1 unknown stored fun _ => rfl
  cases found : voteSet.votesByBlock vote.blockID.key with
  | some votes =>
    refine ⟨votes, Or.inl rfl, uncounted votes found, checks votes ?_⟩
    simp [VoteSet.trackedVotes, blocks, found]
  | none =>
    refine ⟨.new false voteSet.valSet.size, Or.inr ⟨rfl, rfl⟩,
      by simp [BlockVotes.new, Quorum.slot_replicate], checks _ ?_⟩
    simp [VoteSet.trackedVotes, blocks, found, sameSet]

theorem add_fresh_vote (tallied : voteSet.Tallied) (mirrored : Mirrored voteSet)
    (accepted : VoteSet.Accepted crypto voteSet vote val)
    (vacant : slot voteSet.votes vote.validatorIndex.toNat = none) :
    ∃ next, voteSet.addVote crypto (some vote) = .ok (⟨true, none⟩, next) ∧ Mirrored next ∧
      next.Tallied ∧ next.subject = voteSet.subject ∧
      ∀ index, slot next.votes index =
        if index = vote.validatorIndex.toNat then some vote else slot voteSet.votes index := by
  obtain ⟨votes, origin, free, added⟩ :=
    add_vote_fresh crypto voteSet vote val wellFormed mirrored accepted vacant
  have room : vote.validatorIndex.toNat < voteSet.votes.length := by
    rw [tallied.length]
    exact accepted.inside.1
  have ownRoom : vote.validatorIndex.toNat < votes.votes.length := by
    rcases origin with found | ⟨_, rfl⟩
    · rw [(tallied.blocks _ _ found).length]
      exact accepted.inside.1
    · simpa [BlockVotes.new] using accepted.inside.1
  have ownShown : ∀ index other, slot votes.votes index = some other →
      slot voteSet.votes index = some other := by
    intro index other present
    rcases origin with found | ⟨_, rfl⟩
    · exact mirrored.shown _ votes index other found present
    · simp [BlockVotes.new, Quorum.slot_replicate] at present
  have after : ∀ index, slot (votes.addVerifiedVote vote val.votingPower).votes index =
      if index = vote.validatorIndex.toNat then some vote else slot votes.votes index := by
    intro index
    rw [BlockVotes.add_vacant val.votingPower free]
    exact Quorum.slot_set _ _ ownRoom
  have placed : ∀ index, slot (voteSet.place vote vote.blockID.key val.votingPower).votes index =
      if index = vote.validatorIndex.toNat then some vote else slot voteSet.votes index := by
    intro index
    simp only [VoteSet.place, vacant]
    exact Quorum.slot_set _ _ room
  -- Copying the majority's votes over changes nothing, as they are shown already.
  have shown : ∀ index, slot ((voteSet.place vote vote.blockID.key val.votingPower).count vote
      vote.blockID.key val.votingPower voteSet.quorum votes).votes index =
      if index = vote.validatorIndex.toNat then some vote else slot voteSet.votes index := by
    intro index
    rcases VoteSet.count_cases (voteSet.place vote vote.blockID.key val.votingPower) vote
      val.votingPower votes voteSet.quorum vote.blockID.key with ⟨kept, _⟩ | ⟨decided, _⟩
    · rw [kept]
      exact placed index
    · rw [decided]
      by_cases inside : index < (voteSet.place vote vote.blockID.key val.votingPower).votes.length
      · simp only [Quorum.slot_overlay _ _ inside, after, placed]
        split
        · rfl
        · cases present : slot votes.votes index with
          | none => rfl
          | some other => rw [ownShown index other present, Option.some_or]
      · rw [← placed index]
        cases present : slot (Quorum.overlay _ _) index with
        | some other =>
          have bound := Quorum.slot_lt present
          rw [Quorum.overlay_length] at bound
          exact absurd bound inside
        | none =>
          cases old : slot (voteSet.place vote vote.blockID.key val.votingPower).votes index with
          | none => rfl
          | some other => exact absurd (Quorum.slot_lt old) inside
  have blocks : ((voteSet.place vote vote.blockID.key val.votingPower).count vote
      vote.blockID.key val.votingPower voteSet.quorum votes).votesByBlock =
      Function.update voteSet.votesByBlock vote.blockID.key
        (some (votes.addVerifiedVote vote val.votingPower)) := by
    have same := (VoteSet.place_frame voteSet vote vote.blockID.key val.votingPower).2.2
    rcases VoteSet.count_cases (voteSet.place vote vote.blockID.key val.votingPower) vote
      val.votingPower votes voteSet.quorum vote.blockID.key with ⟨kept, _⟩ | ⟨decided, _⟩
    · rw [kept, same]
    · rw [decided, same]
  refine ⟨_, added, ⟨?_, ?_⟩, VoteSet.tallied_add_vote wellFormed
    tallied added, (VoteSet.add_vote_frame crypto voteSet _ (some vote) _ added).1,
    shown⟩
  · intro index stored present
    rw [shown] at present
    rw [blocks]
    split at present
    case isTrue same =>
      cases present
      exact ⟨_, Function.update_self .., by rw [after, if_pos same]⟩
    case isFalse other =>
      obtain ⟨entry, found, counted⟩ := mirrored.counted index stored present
      by_cases sameKey : stored.blockID.key = vote.blockID.key
      · rw [sameKey] at found ⊢
        refine ⟨_, Function.update_self .., ?_⟩
        rw [after, if_neg other]
        rcases origin with known | ⟨unknown, _⟩
        · rw [known] at found
          cases found
          exact counted
        · rw [unknown] at found
          cases found
      · exact ⟨entry, by rw [Function.update_of_ne sameKey, found], counted⟩
  · intro key entry index stored found counted
    rw [shown]
    rw [blocks] at found
    by_cases sameKey : key = vote.blockID.key
    · rw [sameKey, Function.update_self] at found
      cases found
      rw [after] at counted
      split at counted
      case isTrue same => rw [if_pos same, counted]
      case isFalse other => rw [if_neg other, ownShown index stored counted]
    · rw [Function.update_of_ne sameKey] at found
      have present := mirrored.shown key entry index stored found counted
      rw [if_neg]
      · exact present
      · rintro rfl
        rw [vacant] at present
        cases present

end

section Restore

variable (crypto : Crypto) (commit : Commit) (source : VoteSet) (votes : Nat → Option Vote)
  (allowed : Vote → Prop)

/-- A commit that gives a vote for each signature that is not absent, each of
which the set accepts. -/
structure Restorable : Prop where
  wellFormed : source.valSet.WellFormed
  absent : ∀ index sig, commit.signatures[index]? = some sig → sig.absent = true →
    votes index = none
  present : ∀ index sig, commit.signatures[index]? = some sig → sig.absent = false →
    ∃ vote val, votes index = some vote ∧ allowed vote ∧ commit.getVote index = .ok vote ∧
      vote.validatorIndex.toNat = index ∧ VoteSet.Accepted crypto source vote val

/-- What reconstruction has built once it has passed the first `count` signatures. -/
structure Rebuilt (count : Nat) (current : VoteSet) : Prop where
  mirrored : Mirrored current
  tallied : current.Tallied
  subject : current.subject = source.subject
  holds : current.Holds fun _ vote => allowed vote
  slots : ∀ index, slot current.votes index = if index < count then votes index else none

theorem add_commit_sigs_rebuilds (restorable : Restorable crypto commit source votes allowed)
    (sigs : List CommitSig) (count : Nat) (current : VoteSet)
    (suffix : sigs = commit.signatures.drop count)
    (built : Rebuilt source votes allowed count current) :
    ∃ final, addCommitSigs crypto commit current (sigs.zipIdx count) = .ok final ∧
      Rebuilt source votes allowed (count + sigs.length) final := by
  induction sigs generalizing count current with
  | nil => exact ⟨current, rfl, built⟩
  | cons sig rest ih =>
  have position : commit.signatures[count]? = some sig := by
    have head := congrArg (·[0]?) suffix
    simpa using head.symm
  have tail : rest = commit.signatures.drop (count + 1) := by
    have dropped := congrArg (·.drop 1) suffix
    simpa [drop_drop] using dropped
  have sameSet : current.valSet = source.valSet := congrArg (·.2.2.2.2) built.subject
  rw [zipIdx_cons, length_cons, ← Nat.add_assoc, Nat.add_right_comm]
  unfold addCommitSigs
  by_cases absent : sig.absent = true
  · simp only [absent, if_true]
    refine ih (count + 1) current tail { built with slots := ?_ }
    intro index
    rw [built.slots]
    have empty := restorable.absent count sig position absent
    by_cases before : index < count
    · rw [if_pos before, if_pos (by omega)]
    · by_cases same : index = count
      · rw [if_neg before, if_pos (by omega), same, empty]
      · rw [if_neg before, if_neg (by omega)]
  · obtain ⟨vote, val, entry, permitted, given, here, accepted⟩ :=
      restorable.present count sig position (by simpa using absent)
    have vacant : slot current.votes vote.validatorIndex.toNat = none := by
      rw [built.slots, here, if_neg (Nat.lt_irrefl count)]
    have wellFormed : current.valSet.WellFormed := by rw [sameSet]; exact restorable.wellFormed
    obtain ⟨next, added, mirrored, tallied, subject, slots⟩ := add_fresh_vote crypto current
      vote val wellFormed built.tallied built.mirrored (accepted.of_subject built.subject)
      vacant
    have holds := VoteSet.holds_add_vote (fun _ vote => allowed vote) wellFormed built.tallied
      built.holds
      (fun given _ same _ => by cases same; exact permitted) added
    have step := ih (count + 1) next tail
      ⟨mirrored, tallied, subject.trans built.subject, holds, by
        intro index
        rw [slots, here, built.slots]
        by_cases same : index = count
        · rw [if_pos same, if_pos (by omega), same, entry]
        · rw [if_neg same]
          by_cases before : index < count
          · rw [if_pos before, if_pos (by omega)]
          · rw [if_neg before, if_neg (by omega)]⟩
    simpa only [absent, if_false, given, added, bind_eq, Bool.not_true,
      Option.isSome_none, Bool.or_self, Bool.false_eq_true] using step

theorem commit_to_vote_set_rebuilds (restorable : Restorable crypto commit source votes allowed)
    (height : commit.height ≠ 0)
    (subject : source.subject =
      (source.chainID, commit.height, commit.round, .precommit, source.valSet)) :
    ∃ final, commitToVoteSet crypto source.chainID commit source.valSet = .ok final ∧
      Rebuilt source votes allowed commit.signatures.length final := by
  cases made : VoteSet.new source.chainID commit.height commit.round .precommit source.valSet with
  | error text => simp [VoteSet.new, height] at made
  | ok start =>
  have fresh := made
  simp only [VoteSet.new, height, if_false, Except.ok.injEq] at fresh
  have sameSubject : start.subject = source.subject := by
    rw [subject, ← fresh]
    rfl
  have empty : ∀ index, slot start.votes index = none := by
    intro index
    rw [← fresh]
    exact Quorum.slot_replicate _ _ _
  obtain ⟨final, rebuilt, built⟩ := add_commit_sigs_rebuilds crypto commit source votes allowed
    restorable commit.signatures 0 start rfl
    ⟨mirrored_new made, VoteSet.tallied_new _ _ _ _ _ _ made, sameSubject,
      VoteSet.holds_new _ made, by simp [empty]⟩
  refine ⟨final, ?_, by simpa using built⟩
  simp only [commitToVoteSet, bind_eq, made]
  exact rebuilt

end Restore

section Rebuild

variable (crypto : Crypto) (voteSet : VoteSet) (blockID : BlockID)

def keptVote (index : Nat) : Option Vote :=
  (slot voteSet.votes index).filter fun vote => decide (KeptFor blockID vote)

theorem kept_vote_iff (index : Nat) (vote : Vote) :
    keptVote voteSet blockID index = some vote ↔
      slot voteSet.votes index = some vote ∧ KeptFor blockID vote := by
  simp [keptVote, Option.filter_eq_some_iff]

theorem kept_vote_of_absent {index : Nat}
    (absent : (keptSig blockID (slot voteSet.votes index)).absent = true) :
    keptVote voteSet blockID index = none := by
  cases found : keptVote voteSet blockID index with
  | none => rfl
  | some vote =>
  obtain ⟨present, kept⟩ := (kept_vote_iff voteSet blockID index vote).mp found
  rw [present] at absent
  rcases kept_sig_cases blockID vote with ⟨_, sig⟩ | ⟨_, _, sig⟩ | ⟨dropped, _⟩
  · rw [sig] at absent; cases absent
  · rw [sig] at absent; cases absent
  · exact absurd kept dropped

theorem decided_restorable (decided : DecidedSet crypto voteSet blockID) :
    Restorable crypto (decidedCommit voteSet blockID) voteSet (keptVote voteSet blockID)
      (KeptFor blockID) where
  wellFormed := decided.wellFormed
  absent := by
    intro index sig position absent
    rw [decided_signature voteSet blockID index sig position] at absent
    exact kept_vote_of_absent voteSet blockID absent
  present := by
    intro index sig position present
    rw [decided_signature voteSet blockID index sig position] at present
    obtain ⟨vote, entry, kept, _⟩ := kept_of_not_absent blockID present
    have own := decided.stored index vote entry
    obtain ⟨val, accepted⟩ := own.accepted
    exact ⟨vote, val, (kept_vote_iff voteSet blockID index vote).mpr ⟨entry, kept⟩, kept,
      get_vote_kept crypto voteSet blockID decided entry kept,
      by rw [own.index]; rfl, accepted⟩

variable {voteSet} in
theorem block_reached (wellFormed : voteSet.valSet.WellFormed) (tallied : voteSet.Tallied)
    (mirrored : Mirrored voteSet) (signers : Finset Nat) (key : Bytes)
    (shown : ∀ index ∈ signers, ∃ vote, slot voteSet.votes index = some vote ∧
      vote.blockID.key = key)
    (enough : voteSet.quorum ≤ weight voteSet.valSet.power signers) :
    ∃ votes, voteSet.votesByBlock key = some votes ∧ voteSet.quorum ≤ votes.sum := by
  have counted : ∀ index ∈ signers, ∃ votes vote,
      voteSet.votesByBlock key = some votes ∧ slot votes.votes index = some vote := by
    intro index member
    obtain ⟨vote, present, same⟩ := shown index member
    obtain ⟨votes, found, stored⟩ := mirrored.counted index vote present
    rw [same] at found
    exact ⟨votes, vote, found, stored⟩
  have someone : signers.Nonempty := by
    by_contra none
    have positive := VoteSet.quorum_pos voteSet wellFormed
    rw [Finset.not_nonempty_iff_eq_empty.mp none, weight, Finset.sum_empty] at enough
    omega
  obtain ⟨first, member⟩ := someone
  obtain ⟨votes, _, found, _⟩ := counted first member
  have subset : signers ⊆ filled votes.votes := by
    intro index inside
    obtain ⟨other, vote, otherFound, stored⟩ := counted index inside
    rw [found] at otherFound
    cases otherFound
    exact (Quorum.mem_filled _ _).mpr ⟨vote, stored⟩
  refine ⟨votes, found, ?_⟩
  rw [(tallied.blocks _ _ found).sum]
  exact Int.le_trans enough (Quorum.weight_mono _ _ _ subset fun index _ =>
    ValidatorSet.power_nonneg wellFormed index)

/-- A set that mirrors the kept votes has the same majority: the votes for the
block are a quorum of it, and two quorums of one set of votes share a vote. -/
theorem rebuilt_majority (decided : DecidedSet crypto voteSet blockID) {final : VoteSet}
    {count : Nat}
    (built : Rebuilt voteSet (keptVote voteSet blockID) (KeptFor blockID) count final)
    (slots : ∀ index vote, slot final.votes index = some vote ↔
      slot voteSet.votes index = some vote ∧ KeptFor blockID vote) :
    final.maj23 = some blockID := by
  have sameSet : final.valSet = voteSet.valSet := congrArg (·.2.2.2.2) built.subject
  have wellFormed : final.valSet.WellFormed := by
    rw [sameSet]
    exact decided.wellFormed
  have nonneg := ValidatorSet.power_nonneg wellFormed
  have totalNonneg := Quorum.weight_nonneg final.valSet.power
    (Finset.range final.valSet.size) fun index _ => nonneg index
  have enough := quorum_for_block crypto voteSet blockID decided
  have sameQuorum : voteSet.quorum = final.quorum := by
    rw [VoteSet.quorum, VoteSet.quorum, sameSet]
  rw [sameQuorum, ← sameSet] at enough
  have positive := VoteSet.quorum_pos final wellFormed
  obtain ⟨votes, found, reached⟩ := block_reached wellFormed built.tallied built.mirrored
    (forBlockSet voteSet blockID) blockID.key (fun index member => by
      obtain ⟨vote, present, same⟩ :=
        (kept_sig_for_block blockID _).mp (Finset.mem_filter.mp member).2
      exact ⟨vote, (slots index vote).mpr ⟨present, Or.inl same⟩, by rw [same]⟩) enough
  have own := built.tallied.blocks _ _ found
  rw [own.sum] at reached
  cases decision : final.maj23 with
  | none =>
    have below := built.tallied.undecided decision _ votes found
    rw [own.sum] at below
    exact absurd reached (Int.not_le.mpr below)
  | some other =>
    obtain ⟨otherVotes, otherFound, otherReached⟩ := built.tallied.reached other decision
    have otherOwn := built.tallied.blocks _ _ otherFound
    rw [otherOwn.sum] at otherReached
    have inRange : ∀ entry : BlockVotes, entry.votes.length = final.valSet.size →
        filled entry.votes ⊆ Finset.range final.valSet.size := by
      intro entry length
      rw [← length]
      exact Quorum.filled_subset _
    have total := Quorum.weight_mono final.valSet.power _ _ (inRange votes own.length)
      fun index _ => nonneg index
    obtain ⟨index, inLeft, inRight, _⟩ := Quorum.intersection final.valSet.power
      (Finset.range final.valSet.size) (filled votes.votes) (filled otherVotes.votes) ∅
      (fun index _ => nonneg index) (inRange votes own.length)
      (inRange otherVotes otherOwn.length)
      (by simp only [Finset.empty_inter, weight, Finset.sum_empty]
          simp only [weight] at total reached positive
          omega)
      (VoteSet.two_thirds_of_quorum totalNonneg reached)
      (VoteSet.two_thirds_of_quorum totalNonneg otherReached)
    obtain ⟨left, leftStored⟩ := (Quorum.mem_filled _ _).mp inLeft
    obtain ⟨right, rightStored⟩ := (Quorum.mem_filled _ _).mp inRight
    have sameVote : left = right := by
      have leftShown := built.mirrored.shown _ _ _ _ found leftStored
      have rightShown := built.mirrored.shown _ _ _ _ otherFound rightStored
      rw [leftShown] at rightShown
      exact Option.some.inj rightShown
    have sameKey : blockID.key = other.key := by
      rw [← own.keys index left leftStored, sameVote, otherOwn.keys index right rightStored]
    obtain ⟨_, source, kept, same⟩ := built.holds.majority other decision
    rcases kept with block | zero
    · rw [← same, block]
    · exfalso
      rw [← same, zero, BlockID.zero_key] at sameKey
      have size := ((BlockID.is_complete_iff blockID).mp decided.complete).1
      rw [(append_eq_nil_iff.mp sameKey).1] at size
      cases size

theorem commit_to_vote_set_decided (decided : DecidedSet crypto voteSet blockID) :
    ∃ rebuilt, commitToVoteSet crypto voteSet.chainID (decidedCommit voteSet blockID)
        voteSet.valSet = .ok rebuilt ∧ rebuilt.maj23 = some blockID ∧
      ∀ index vote, slot rebuilt.votes index = some vote ↔
        slot voteSet.votes index = some vote ∧ KeptFor blockID vote := by
  obtain ⟨final, rebuilt, built⟩ := commit_to_vote_set_rebuilds crypto
    (decidedCommit voteSet blockID) voteSet _ _ (decided_restorable crypto voteSet blockID decided)
    decided.height (by rw [VoteSet.subject, decided.type]; rfl)
  have slots : ∀ index vote, slot final.votes index = some vote ↔
      slot voteSet.votes index = some vote ∧ KeptFor blockID vote := by
    intro index vote
    rw [built.slots, ← kept_vote_iff]
    split
    · rfl
    · rename_i outside
      have none : keptVote voteSet blockID index = none := by
        cases found : keptVote voteSet blockID index with
        | none => rfl
        | some other =>
          have inside := Quorum.slot_lt ((kept_vote_iff _ _ _ _).mp found).1
          simp only [decidedCommit, length_map] at outside
          exact absurd inside outside
      rw [none]
  exact ⟨final, rebuilt, rebuilt_majority crypto voteSet blockID decided built slots, slots⟩

end Rebuild

theorem decided_of_run {crypto : Crypto} {chainID : ChainID} {height round : Int}
    {valSet : ValidatorSet} {start : VoteSet} (wellFormed : valSet.WellFormed)
    (made : VoteSet.new chainID height round .precommit valSet = .ok start)
    {calls : List VoteSet.Call}
    (valid : ∀ vote, .addVote (some vote) ∈ calls →
      vote.blockID.votable = true ∧ vote.blockID.Typed)
    {blockID : BlockID} (majority : (start.run crypto calls).maj23 = some blockID)
    (nonzero : blockID ≠ BlockID.zero) :
    DecidedSet crypto (start.run crypto calls) blockID ∧
      (start.run crypto calls).subject = (chainID, height, round, .precommit, valSet) := by
  have subject := VoteSet.new_subject made
  have sameSet : start.valSet = valSet := congrArg (·.2.2.2.2) subject
  have startFormed : start.valSet.WellFormed := by rw [sameSet]; exact wellFormed
  have tallied := VoteSet.tallied_new _ _ _ _ _ _ made
  obtain ⟨reached, kept, _⟩ := VoteSet.run_tallied crypto calls startFormed tallied
  have holds := VoteSet.run_holds (StoredVote crypto start) crypto calls startFormed tallied
    (VoteSet.holds_new _ made) (by
      intro vote val current member same accepted
      have proper := valid vote member
      have index := (ValidatorSet.get_by_index_some _ accepted.validator).1
      exact ⟨(Int.toNat_of_nonneg index).symm, proper.1, proper.2, val,
        accepted.of_subject same.symm⟩)
  have final := kept.trans subject
  simp only [VoteSet.subject, Prod.mk.injEq] at final
  obtain ⟨sameChain, sameHeight, sameRound, sameType, sameVals⟩ := final
  obtain ⟨_, source, own, same⟩ := holds.majority blockID majority
  have votable := own.votable
  rw [same, BlockID.votable, Bool.or_eq_true] at votable
  refine ⟨⟨by rw [sameVals]; exact wellFormed, reached, ?_, sameType, majority, ?_, ?_, ?_⟩,
    kept.trans subject⟩
  · rw [sameHeight]
    intro zero
    simp [VoteSet.new, zero] at made
  · exact votable.resolve_left fun zero => nonzero ((BlockID.is_zero_iff _).mp zero)
  · rw [← same]
    exact own.typed
  · intro index vote present
    have stored := holds.shown index vote present
    obtain ⟨val, accepted⟩ := stored.accepted
    exact ⟨stored.index, stored.votable, stored.typed, val, accepted.of_subject kept⟩

/-- `MakeCommit`, `VerifyCommit`, `VerifyCommitLight` and `CommitToVoteSet`
agree on a precommit set with a majority exactly when no batch meets a key of
another type than the proposer's. -/
theorem commit_agreement_iff_uniform (crypto : Crypto) (faithful : crypto.BatchFaithful)
    (chainID : ChainID) (height round : Int) (valSet : ValidatorSet) (start : VoteSet)
    (wellFormed : valSet.WellFormed)
    (made : VoteSet.new chainID height round .precommit valSet = .ok start)
    (calls : List VoteSet.Call)
    (valid : ∀ vote, .addVote (some vote) ∈ calls →
      vote.blockID.votable = true ∧ vote.blockID.Typed)
    (blockID : BlockID) (majority : (start.run crypto calls).maj23 = some blockID)
    (nonzero : blockID ≠ BlockID.zero) :
    ∃ commit, (start.run crypto calls).makeCommit = .ok commit ∧
      ((verifyCommit crypto chainID valSet blockID height commit = .ok none ∧
        verifyCommitLight crypto chainID valSet blockID height commit = .ok none ∧
        ∃ rebuilt, commitToVoteSet crypto chainID commit valSet = .ok rebuilt ∧
          rebuilt.maj23 = some blockID ∧
          ∀ index vote, slot rebuilt.votes index = some vote ↔
            slot (start.run crypto calls).votes index = some vote ∧
              (vote.blockID = blockID ∨ vote.blockID = BlockID.zero)) ↔
      BatchUniform (start.run crypto calls) blockID) := by
  obtain ⟨decided, subject⟩ := decided_of_run wellFormed made valid majority nonzero
  simp only [VoteSet.subject, Prod.mk.injEq] at subject
  obtain ⟨sameChain, sameHeight, _, _, sameVals⟩ := subject
  refine ⟨_, make_commit_eq crypto _ blockID decided, ?_⟩
  rw [← sameChain, ← sameHeight, ← sameVals]
  rw [verify_commit_decided crypto _ blockID decided,
    verify_commit_light_decided crypto _ blockID decided]
  constructor
  · rintro ⟨full, _⟩
    exact verify_with_refuses crypto _ blockID faithful decided full
  · intro uniform
    refine ⟨verify_with_accepts crypto _ blockID faithful decided rfl
        (fun _ absent => absent) full_mode_counts uniform,
      verify_with_accepts crypto _ blockID faithful decided rfl ?_ light_mode_counts
        uniform, commit_to_vote_set_decided crypto _ blockID decided⟩
    intro sig absent
    obtain ⟨flag, address, time, signature⟩ := sig
    cases flag <;> first | rfl | cases absent

def someBlock : BlockID := ⟨List.replicate 32 1, ⟨1, List.replicate 32 2⟩⟩

def uniformSet : ValidatorSet where
  validators := [⟨[1], ⟨.ed25519, [1]⟩, 1, 0⟩, ⟨[2], ⟨.ed25519, [2]⟩, 1, 0⟩]
  proposer := some ⟨[1], ⟨.ed25519, [1]⟩, 1, 0⟩
  cachedVotingPower := 2

def twoSigned : Commit :=
  ⟨1, 0, someBlock, [⟨.commit, [1], 0, [7]⟩, ⟨.commit, [2], 0, [7]⟩]⟩

theorem uniform_set_well_formed : uniformSet.WellFormed where
  positive := by decide
  distinct := by decide
  cached := by decide
  bounded := by decide

def bothVotes : List VoteSet.Call :=
  [.addVote (some ⟨.precommit, 1, 0, someBlock, 0, [1], 0, [7]⟩),
   .addVote (some ⟨.precommit, 1, 0, someBlock, 0, [2], 1, [7]⟩)]

theorem commit_agreement_pair : ∃ start,
    VoteSet.new [] 1 0 .precommit uniformSet = .ok start ∧
    ∃ commit, (start.run .acceptAll bothVotes).makeCommit = .ok commit ∧
      shouldBatchVerify uniformSet commit = .ok true ∧
      verifyCommit .acceptAll [] uniformSet someBlock 1 commit = .ok none := by
  refine ⟨_, rfl, ?_⟩
  obtain ⟨commit, commitMade, agreement⟩ := commit_agreement_iff_uniform .acceptAll
    accept_all_faithful [] 1 0 uniformSet _ uniform_set_well_formed rfl bothVotes
    (by
      intro vote member
      simp only [bothVotes, mem_cons, not_mem_nil, or_false, VoteSet.Call.addVote.injEq,
        Option.some.injEq] at member
      rcases member with rfl | rfl
      · exact ⟨by decide, by decide, by decide, by decide⟩
      · exact ⟨by decide, by decide, by decide, by decide⟩)
    someBlock (by decide) (by decide)
  have batched : twoSigned = commit := Except.ok.inj ((by decide : _ = _).trans commitMade)
  refine ⟨commit, commitMade, batched ▸ by decide, (agreement.mpr ?_).1⟩
  rintro _ proposer proposes _ index vote val _ _ here
  have typed : ∀ val ∈ uniformSet.validators, val.pubKey.keyType = .ed25519 := by decide
  cases proposes
  exact typed val (mem_of_getElem? here)

def mixedSet : ValidatorSet where
  validators := [⟨[1], ⟨.ed25519, [1]⟩, 1, 0⟩, ⟨[2], ⟨.secp256k1, [2]⟩, 1, 0⟩]
  proposer := some ⟨[1], ⟨.ed25519, [1]⟩, 1, 0⟩
  cachedVotingPower := 2

/-- Both validators precommit the block, and the commit is refused. -/
theorem mixed_keys_refused : mixedSet.WellFormed ∧
    ∃ start, VoteSet.new [] 1 0 .precommit mixedSet = .ok start ∧
    (start.run .acceptAll bothVotes).maj23 = some someBlock ∧
    ∃ commit, (start.run .acceptAll bothVotes).makeCommit = .ok commit ∧
      verifyCommit .acceptAll [] mixedSet someBlock 1 commit =
        .ok (some (.batchAdd "pubkey is not Ed25519")) := by
  exact ⟨⟨by decide, by decide, by decide, by decide⟩, _, rfl, by decide, _, rfl, by decide⟩

end Tendermint.Types
