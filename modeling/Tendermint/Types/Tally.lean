import Tendermint.Types.VoteSet

/-!
The tally that a vote set keeps. `Tallied` is preserved by every call, so it
holds after any sequence of them, in any order and with any conflicting,
repeated or badly signed votes. A call that panics is refused before the set is
changed, so a run goes on from the same set.
-/

namespace Tendermint.Types

open List Function
open Quorum (slot filled weight)

/-- The sum, the bit array and the votes of one block agree. -/
structure BlockVotes.Tallied (valSet : ValidatorSet) (blockKey : Bytes) (votes : BlockVotes) :
    Prop where
  length : votes.votes.length = valSet.size
  bits : votes.bitArray = votes.votes.map Option.isSome
  sum : votes.sum = weight valSet.power (filled votes.votes)
  keys : ∀ index vote, slot votes.votes index = some vote → vote.blockID.key = blockKey

namespace BlockVotes

theorem tallied_new (valSet : ValidatorSet) (blockKey : Bytes) (peerMaj23 : Bool) :
    (new peerMaj23 valSet.size).Tallied valSet blockKey where
  length := by simp [new]
  bits := by simp [new]
  sum := by simp [new, Quorum.filled_replicate, weight]
  keys := by
    intro index vote found
    simp [new, Quorum.slot_replicate] at found

variable {votes : BlockVotes} {vote : Vote}

theorem add_present {existing : Vote} (votingPower : Int)
    (present : slot votes.votes vote.validatorIndex.toNat = some existing) :
    votes.addVerifiedVote vote votingPower = votes := by
  simp only [addVerifiedVote, present]

theorem add_vacant (votingPower : Int)
    (vacant : slot votes.votes vote.validatorIndex.toNat = none) :
    votes.addVerifiedVote vote votingPower = { votes with
      bitArray := votes.bitArray.set vote.validatorIndex.toNat true,
      votes := votes.votes.set vote.validatorIndex.toNat (some vote),
      sum := votes.sum + votingPower } := by
  simp only [addVerifiedVote, vacant]

theorem tallied_add {valSet : ValidatorSet} {blockKey : Bytes} {votingPower : Int}
    (tallied : votes.Tallied valSet blockKey) (inside : vote.validatorIndex.toNat < valSet.size)
    (power : valSet.power vote.validatorIndex.toNat = votingPower)
    (key : vote.blockID.key = blockKey) :
    (votes.addVerifiedVote vote votingPower).Tallied valSet blockKey := by
  have room : vote.validatorIndex.toNat < votes.votes.length := by
    rw [tallied.length]; exact inside
  cases vacant : slot votes.votes vote.validatorIndex.toNat with
  | some existing =>
    rw [add_present votingPower vacant]
    exact tallied
  | none =>
  rw [add_vacant votingPower vacant]
  refine ⟨by simpa using tallied.length, by simp [tallied.bits, map_set], ?_, ?_⟩
  · rw [Quorum.weight_filled_set room vacant, ← tallied.sum, power]
  · intro index stored found
    rw [Quorum.slot_set _ _ room] at found
    split at found
    · cases found
      exact key
    · exact tallied.keys index stored found

theorem filled_add (votingPower : Int) (room : vote.validatorIndex.toNat < votes.votes.length) :
    filled (votes.addVerifiedVote vote votingPower).votes =
      insert vote.validatorIndex.toNat (filled votes.votes) := by
  cases vacant : slot votes.votes vote.validatorIndex.toNat with
  | some existing =>
    rw [add_present votingPower vacant, Finset.insert_eq_of_mem]
    exact (Quorum.mem_filled _ _).mpr ⟨existing, vacant⟩
  | none =>
    rw [add_vacant votingPower vacant]
    exact Quorum.filled_set _ room

theorem slot_add_cases (votes : BlockVotes) (vote stored : Vote) (votingPower : Int)
    (index : Nat) (room : vote.validatorIndex.toNat < votes.votes.length)
    (found : slot (votes.addVerifiedVote vote votingPower).votes index = some stored) :
    slot votes.votes index = some stored ∨ (stored = vote ∧ index = vote.validatorIndex.toNat) := by
  cases vacant : slot votes.votes vote.validatorIndex.toNat with
  | some existing =>
    rw [add_present votingPower vacant] at found
    exact Or.inl found
  | none =>
  rw [add_vacant votingPower vacant, Quorum.slot_set _ _ room] at found
  split at found
  · cases found
    exact Or.inr ⟨rfl, by assumption⟩
  · exact Or.inl found

theorem sum_add_le (votes : BlockVotes) (vote : Vote) {votingPower : Int}
    (nonneg : 0 ≤ votingPower) :
    votes.sum ≤ (votes.addVerifiedVote vote votingPower).sum := by
  cases vacant : slot votes.votes vote.validatorIndex.toNat with
  | some existing => rw [add_present votingPower vacant]
  | none =>
    rw [add_vacant votingPower vacant]
    simp only
    omega

end BlockVotes

namespace VoteSet

/-- The power that makes a two-thirds majority of the set's validators. -/
def quorum (voteSet : VoteSet) : Int :=
  quorumOf (weight voteSet.valSet.power (Finset.range voteSet.valSet.size))

structure Tallied (voteSet : VoteSet) : Prop where
  length : voteSet.votes.length = voteSet.valSet.size
  bits : voteSet.votesBitArray = voteSet.votes.map Option.isSome
  sum : voteSet.sum = weight voteSet.valSet.power (filled voteSet.votes)
  blocks : ∀ key votes, voteSet.votesByBlock key = some votes → votes.Tallied voteSet.valSet key
  covered : ∀ key votes, voteSet.votesByBlock key = some votes →
    filled votes.votes ⊆ filled voteSet.votes
  undecided : voteSet.maj23 = none → ∀ key votes, voteSet.votesByBlock key = some votes →
    votes.sum < voteSet.quorum
  reached : ∀ blockID, voteSet.maj23 = some blockID →
    ∃ votes, voteSet.votesByBlock blockID.key = some votes ∧ voteSet.quorum ≤ votes.sum
  decided : ∀ blockID votes index vote, voteSet.maj23 = some blockID →
    voteSet.votesByBlock blockID.key = some votes → slot votes.votes index = some vote →
    ∃ shown, slot voteSet.votes index = some shown ∧ shown.blockID.key = blockID.key

theorem quorum_pos (voteSet : VoteSet) (wellFormed : voteSet.valSet.WellFormed) :
    0 < voteSet.quorum := by
  have total := Quorum.weight_nonneg voteSet.valSet.power (Finset.range voteSet.valSet.size)
    fun index _ => ValidatorSet.power_nonneg wellFormed index
  unfold quorum quorumOf
  have quotient : 0 ≤ (weight voteSet.valSet.power (Finset.range voteSet.valSet.size) * 2).tdiv 3 :=
    Int.tdiv_nonneg (by omega) (by decide)
  omega

theorem two_thirds_of_quorum {total power : Int} (nonneg : 0 ≤ total)
    (enough : quorumOf total ≤ power) : 2 * total < 3 * power := by
  unfold quorumOf at enough
  rw [Int.tdiv_eq_ediv_of_nonneg (by omega)] at enough
  omega

theorem tallied_new (chainID : ChainID) (height round : Int) (type : SignedMsgType)
    (valSet : ValidatorSet) (voteSet : VoteSet)
    (made : new chainID height round type valSet = .ok voteSet) : voteSet.Tallied := by
  unfold new at made
  split at made
  · cases made
  · cases made
    exact {
      length := by simp
      bits := by simp
      sum := by simp [Quorum.filled_replicate, weight]
      blocks := by intro key votes found; cases found
      covered := by intro key votes found; cases found
      undecided := by intro _ key votes found; cases found
      reached := by intro blockID found; cases found
      decided := by intro blockID votes index vote found; cases found }

section Place

variable (voteSet : VoteSet) (vote : Vote) (votingPower : Int)

/-- What `place` can do: nothing, replace a vote by one for the majority, or
fill a free slot. -/
theorem place_cases (blockKey : Bytes) :
    (voteSet.place vote blockKey votingPower = voteSet ∧
      voteSet.maj23.map BlockID.key ≠ some blockKey ∧
      ∃ existing, slot voteSet.votes vote.validatorIndex.toNat = some existing) ∨
    (voteSet.place vote blockKey votingPower = { voteSet with
        votes := voteSet.votes.set vote.validatorIndex.toNat (some vote),
        votesBitArray := voteSet.votesBitArray.set vote.validatorIndex.toNat true } ∧
      voteSet.maj23.map BlockID.key = some blockKey ∧
      ∃ existing, slot voteSet.votes vote.validatorIndex.toNat = some existing) ∨
    (voteSet.place vote blockKey votingPower = { voteSet with
        votes := voteSet.votes.set vote.validatorIndex.toNat (some vote),
        votesBitArray := voteSet.votesBitArray.set vote.validatorIndex.toNat true,
        sum := voteSet.sum + votingPower } ∧
      slot voteSet.votes vote.validatorIndex.toNat = none) := by
  cases found : slot voteSet.votes vote.validatorIndex.toNat with
  | none => exact Or.inr (Or.inr ⟨by simp only [place, found], rfl⟩)
  | some existing =>
  by_cases majority : voteSet.maj23.map BlockID.key = some blockKey
  · exact Or.inr (Or.inl ⟨by simp only [place, found, majority, if_true], majority,
      existing, rfl⟩)
  · exact Or.inl ⟨by simp only [place, found, majority, if_false], majority, existing, rfl⟩

theorem tallied_place (tallied : voteSet.Tallied)
    (inside : vote.validatorIndex.toNat < voteSet.valSet.size)
    (power : voteSet.valSet.power vote.validatorIndex.toNat = votingPower) :
    (voteSet.place vote vote.blockID.key votingPower).Tallied := by
  have room : vote.validatorIndex.toNat < voteSet.votes.length := by
    rw [tallied.length]; exact inside
  have bits : voteSet.votesBitArray.set vote.validatorIndex.toNat true =
      (voteSet.votes.set vote.validatorIndex.toNat (some vote)).map Option.isSome := by
    rw [tallied.bits, map_set]; rfl
  have grown := Quorum.filled_set vote room
  have covered : ∀ key votes, voteSet.votesByBlock key = some votes →
      filled votes.votes ⊆ filled (voteSet.votes.set vote.validatorIndex.toNat (some vote)) := by
    intro key votes found
    rw [grown]
    exact (tallied.covered key votes found).trans (Finset.subset_insert _ _)
  rcases place_cases voteSet vote votingPower vote.blockID.key with
    ⟨same, _⟩ | ⟨replaced, majority, existing, present⟩ | ⟨extended, vacant⟩
  · rw [same]
    exact tallied
  · rw [replaced]
    refine ⟨by simpa using tallied.length, bits, ?_, tallied.blocks, covered, tallied.undecided,
      tallied.reached, ?_⟩
    · have member : vote.validatorIndex.toNat ∈ filled voteSet.votes :=
        (Quorum.mem_filled _ _).mpr ⟨existing, present⟩
      simp only [grown, Finset.insert_eq_of_mem member]
      exact tallied.sum
    · intro blockID votes index counted decision found stored
      simp only [Quorum.slot_set _ _ room]
      split
      · refine ⟨vote, rfl, ?_⟩
        simpa [show voteSet.maj23 = some blockID from decision] using majority.symm
      · exact tallied.decided blockID votes index counted decision found stored
  · rw [extended]
    refine ⟨by simpa using tallied.length, bits, ?_, tallied.blocks, covered, tallied.undecided,
      tallied.reached, ?_⟩
    · simp only [Quorum.weight_filled_set room vacant, power, ← tallied.sum]
    · intro blockID votes index counted decision found stored
      obtain ⟨shown, present, key⟩ :=
        tallied.decided blockID votes index counted decision found stored
      refine ⟨shown, ?_, key⟩
      simp only [Quorum.slot_set _ _ room]
      rw [if_neg]
      · exact present
      · rintro rfl
        rw [vacant] at present
        cases present

theorem place_fills (room : vote.validatorIndex.toNat < voteSet.votes.length) (blockKey : Bytes) :
    ∃ shown, slot (voteSet.place vote blockKey votingPower).votes vote.validatorIndex.toNat =
        some shown ∧
      (voteSet.maj23.map BlockID.key = some blockKey → shown = vote) := by
  rcases place_cases voteSet vote votingPower blockKey with
    ⟨same, other, existing, present⟩ | ⟨replaced, _⟩ | ⟨extended, _⟩
  · rw [same]
    exact ⟨existing, present, fun majority => absurd majority other⟩
  · rw [replaced]
    exact ⟨vote, by simp [Quorum.slot_set _ _ room], fun _ => rfl⟩
  · rw [extended]
    exact ⟨vote, by simp [Quorum.slot_set _ _ room], fun _ => rfl⟩

end Place

variable {voteSet : VoteSet} {vote : Vote} {crypto : Crypto}

theorem tracked_votes_cases {blockKey : Bytes} {conflicting : Option Vote} {votes : BlockVotes}
    (tracked : voteSet.trackedVotes blockKey conflicting = some votes) :
    voteSet.votesByBlock blockKey = some votes ∨
      (voteSet.votesByBlock blockKey = none ∧ votes = .new false voteSet.valSet.size) := by
  unfold trackedVotes at tracked
  cases found : voteSet.votesByBlock blockKey with
  | some existing =>
    simp only [found] at tracked
    split at tracked
    · cases tracked
    · exact Or.inl tracked
  | none =>
    simp only [found] at tracked
    split at tracked
    · cases tracked
    · exact Or.inr ⟨rfl, (Option.some.inj tracked).symm⟩

section

variable (voteSet next : VoteSet) (vote : Vote) (blockKey : Bytes) (votingPower : Int)
  (added : Bool) (conflicting : Option Vote)

theorem add_verified_vote_shape
    (stored : voteSet.addVerifiedVote vote blockKey votingPower = .ok (added, conflicting, next)) :
    conflicting = slot voteSet.votes vote.validatorIndex.toNat ∧
    ((added = false ∧
        (voteSet.place vote blockKey votingPower).trackedVotes blockKey conflicting = none ∧
        next = voteSet.place vote blockKey votingPower) ∨
      (added = true ∧ ∃ votes total,
        (voteSet.place vote blockKey votingPower).trackedVotes blockKey conflicting = some votes ∧
        voteSet.valSet.totalVotingPower = .ok total ∧
        next = (voteSet.place vote blockKey votingPower).count vote blockKey votingPower
          (quorumOf total) votes)) := by
  have sameSet : (voteSet.place vote blockKey votingPower).valSet = voteSet.valSet := by
    rcases place_cases voteSet vote votingPower blockKey with ⟨same, _⟩ | ⟨same, _⟩ | ⟨same, _⟩ <;>
      rw [same]
  unfold addVerifiedVote at stored
  simp only [bind_eq, pure_eq, sameSet] at stored
  split at stored
  · cases stored
  cases tracked : (voteSet.place vote blockKey votingPower).trackedVotes blockKey
      (slot voteSet.votes vote.validatorIndex.toNat) with
  | none =>
    simp only [tracked] at stored
    cases stored
    exact ⟨rfl, Or.inl ⟨rfl, tracked, rfl⟩⟩
  | some votes =>
    simp only [tracked] at stored
    cases power : voteSet.valSet.totalVotingPower with
    | error text =>
      rw [power] at stored
      cases stored
    | ok total =>
      rw [power] at stored
      cases stored
      exact ⟨rfl, Or.inr ⟨rfl, votes, total, tracked, rfl, rfl⟩⟩

theorem add_verified_vote_cases (wellFormed : voteSet.valSet.WellFormed)
    (stored : voteSet.addVerifiedVote vote blockKey votingPower = .ok (added, conflicting, next)) :
    conflicting = slot voteSet.votes vote.validatorIndex.toNat ∧
    (next = voteSet.place vote blockKey votingPower ∨
      ∃ votes, (voteSet.place vote blockKey votingPower).trackedVotes blockKey conflicting =
          some votes ∧
        next = (voteSet.place vote blockKey votingPower).count vote blockKey votingPower
          voteSet.quorum votes) := by
  obtain ⟨current, ⟨_, _, placed⟩ | ⟨_, votes, total, tracked, power, counted⟩⟩ :=
    add_verified_vote_shape voteSet next vote blockKey votingPower added conflicting stored
  · exact ⟨current, Or.inl placed⟩
  · rw [ValidatorSet.total_voting_power_eq _ wellFormed] at power
    cases power
    exact ⟨current, Or.inr ⟨votes, tracked, counted⟩⟩

end

section Count

variable (voteSet : VoteSet) (vote : Vote) (votingPower : Int) (votes : BlockVotes)

/-- What `count` can do to the majority: leave it, or set it at the first
quorum. -/
theorem count_cases (quorum : Int) (blockKey : Bytes) :
    (voteSet.count vote blockKey votingPower quorum votes = { voteSet with
        votesByBlock := Function.update voteSet.votesByBlock blockKey
          (some (votes.addVerifiedVote vote votingPower)) } ∧
      (voteSet.maj23 = none → votes.sum < quorum →
        (votes.addVerifiedVote vote votingPower).sum < quorum)) ∨
    (voteSet.count vote blockKey votingPower quorum votes = { voteSet with
        votesByBlock := Function.update voteSet.votesByBlock blockKey
          (some (votes.addVerifiedVote vote votingPower)),
        maj23 := some vote.blockID,
        votes := Quorum.overlay voteSet.votes (votes.addVerifiedVote vote votingPower).votes } ∧
      voteSet.maj23 = none ∧ quorum ≤ (votes.addVerifiedVote vote votingPower).sum) := by
  by_cases crossed : votes.sum < quorum ∧
      quorum ≤ (votes.addVerifiedVote vote votingPower).sum ∧ voteSet.maj23 = none
  · exact Or.inr ⟨by simp only [count, crossed, and_self, if_true], crossed.2.2, crossed.2.1⟩
  · refine Or.inl ⟨by simp only [count, crossed, if_false], ?_⟩
    intro undecided below
    by_contra reached
    exact crossed ⟨below, Int.not_lt.mp reached, undecided⟩

theorem tallied_count (tallied : voteSet.Tallied)
    (inside : vote.validatorIndex.toNat < voteSet.valSet.size)
    (power : voteSet.valSet.power vote.validatorIndex.toNat = votingPower)
    (nonneg : 0 ≤ votingPower)
    (own : votes.Tallied voteSet.valSet vote.blockID.key)
    (ownCovered : filled votes.votes ⊆ filled voteSet.votes)
    (ownUndecided : voteSet.maj23 = none → votes.sum < voteSet.quorum)
    (ownReached : voteSet.maj23.map BlockID.key = some vote.blockID.key →
      voteSet.votesByBlock vote.blockID.key = some votes)
    (shown : ∃ shown, slot voteSet.votes vote.validatorIndex.toNat = some shown ∧
      (voteSet.maj23.map BlockID.key = some vote.blockID.key → shown = vote)) :
    (voteSet.count vote vote.blockID.key votingPower voteSet.quorum votes).Tallied := by
  have room : vote.validatorIndex.toNat < votes.votes.length := by rw [own.length]; exact inside
  have after := BlockVotes.tallied_add own inside power rfl
  have grown := BlockVotes.filled_add votingPower room
  have larger := BlockVotes.sum_add_le votes vote nonneg
  have addedCovered : filled (votes.addVerifiedVote vote votingPower).votes ⊆
      filled voteSet.votes := by
    rw [grown]
    obtain ⟨present, found, _⟩ := shown
    exact Finset.insert_subset ((Quorum.mem_filled _ _).mpr ⟨present, found⟩) ownCovered
  have lookup : ∀ key counted, Function.update voteSet.votesByBlock vote.blockID.key
      (some (votes.addVerifiedVote vote votingPower)) key = some counted →
      (key = vote.blockID.key ∧ counted = votes.addVerifiedVote vote votingPower) ∨
        voteSet.votesByBlock key = some counted := by
    intro key counted found
    by_cases same : key = vote.blockID.key
    · subst same
      rw [update_self] at found
      exact Or.inl ⟨rfl, (Option.some.inj found).symm⟩
    · rw [update_of_ne same] at found
      exact Or.inr found
  have blocks : ∀ key counted, Function.update voteSet.votesByBlock vote.blockID.key
      (some (votes.addVerifiedVote vote votingPower)) key = some counted →
      counted.Tallied voteSet.valSet key ∧ filled counted.votes ⊆ filled voteSet.votes := by
    intro key counted found
    rcases lookup key counted found with ⟨rfl, rfl⟩ | kept
    · exact ⟨after, addedCovered⟩
    · exact ⟨tallied.blocks key counted kept, tallied.covered key counted kept⟩
  rcases count_cases voteSet vote votingPower votes voteSet.quorum vote.blockID.key with
    ⟨kept, below⟩ | ⟨decided, undecided, reached⟩
  · rw [kept]
    refine ⟨tallied.length, tallied.bits, tallied.sum, fun key counted found =>
      (blocks key counted found).1, fun key counted found => (blocks key counted found).2,
      ?_, ?_, ?_⟩
    · intro undecided key counted found
      rcases lookup key counted found with ⟨rfl, rfl⟩ | old
      · exact below undecided (ownUndecided undecided)
      · exact tallied.undecided undecided key counted old
    · intro blockID decision
      obtain ⟨counted, found, quorum⟩ := tallied.reached blockID decision
      by_cases same : blockID.key = vote.blockID.key
      · refine ⟨votes.addVerifiedVote vote votingPower, by simp [same], ?_⟩
        have mine := ownReached (by simp [show voteSet.maj23 = some blockID from decision, same])
        rw [same, mine] at found
        cases found
        exact Int.le_trans quorum larger
      · exact ⟨counted, by simp [update_of_ne same, found], quorum⟩
    · intro blockID counted index stored decision found present
      rcases lookup _ counted found with ⟨same, rfl⟩ | old
      · have majority : voteSet.maj23.map BlockID.key = some vote.blockID.key := by
          simp [show voteSet.maj23 = some blockID from decision, same]
        rcases BlockVotes.slot_add_cases votes vote stored votingPower index room present with
          earlier | ⟨rfl, rfl⟩
        · exact tallied.decided blockID votes index stored decision
            (by rw [same]; exact ownReached majority) earlier
        · obtain ⟨kept, filledSlot, exact⟩ := shown
          exact ⟨kept, filledSlot, by rw [exact majority, same]⟩
      · exact tallied.decided blockID counted index stored decision old present
  · rw [decided]
    have same := Quorum.filled_overlay _ _ addedCovered
    refine ⟨by simpa [Quorum.overlay_length] using tallied.length, ?_, ?_, fun key counted found =>
      (blocks key counted found).1, ?_, ?_, ?_, ?_⟩
    · simp only [tallied.bits]
      exact Quorum.map_is_some_eq _ _ (Quorum.overlay_length _ _).symm same.symm
    · simp only [same]
      exact tallied.sum
    · intro key counted found
      simp only [same]
      exact (blocks key counted found).2
    · intro absurdity
      cases absurdity
    · intro blockID decision
      cases decision
      exact ⟨votes.addVerifiedVote vote votingPower, by simp, reached⟩
    · intro blockID counted index stored decision found present
      cases decision
      simp only [update_self, Option.some.injEq] at found
      subst found
      have known : index ∈ filled voteSet.votes :=
        addedCovered ((Quorum.mem_filled _ _).mpr ⟨stored, present⟩)
      obtain ⟨old, oldPresent⟩ := (Quorum.mem_filled _ _).mp known
      refine ⟨stored, ?_, after.keys index stored present⟩
      simp only [Quorum.slot_overlay _ _ (Quorum.slot_lt oldPresent), present, Option.some_or]

end Count

def subject (voteSet : VoteSet) : ChainID × Int × Int × SignedMsgType × ValidatorSet :=
  (voteSet.chainID, voteSet.height, voteSet.round, voteSet.signedMsgType, voteSet.valSet)

theorem new_subject {chainID : ChainID} {height round : Int} {type : SignedMsgType}
    {valSet : ValidatorSet} (made : new chainID height round type valSet = .ok voteSet) :
    voteSet.subject = (chainID, height, round, type, valSet) := by
  unfold new at made
  split at made <;> cases made
  rfl

theorem place_frame (voteSet : VoteSet) (vote : Vote) (blockKey : Bytes) (votingPower : Int) :
    (voteSet.place vote blockKey votingPower).subject = voteSet.subject ∧
      (voteSet.place vote blockKey votingPower).maj23 = voteSet.maj23 ∧
      (voteSet.place vote blockKey votingPower).votesByBlock = voteSet.votesByBlock := by
  rcases place_cases voteSet vote votingPower blockKey with ⟨same, _⟩ | ⟨same, _⟩ | ⟨same, _⟩ <;>
    rw [same] <;> exact ⟨rfl, rfl, rfl⟩

theorem count_subject (voteSet : VoteSet) (vote : Vote) (blockKey : Bytes)
    (votingPower quorum : Int) (votes : BlockVotes) :
    (voteSet.count vote blockKey votingPower quorum votes).subject = voteSet.subject := by
  rcases count_cases voteSet vote votingPower votes quorum blockKey with
    ⟨same, _⟩ | ⟨same, _⟩ <;> rw [same] <;> rfl

theorem tallied_add_verified {next : VoteSet} {votingPower : Int} {added : Bool}
    {conflicting : Option Vote} (wellFormed : voteSet.valSet.WellFormed) (tallied : voteSet.Tallied)
    (inside : vote.validatorIndex.toNat < voteSet.valSet.size)
    (power : voteSet.valSet.power vote.validatorIndex.toNat = votingPower)
    (stored : voteSet.addVerifiedVote vote vote.blockID.key votingPower =
      .ok (added, conflicting, next)) : next.Tallied := by
  have placed := tallied_place voteSet vote votingPower tallied inside power
  obtain ⟨subject, majority, blocks⟩ := place_frame voteSet vote vote.blockID.key votingPower
  have sameSet : (voteSet.place vote vote.blockID.key votingPower).valSet = voteSet.valSet :=
    congrArg (·.2.2.2.2) subject
  have sameQuorum : (voteSet.place vote vote.blockID.key votingPower).quorum = voteSet.quorum := by
    unfold quorum
    rw [sameSet]
  have shown := place_fills voteSet vote votingPower
    (by rw [tallied.length]; exact inside) vote.blockID.key
  rw [← majority] at shown
  obtain ⟨_, same | ⟨votes, tracked, same⟩⟩ :=
    add_verified_vote_cases voteSet next vote _ votingPower added conflicting wellFormed stored
  · rw [same]
    exact placed
  rw [same, ← sameQuorum]
  have nonneg : 0 ≤ votingPower := by
    rw [← power]
    exact ValidatorSet.power_nonneg wellFormed _
  have positive := quorum_pos (voteSet.place vote vote.blockID.key votingPower)
    (by rw [sameSet]; exact wellFormed)
  rcases tracked_votes_cases tracked with existing | ⟨missing, rfl⟩
  · exact tallied_count _ vote votingPower votes placed (by rw [sameSet]; exact inside)
      (by rw [sameSet]; exact power) nonneg (placed.blocks _ _ existing)
      (placed.covered _ _ existing)
      (fun undecided => placed.undecided undecided _ _ existing) (fun _ => existing) shown
  · refine tallied_count _ vote votingPower _ placed (by rw [sameSet]; exact inside)
      (by rw [sameSet]; exact power) nonneg (BlockVotes.tallied_new _ _ false)
      (by simp [BlockVotes.new, Quorum.filled_replicate]) (fun _ => positive) ?_ shown
    intro decision
    obtain ⟨blockID, found, key⟩ := Option.map_eq_some_iff.mp decision
    obtain ⟨votes, present, _⟩ := placed.reached blockID found
    rw [key, missing] at present
    cases present

theorem Accepted.inside {val : Validator} (accepted : Accepted crypto voteSet vote val) :
    vote.validatorIndex.toNat < voteSet.valSet.size ∧
      voteSet.valSet.power vote.validatorIndex.toNat = val.votingPower :=
  (ValidatorSet.get_by_index_some _ accepted.validator).2

theorem tallied_add_vote {next : VoteSet} {vote : Option Vote} {result : Added}
    (wellFormed : voteSet.valSet.WellFormed) (tallied : voteSet.Tallied)
    (returned : voteSet.addVote crypto vote = .ok (result, next)) : next.Tallied := by
  rcases add_vote_cases returned with
    ⟨same, _⟩ | ⟨accepted, val, conflicting, _, checks, _, stored, _⟩
  · rw [same]
    exact tallied
  · exact tallied_add_verified wellFormed tallied
      checks.inside.1 checks.inside.2 stored

theorem set_peer_maj23_cases (voteSet : VoteSet) (peerID : PeerID) (blockID : BlockID) :
    (voteSet.setPeerMaj23 peerID blockID).2 = voteSet ∨
    ∃ votes, (voteSet.setPeerMaj23 peerID blockID).2 = { voteSet with
        peerMaj23s := Function.update voteSet.peerMaj23s peerID (some blockID),
        votesByBlock := Function.update voteSet.votesByBlock blockID.key (some votes) } ∧
      ((∃ existing, voteSet.votesByBlock blockID.key = some existing ∧
          votes = { existing with peerMaj23 := true }) ∨
        (voteSet.votesByBlock blockID.key = none ∧ votes = .new true voteSet.valSet.size)) := by
  cases told : voteSet.peerMaj23s peerID with
  | some existing =>
    left
    simp only [setPeerMaj23, told]
    split <;> rfl
  | none =>
    right
    cases found : voteSet.votesByBlock blockID.key with
    | some existing =>
      exact ⟨{ existing with peerMaj23 := true }, by simp only [setPeerMaj23, told, found],
        Or.inl ⟨existing, rfl, rfl⟩⟩
    | none =>
      exact ⟨.new true voteSet.valSet.size, by simp only [setPeerMaj23, told, found],
        Or.inr ⟨rfl, rfl⟩⟩

theorem tallied_set_peer_maj23 (peerID : PeerID) (blockID : BlockID)
    (wellFormed : voteSet.valSet.WellFormed) (tallied : voteSet.Tallied) :
    (voteSet.setPeerMaj23 peerID blockID).2.Tallied := by
  rcases set_peer_maj23_cases voteSet peerID blockID with same | ⟨votes, changed, origin⟩
  · rw [same]
    exact tallied
  rw [changed]
  -- The entry is the old one with its flag raised, or an empty one.
  have entry : ∀ key counted, Function.update voteSet.votesByBlock blockID.key (some votes) key =
      some counted → (∃ existing, voteSet.votesByBlock key = some existing ∧
        counted.votes = existing.votes ∧ counted.bitArray = existing.bitArray ∧
        counted.sum = existing.sum) ∨
      (voteSet.votesByBlock key = none ∧ counted = .new true voteSet.valSet.size) := by
    intro key counted found
    by_cases same : key = blockID.key
    · subst same
      rw [update_self] at found
      cases found
      rcases origin with ⟨existing, present, rfl⟩ | ⟨missing, rfl⟩
      · exact Or.inl ⟨existing, present, rfl, rfl, rfl⟩
      · exact Or.inr ⟨missing, rfl⟩
    · rw [update_of_ne same] at found
      exact Or.inl ⟨counted, found, rfl, rfl, rfl⟩
  refine ⟨tallied.length, tallied.bits, tallied.sum, ?_, ?_, ?_, ?_, ?_⟩
  · intro key counted found
    rcases entry key counted found with ⟨existing, present, sameVotes, sameBits, sameSum⟩ | ⟨_, rfl⟩
    · have own := tallied.blocks key existing present
      exact ⟨by rw [sameVotes]; exact own.length, by rw [sameVotes, sameBits]; exact own.bits,
        by rw [sameVotes, sameSum]; exact own.sum, by rw [sameVotes]; exact own.keys⟩
    · exact BlockVotes.tallied_new _ _ true
  · intro key counted found
    rcases entry key counted found with ⟨existing, present, sameVotes, _⟩ | ⟨_, rfl⟩
    · rw [sameVotes]
      exact tallied.covered key existing present
    · simp [BlockVotes.new, Quorum.filled_replicate]
  · intro undecided key counted found
    rcases entry key counted found with ⟨existing, present, _, _, sameSum⟩ | ⟨_, rfl⟩
    · rw [sameSum]
      exact tallied.undecided undecided key existing present
    · exact quorum_pos voteSet wellFormed
  · intro decision found
    obtain ⟨counted, present, reached⟩ := tallied.reached decision found
    by_cases same : decision.key = blockID.key
    · rcases origin with ⟨existing, old, rfl⟩ | ⟨missing, _⟩
      · rw [same, old] at present
        cases present
        exact ⟨{ counted with peerMaj23 := true }, by simp [same], reached⟩
      · rw [same, missing] at present
        cases present
    · exact ⟨counted, by simp [update_of_ne same, present], reached⟩
  · intro decision counted index vote found present stored
    rcases entry _ counted present with ⟨existing, old, sameVotes, _⟩ | ⟨_, rfl⟩
    · rw [sameVotes] at stored
      exact tallied.decided decision existing index vote found old stored
    · simp [BlockVotes.new, Quorum.slot_replicate] at stored

/-- Every stored vote satisfies `accept`, and the majority is the block of one
that does. -/
structure Holds (accept : Nat → Vote → Prop) (voteSet : VoteSet) : Prop where
  shown : ∀ index vote, slot voteSet.votes index = some vote → accept index vote
  counted : ∀ key votes index vote, voteSet.votesByBlock key = some votes →
    slot votes.votes index = some vote → accept index vote
  majority : ∀ blockID, voteSet.maj23 = some blockID →
    ∃ index vote, accept index vote ∧ vote.blockID = blockID

section

variable (accept : Nat → Vote → Prop)

variable {voteSet : VoteSet}

theorem holds_new {chainID : ChainID} {height round : Int} {type : SignedMsgType}
    {valSet : ValidatorSet} (made : new chainID height round type valSet = .ok voteSet) :
    voteSet.Holds accept := by
  unfold new at made
  split at made
  · cases made
  · cases made
    refine ⟨?_, ?_, ?_⟩
    · intro index vote found
      simp [Quorum.slot_replicate] at found
    · intro key votes index vote found
      cases found
    · intro blockID found
      cases found

theorem holds_place {vote : Vote} (blockKey : Bytes) (votingPower : Int)
    (holds : voteSet.Holds accept) (room : vote.validatorIndex.toNat < voteSet.votes.length)
    (own : accept vote.validatorIndex.toNat vote) :
    (voteSet.place vote blockKey votingPower).Holds accept := by
  have shown : ∀ index stored,
      slot (voteSet.votes.set vote.validatorIndex.toNat (some vote)) index = some stored →
      accept index stored := by
    intro index stored found
    rw [Quorum.slot_set _ _ room] at found
    split at found
    case isTrue same =>
      cases found
      rw [same]
      exact own
    case isFalse => exact holds.shown index stored found
  rcases place_cases voteSet vote votingPower blockKey with ⟨same, _⟩ | ⟨same, _⟩ | ⟨same, _⟩
  · rw [same]
    exact holds
  · rw [same]
    exact ⟨shown, holds.counted, holds.majority⟩
  · rw [same]
    exact ⟨shown, holds.counted, holds.majority⟩

theorem holds_count {vote : Vote} {blockKey : Bytes} {votingPower quorum : Int} (votes : BlockVotes)
    (holds : voteSet.Holds accept) (room : vote.validatorIndex.toNat < votes.votes.length)
    (own : accept vote.validatorIndex.toNat vote)
    (tracked : ∀ index stored, slot votes.votes index = some stored → accept index stored) :
    (voteSet.count vote blockKey votingPower quorum votes).Holds accept := by
  have added : ∀ index stored,
      slot (votes.addVerifiedVote vote votingPower).votes index = some stored →
      accept index stored := by
    intro index stored found
    rcases BlockVotes.slot_add_cases votes vote stored votingPower index room found with
      old | ⟨rfl, rfl⟩
    · exact tracked index stored old
    · exact own
  have counted : ∀ key entry index stored, Function.update voteSet.votesByBlock blockKey
      (some (votes.addVerifiedVote vote votingPower)) key = some entry →
      slot entry.votes index = some stored → accept index stored := by
    intro key entry index stored found present
    by_cases same : key = blockKey
    · subst same
      rw [update_self] at found
      cases found
      exact added index stored present
    · rw [update_of_ne same] at found
      exact holds.counted key entry index stored found present
  rcases count_cases voteSet vote votingPower votes quorum blockKey with ⟨same, _⟩ | ⟨same, _⟩
  · rw [same]
    exact ⟨holds.shown, counted, holds.majority⟩
  · rw [same]
    refine ⟨?_, counted, ?_⟩
    · intro index stored found
      rcases Quorum.slot_overlay_cases _ _ found with copied | kept
      · exact added index stored copied
      · exact holds.shown index stored kept
    · intro blockID decision
      cases decision
      exact ⟨_, vote, own, rfl⟩

theorem holds_add_vote {crypto : Crypto} {next : VoteSet} {vote : Option Vote} {result : Added}
    (wellFormed : voteSet.valSet.WellFormed) (tallied : voteSet.Tallied)
    (holds : voteSet.Holds accept)
    (own : ∀ given val, vote = some given → Accepted crypto voteSet given val →
      accept given.validatorIndex.toNat given)
    (returned : voteSet.addVote crypto vote = .ok (result, next)) : next.Holds accept := by
  rcases add_vote_cases returned with
    ⟨same, _⟩ | ⟨accepted, val, conflicting, given, checks, _, stored, _⟩
  · rw [same]
    exact holds
  have mine := own accepted val given checks
  have room : accepted.validatorIndex.toNat < voteSet.votes.length := by
    rw [tallied.length]
    exact checks.inside.1
  have placed := holds_place accept accepted.blockID.key val.votingPower holds room mine
  have placedTally := tallied_place voteSet accepted val.votingPower tallied checks.inside.1
    checks.inside.2
  have sameSet : (voteSet.place accepted accepted.blockID.key val.votingPower).valSet =
      voteSet.valSet :=
    congrArg (·.2.2.2.2) (place_frame voteSet accepted accepted.blockID.key val.votingPower).1
  obtain ⟨_, same | ⟨votes, tracked, same⟩⟩ :=
    add_verified_vote_cases voteSet next accepted _ _ _ _ wellFormed stored
  · rw [same]
    exact placed
  rw [same]
  rcases tracked_votes_cases tracked with existing | ⟨_, rfl⟩
  · refine holds_count accept votes placed ?_ mine
      (fun index vote => placed.counted _ votes index vote existing)
    rw [(placedTally.blocks _ _ existing).length, sameSet]
    exact checks.inside.1
  · refine holds_count accept _ placed ?_ mine ?_
    · simp only [BlockVotes.new, length_replicate, sameSet]
      exact checks.inside.1
    · intro index stored found
      simp [BlockVotes.new, Quorum.slot_replicate] at found

theorem holds_set_peer_maj23 (peerID : PeerID) (blockID : BlockID) (holds : voteSet.Holds accept) :
    (voteSet.setPeerMaj23 peerID blockID).2.Holds accept := by
  rcases set_peer_maj23_cases voteSet peerID blockID with same | ⟨votes, changed, origin⟩
  · rw [same]
    exact holds
  rw [changed]
  refine ⟨holds.shown, ?_, holds.majority⟩
  intro key entry index stored found present
  by_cases same : key = blockID.key
  · subst same
    simp only [update_self, Option.some.injEq] at found
    subst found
    rcases origin with ⟨existing, old, rfl⟩ | ⟨_, rfl⟩
    · exact holds.counted _ existing index stored old present
    · simp [BlockVotes.new, Quorum.slot_replicate] at present
  · simp only [update_of_ne same] at found
    exact holds.counted key entry index stored found present

end

theorem add_vote_frame (crypto : Crypto) (voteSet next : VoteSet) (vote : Option Vote)
    (result : Added) (returned : voteSet.addVote crypto vote = .ok (result, next)) :
    next.subject = voteSet.subject ∧
      ∀ blockID, voteSet.maj23 = some blockID → next.maj23 = some blockID := by
  rcases add_vote_cases returned with
    ⟨same, _⟩ | ⟨accepted, val, conflicting, _, _, _, stored, _⟩
  · rw [same]
    exact ⟨rfl, fun _ found => found⟩
  obtain ⟨subject, majority, _⟩ :=
    place_frame voteSet accepted accepted.blockID.key val.votingPower
  obtain ⟨_, ⟨_, _, same⟩ | ⟨_, votes, total, _, _, same⟩⟩ :=
    add_verified_vote_shape voteSet next accepted _ _ _ _ stored
  · rw [same]
    exact ⟨subject, fun blockID found => majority.trans found⟩
  refine ⟨by rw [same, count_subject, subject], ?_⟩
  intro blockID found
  rw [same]
  rcases count_cases (voteSet.place accepted accepted.blockID.key val.votingPower) accepted
    val.votingPower votes (quorumOf total) accepted.blockID.key with ⟨kept, _⟩ | ⟨_, undecided, _⟩
  · rw [kept]
    exact majority.trans found
  · rw [majority, found] at undecided
    cases undecided

theorem set_peer_maj23_frame (voteSet : VoteSet) (peerID : PeerID) (blockID : BlockID) :
    (voteSet.setPeerMaj23 peerID blockID).2.subject = voteSet.subject ∧
      (voteSet.setPeerMaj23 peerID blockID).2.maj23 = voteSet.maj23 := by
  rcases set_peer_maj23_cases voteSet peerID blockID with same | ⟨votes, changed, _⟩
  · rw [same]
    exact ⟨rfl, rfl⟩
  · rw [changed]
    exact ⟨rfl, rfl⟩

theorem get_vote_none {index : Nat} {blockKey : Bytes}
    (unknown : voteSet.getVote index blockKey = none)
    (present : slot voteSet.votes index = some vote) : vote.blockID.key ≠ blockKey := by
  intro same
  simp [getVote, present, same, Option.filter] at unknown

theorem Accepted.of_subject {other : VoteSet} {val : Validator}
    (accepted : Accepted crypto voteSet vote val) (same : other.subject = voteSet.subject) :
    Accepted crypto other vote val := by
  simp only [subject, Prod.mk.injEq] at same
  obtain ⟨chainID, height, round, type, valSet⟩ := same
  exact ⟨by rw [height, accepted.height], by rw [round, accepted.round],
    by rw [type, accepted.type], by rw [valSet, accepted.validator], accepted.named,
    accepted.address, by rw [chainID, accepted.verified]⟩

inductive Call where
  | addVote (vote : Option Vote)
  | setPeerMaj23 (peerID : PeerID) (blockID : BlockID)

def apply (crypto : Crypto) (voteSet : VoteSet) : Call → VoteSet
  | .addVote vote => match voteSet.addVote crypto vote with
    | .ok (_, next) => next
    | .error _ => voteSet
  | .setPeerMaj23 peerID blockID => (voteSet.setPeerMaj23 peerID blockID).2

def run (crypto : Crypto) (voteSet : VoteSet) (calls : List Call) : VoteSet :=
  calls.foldl (apply crypto) voteSet

theorem apply_tallied (crypto : Crypto) (call : Call) (wellFormed : voteSet.valSet.WellFormed)
    (tallied : voteSet.Tallied) :
    (voteSet.apply crypto call).Tallied ∧
      (voteSet.apply crypto call).subject = voteSet.subject ∧
      ∀ blockID, voteSet.maj23 = some blockID →
        (voteSet.apply crypto call).maj23 = some blockID := by
  cases call with
  | addVote vote =>
    cases returned : voteSet.addVote crypto vote with
    | error text => simpa [apply, returned] using tallied
    | ok outcome =>
    obtain ⟨result, next⟩ := outcome
    simp only [apply, returned]
    exact ⟨tallied_add_vote wellFormed tallied returned,
      add_vote_frame crypto voteSet next vote result returned⟩
  | setPeerMaj23 peerID blockID =>
    have frame := set_peer_maj23_frame voteSet peerID blockID
    exact ⟨tallied_set_peer_maj23 peerID blockID wellFormed tallied, frame.1,
      fun _ found => frame.2.trans found⟩

theorem run_tallied (crypto : Crypto) (calls : List Call) (wellFormed : voteSet.valSet.WellFormed)
    (tallied : voteSet.Tallied) :
    (voteSet.run crypto calls).Tallied ∧
      (voteSet.run crypto calls).subject = voteSet.subject ∧
      ∀ blockID, voteSet.maj23 = some blockID →
        (voteSet.run crypto calls).maj23 = some blockID := by
  induction calls generalizing voteSet with
  | nil => exact ⟨tallied, rfl, fun _ found => found⟩
  | cons call rest ih =>
  obtain ⟨kept, subject, majority⟩ := apply_tallied crypto call wellFormed tallied
  have sameSet : (voteSet.apply crypto call).valSet = voteSet.valSet :=
    congrArg (·.2.2.2.2) subject
  have later := ih (by rw [sameSet]; exact wellFormed) kept
  exact ⟨later.1, later.2.1.trans subject, fun blockID found =>
    later.2.2 blockID (majority blockID found)⟩

theorem run_holds (accept : Nat → Vote → Prop) (crypto : Crypto) (calls : List Call)
    (wellFormed : voteSet.valSet.WellFormed) (tallied : voteSet.Tallied)
    (holds : voteSet.Holds accept)
    (own : ∀ vote val reached, .addVote (some vote) ∈ calls →
      reached.subject = voteSet.subject → Accepted crypto reached vote val →
      accept vote.validatorIndex.toNat vote) :
    (voteSet.run crypto calls).Holds accept := by
  induction calls generalizing voteSet with
  | nil => exact holds
  | cons call rest ih =>
  obtain ⟨kept, subject, _⟩ := apply_tallied crypto call wellFormed tallied
  have sameSet : (voteSet.apply crypto call).valSet = voteSet.valSet :=
    congrArg (·.2.2.2.2) subject
  refine ih (by rw [sameSet]; exact wellFormed) kept ?_ ?_
  · cases call with
    | addVote vote =>
      cases returned : voteSet.addVote crypto vote with
      | error text => simpa [apply, returned] using holds
      | ok outcome =>
      obtain ⟨result, next⟩ := outcome
      simp only [apply, returned]
      refine holds_add_vote accept wellFormed tallied holds ?_ returned
      rintro given val rfl accepted
      exact own given val voteSet (by simp) rfl accepted
    | setPeerMaj23 peerID blockID =>
      exact holds_set_peer_maj23 accept peerID blockID holds
  · intro vote val reached member same accepted
    exact own vote val reached (mem_cons_of_mem call member) (same.trans subject) accepted

theorem mem_filled_iff_bit {votes : List (Option Vote)} {bits : List Bool}
    (agree : bits = votes.map Option.isSome) (index : Nat) :
    index ∈ filled votes ↔ bits[index]? = some true := by
  rw [agree, Quorum.mem_filled, getElem?_map, slot, getD_eq_getElem?_getD]
  cases found : votes[index]? with
  | none => simp
  | some entry => cases entry <;> simp

/-- After any calls on a new set, the sums, bit arrays and stored votes agree,
the majority is set exactly when some block has its quorum and then stays, and
the votes counted for it are the ones shown. The block ID of a shown vote is
the majority itself when the votes given carry zero or complete block IDs. -/
theorem vote_set_tally (crypto : Crypto) (chainID : ChainID) (height round : Int)
    (type : SignedMsgType) (valSet : ValidatorSet) (voteSet : VoteSet)
    (wellFormed : valSet.WellFormed)
    (made : new chainID height round type valSet = .ok voteSet) (calls : List Call) :
    ∃ total, valSet.totalVotingPower = .ok total ∧
    (voteSet.run crypto calls).sum = weight valSet.power (filled (voteSet.run crypto calls).votes) ∧
    (∀ key votes, (voteSet.run crypto calls).votesByBlock key = some votes →
      votes.sum = weight valSet.power (filled votes.votes) ∧
      (∀ index, index ∈ filled votes.votes ↔ votes.bitArray[index]? = some true) ∧
      ∀ index vote, slot votes.votes index = some vote → vote.blockID.key = key) ∧
    (∀ index, index ∈ filled (voteSet.run crypto calls).votes ↔
      (voteSet.run crypto calls).votesBitArray[index]? = some true) ∧
    ((voteSet.run crypto calls).maj23.isSome = true ↔
      ∃ key votes, (voteSet.run crypto calls).votesByBlock key = some votes ∧
        (total * 2).tdiv 3 + 1 ≤ votes.sum) ∧
    (∀ blockID later, (voteSet.run crypto calls).maj23 = some blockID →
      ((voteSet.run crypto calls).run crypto later).maj23 = some blockID) ∧
    ∀ blockID votes index vote, (voteSet.run crypto calls).maj23 = some blockID →
      (voteSet.run crypto calls).votesByBlock blockID.key = some votes →
      slot votes.votes index = some vote →
      ∃ shown, slot (voteSet.run crypto calls).votes index = some shown ∧
        shown.blockID.key = blockID.key ∧
        ((∀ given, .addVote (some given) ∈ calls →
          given.blockID.votable = true ∧ given.blockID.Typed) → shown.blockID = blockID) := by
  obtain rfl : voteSet.valSet = valSet := congrArg (·.2.2.2.2) (new_subject made)
  have start := tallied_new chainID height round type _ voteSet made
  obtain ⟨tallied, subject, _⟩ := run_tallied crypto calls wellFormed start
  have reachedSet : (voteSet.run crypto calls).valSet = voteSet.valSet :=
    congrArg (·.2.2.2.2) subject
  refine ⟨_, ValidatorSet.total_voting_power_eq _ wellFormed, ?_, ?_, ?_, ?_, ?_, ?_⟩
  · rw [tallied.sum, reachedSet]
  · intro key votes found
    have own := tallied.blocks key votes found
    rw [reachedSet] at own
    exact ⟨own.sum, mem_filled_iff_bit own.bits, own.keys⟩
  · exact mem_filled_iff_bit tallied.bits
  · have quorum : (voteSet.run crypto calls).quorum = voteSet.quorum := by
      rw [VoteSet.quorum, VoteSet.quorum, reachedSet]
    constructor
    · intro decided
      obtain ⟨blockID, found⟩ := Option.isSome_iff_exists.mp decided
      obtain ⟨votes, present, enough⟩ := tallied.reached blockID found
      rw [quorum] at enough
      exact ⟨blockID.key, votes, present, enough⟩
    · rintro ⟨key, votes, present, enough⟩
      cases decision : (voteSet.run crypto calls).maj23 with
      | some blockID => rfl
      | none =>
        have below := tallied.undecided decision key votes present
        rw [quorum] at below
        exact absurd enough (Int.not_le.mpr below)
  · intro blockID later found
    exact (run_tallied crypto later (by rw [reachedSet]; exact wellFormed) tallied).2.2
      blockID found
  · intro blockID votes index vote decision present stored
    obtain ⟨shown, visible, key⟩ := tallied.decided blockID votes index vote decision present stored
    refine ⟨shown, visible, key, ?_⟩
    intro proper
    have holds := run_holds (fun _ vote => vote.blockID.votable = true ∧ vote.blockID.Typed)
      crypto calls wellFormed start (holds_new _ made)
      (fun given _ _ member _ _ => proper given member)
    have own := holds.shown index shown visible
    obtain ⟨_, source, other, same⟩ := holds.majority blockID decision
    rw [same] at other
    exact BlockID.key_injective own.1 other.1 own.2.2 other.2.2 key

def soleSet : ValidatorSet := ⟨[⟨[1], ⟨.ed25519, [1]⟩, 1, 0⟩], none, 1⟩

def soleVote : Vote := ⟨.precommit, 1, 0, BlockID.zero, 0, [1], 0, [7]⟩

theorem sole_set_well_formed : soleSet.WellFormed where
  positive := by decide
  distinct := by decide
  cached := by decide
  bounded := by decide

def fourSet : ValidatorSet :=
  ⟨[⟨[1], ⟨.ed25519, [1]⟩, 1, 0⟩, ⟨[2], ⟨.ed25519, [2]⟩, 1, 0⟩, ⟨[3], ⟨.ed25519, [3]⟩, 1, 0⟩,
    ⟨[4], ⟨.ed25519, [4]⟩, 1, 0⟩], none, 4⟩

theorem four_set_well_formed : fourSet.WellFormed where
  positive := by decide
  distinct := by decide
  cached := by decide
  bounded := by decide

def fourVote (index : Nat) (blockID : BlockID) : Vote :=
  ⟨.precommit, 1, 0, blockID, 0, [UInt8.ofNat (index + 1)], index, [7]⟩

def decidedBlock : BlockID := ⟨List.replicate 32 1, ⟨1, List.replicate 32 2⟩⟩

/-- The first validator precommits nil and the others decide a block. The second vote of the
second validator is refused. -/
def fourConflict : List Call :=
  [.addVote (some (fourVote 0 .zero)), .addVote (some (fourVote 1 decidedBlock)),
    .addVote (some (fourVote 1 .zero)), .addVote (some (fourVote 2 decidedBlock)),
    .addVote (some (fourVote 3 decidedBlock))]

theorem vote_set_tally_four : ∃ voteSet, new [] 1 0 .precommit fourSet = .ok voteSet ∧
    (voteSet.run .acceptAll fourConflict).maj23 = some decidedBlock ∧
    (voteSet.run .acceptAll fourConflict).sum = 4 ∧
    ∀ key votes, (voteSet.run .acceptAll fourConflict).votesByBlock key = some votes →
      votes.sum = weight fourSet.power (filled votes.votes) := by
  obtain ⟨_, _, _, blocks, _⟩ := vote_set_tally .acceptAll [] 1 0 .precommit fourSet _
    four_set_well_formed rfl fourConflict
  exact ⟨_, rfl, by decide +kernel, by decide +kernel, fun key votes found =>
    (blocks key votes found).1⟩

end VoteSet

end Tendermint.Types
