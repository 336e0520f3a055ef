import Tendermint.Types.RejectedVote

/-!
The key of a block ID as the index of the tallies of a vote set. The key is the
hash followed by the encoded part-set header, with nothing between them; on the
block IDs that a vote may carry it tells them apart, so a tally holds the votes
for one block.
-/

namespace Tendermint.Types

open Quorum (slot)

/-- Of a zero or complete block ID only the number of parts is not bounded by its
checks but by its type. -/
theorem BlockID.votable_typed (blockID : BlockID) (votable : blockID.votable = true)
    (total : blockID.partSetHeader.total < 2 ^ 32) : blockID.partSetHeader.Typed := by
  constructor
  · exact total
  · rw [BlockID.votable, Bool.or_eq_true] at votable
    rcases votable with isZero | complete
    · rw [(is_zero_iff blockID).mp isZero]
      decide
    · rw [((is_complete_iff blockID).mp complete).2.2]
      decide

namespace VoteSet

/-- The votes that were given carry zero or complete block IDs, as `ValidateBasic`
of a vote asks. -/
def Checked (calls : List Call) : Prop :=
  ∀ given, .addVote (some given) ∈ calls →
    given.validateBasic = none ∧ given.blockID.partSetHeader.total < 2 ^ 32

theorem counted_for_one_block {crypto : Crypto} {chainID : ChainID} {height round : Int}
    {type : SignedMsgType} {valSet : ValidatorSet} {voteSet : VoteSet}
    (wellFormed : valSet.WellFormed)
    (made : new chainID height round type valSet = .ok voteSet) {calls : List Call}
    (checked : Checked calls) {key : Bytes} {votes : BlockVotes}
    (found : (voteSet.run crypto calls).votesByBlock key = some votes) {index other : Nat}
    {vote otherVote : Vote} (stored : slot votes.votes index = some vote)
    (otherStored : slot votes.votes other = some otherVote) :
    vote.blockID = otherVote.blockID := by
  obtain rfl : voteSet.valSet = valSet := congrArg (·.2.2.2.2) (new_subject made)
  have start := tallied_new chainID height round type _ voteSet made
  have tallied := (run_tallied crypto calls wellFormed start).1
  have holds := run_holds
    (fun _ vote => vote.blockID.votable = true ∧ vote.blockID.partSetHeader.Typed)
    crypto calls wellFormed start (holds_new _ made)
    (fun given _ _ member _ _ =>
      have votable := (given.validate_basic_ok (checked given member).1).2.2
      ⟨votable, given.blockID.votable_typed votable (checked given member).2⟩)
  have keys := (tallied.blocks key votes found).keys
  have own := holds.counted key votes index vote found stored
  have others := holds.counted key votes other otherVote found otherStored
  exact BlockID.key_injective own.1 others.1 own.2 others.2
    ((keys index vote stored).trans (keys other otherVote otherStored).symm)

end VoteSet

/-- Block IDs that a vote may carry are equal if their keys are, and so after any
calls on a new vote set, with any claims of peers among them, no tally holds
votes for two block IDs. -/
theorem block_key_injective :
    (∀ blockID other : BlockID, blockID.validateBasic = none → other.validateBasic = none →
      blockID.votable = true → other.votable = true →
      blockID.partSetHeader.total < 2 ^ 32 → other.partSetHeader.total < 2 ^ 32 →
      blockID.key = other.key → blockID.equals other = true) ∧
    ∀ (crypto : Crypto) (chainID : ChainID) (height round : Int) (type : SignedMsgType)
      (valSet : ValidatorSet) (voteSet : VoteSet), valSet.WellFormed →
      VoteSet.new chainID height round type valSet = .ok voteSet →
      ∀ calls, VoteSet.Checked calls → ∀ key votes,
        (voteSet.run crypto calls).votesByBlock key = some votes →
        ∀ index other vote otherVote, slot votes.votes index = some vote →
          slot votes.votes other = some otherVote →
          vote.blockID.equals otherVote.blockID = true := by
  constructor
  · intro blockID other _ _ votable otherVotable total otherTotal same
    rw [BlockID.equals_iff]
    exact BlockID.key_injective votable otherVotable
      (blockID.votable_typed votable total) (other.votable_typed otherVotable otherTotal) same
  · intro crypto chainID height round type valSet voteSet wellFormed made calls checked key votes
      found index other vote otherVote stored otherStored
    rw [BlockID.equals_iff]
    exact VoteSet.counted_for_one_block wellFormed made checked found stored otherStored

def pairSet : ValidatorSet :=
  ⟨[⟨List.replicate 20 1, ⟨.ed25519, List.replicate 20 1⟩, 1, 0⟩,
    ⟨List.replicate 20 2, ⟨.ed25519, List.replicate 20 2⟩, 1, 0⟩], none, 2⟩

theorem pair_set_well_formed : pairSet.WellFormed where
  positive := by decide
  distinct := by decide
  cached := by decide
  bounded := by decide

def pairVote (index : Nat) : Vote :=
  ⟨.precommit, 1, 0, VoteSet.decidedBlock, 0, List.replicate 20 (UInt8.ofNat (index + 1)), index,
    [7]⟩

def pairCalls : List VoteSet.Call := [.addVote (some (pairVote 0)), .addVote (some (pairVote 1))]

theorem pair_calls_checked : VoteSet.Checked pairCalls := by
  intro given member
  rcases List.mem_cons.mp member with first | member
  · cases first
    decide
  rcases List.mem_cons.mp member with second | none
  · cases second
    decide
  · cases none

theorem pair_votes_one_block :
    VoteSet.decidedBlock.equals VoteSet.decidedBlock = true ∧
    ∃ voteSet votes, VoteSet.new [] 1 0 .precommit pairSet = .ok voteSet ∧
      (voteSet.run .acceptAll pairCalls).votesByBlock VoteSet.decidedBlock.key = some votes ∧
      slot votes.votes 0 = some (pairVote 0) ∧ slot votes.votes 1 = some (pairVote 1) ∧
      (pairVote 0).blockID.equals (pairVote 1).blockID = true := by
  constructor
  · exact block_key_injective.1 _ _ (by decide) (by decide) (by decide) (by decide) (by decide)
      (by decide) rfl
  · have shown : (VoteSet.new [] 1 0 .precommit pairSet).toOption.bind (fun voteSet =>
        ((voteSet.run .acceptAll pairCalls).votesByBlock VoteSet.decidedBlock.key).map
          fun votes => (slot votes.votes 0, slot votes.votes 1)) =
        some (some (pairVote 0), some (pairVote 1)) := by
      decide +kernel
    obtain ⟨voteSet, made, mapped⟩ := Option.bind_eq_some_iff.mp shown
    cases made
    obtain ⟨votes, found, slots⟩ := Option.map_eq_some_iff.mp mapped
    obtain ⟨first, second⟩ := Prod.mk.inj slots
    exact ⟨_, votes, rfl, found, first, second, block_key_injective.2 .acceptAll [] 1 0 .precommit
      pairSet _ pair_set_well_formed rfl pairCalls pair_calls_checked _ votes found 0 1 _ _ first
      second⟩

end Tendermint.Types
