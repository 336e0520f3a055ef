import Tendermint.Types.Tally

/-!
What a vote set shows against what it has counted. The documentation of `VoteSet` says that
every vote in `.votes` has its entry in `.votesByBlock`. A vote that conflicts with the shown
one is refused when no peer claims its block; `addVerifiedVote` replaces the shown vote before
it comes to that decision, so a late vote for the majority is shown, refused and not counted.
-/

namespace Tendermint.Types

open Quorum (slot)

namespace BlockVotes

theorem slot_add_keeps (votes : BlockVotes) (vote stored : Vote) (votingPower : Int) (index : Nat)
    (room : vote.validatorIndex.toNat < votes.votes.length)
    (present : slot votes.votes index = some stored) :
    slot (votes.addVerifiedVote vote votingPower).votes index = some stored := by
  cases vacant : slot votes.votes vote.validatorIndex.toNat with
  | some existing =>
    rw [add_present votingPower vacant]
    exact present
  | none =>
  have apart : index ≠ vote.validatorIndex.toNat := by
    rintro rfl
    rw [vacant] at present
    cases present
  rw [add_vacant votingPower vacant]
  exact (Quorum.slot_set _ _ room).trans ((if_neg apart).trans present)

theorem slot_add_own (votes : BlockVotes) (vote : Vote) (votingPower : Int)
    (room : vote.validatorIndex.toNat < votes.votes.length)
    (vacant : slot votes.votes vote.validatorIndex.toNat = none) :
    slot (votes.addVerifiedVote vote votingPower).votes vote.validatorIndex.toNat = some vote := by
  rw [add_vacant votingPower vacant]
  exact (Quorum.slot_set _ _ room).trans (if_pos rfl)

end BlockVotes

namespace VoteSet

def Counted (voteSet : VoteSet) : Prop :=
  ∀ index vote, slot voteSet.votes index = some vote →
    ∃ votes, voteSet.votesByBlock vote.blockID.key = some votes ∧ slot votes.votes index = some vote

def Untouched (crypto : Crypto) (voteSet : VoteSet) : Call → Prop
  | .addVote vote => ∀ result next, voteSet.addVote crypto vote = .ok (result, next) →
      result.added = false → next = voteSet
  | .setPeerMaj23 _ _ => True

/-- A new vote that conflicts with the shown one and is for the majority comes only after some
peer has claimed that majority. -/
def Claimed (crypto : Crypto) (voteSet : VoteSet) : Call → Prop
  | .addVote vote => ∀ given val existing votes, vote = some given →
      Accepted crypto voteSet given val →
      voteSet.getVote given.validatorIndex.toNat given.blockID.key = none →
      slot voteSet.votes given.validatorIndex.toNat = some existing →
      voteSet.maj23.map BlockID.key = some given.blockID.key →
      voteSet.votesByBlock given.blockID.key = some votes → votes.peerMaj23 = true
  | .setPeerMaj23 _ _ => True

section Rejected

variable (crypto : Crypto) (voteSet next : VoteSet) (vote : Vote)

theorem tracked_votes_none {blockKey : Bytes} {conflicting : Option Vote} :
    voteSet.trackedVotes blockKey conflicting = none ↔
      conflicting.isSome = true ∧
        ∀ votes, voteSet.votesByBlock blockKey = some votes → votes.peerMaj23 = false := by
  unfold trackedVotes
  cases voteSet.votesByBlock blockKey with
  | none => cases conflicting <;> simp
  | some votes => cases conflicting <;> cases claim : votes.peerMaj23 <;> simp [claim]

theorem counted_new {chainID : ChainID} {height round : Int} {type : SignedMsgType}
    {valSet : ValidatorSet} (made : new chainID height round type valSet = .ok voteSet) :
    voteSet.Counted := by
  unfold new at made
  split at made
  · cases made
  · cases made
    intro index vote found
    simp [Quorum.slot_replicate] at found

theorem untouched_of_claimed (tallied : voteSet.Tallied) {call : Call}
    (claimed : voteSet.Claimed crypto call) : voteSet.Untouched crypto call := by
  cases call with
  | setPeerMaj23 peerID blockID => trivial
  | addVote vote =>
  intro result next returned refused
  rcases add_vote_cases returned with
    ⟨same, _⟩ | ⟨given, val, conflicting, isGiven, accepted, unknown, stored, _⟩
  · exact same
  obtain ⟨current, ⟨_, forgotten, placed⟩ | ⟨added, _⟩⟩ :=
    add_verified_vote_shape voteSet next given _ _ _ _ stored
  · obtain ⟨_, majority, blocks⟩ :=
      place_frame voteSet given given.blockID.key val.votingPower
    obtain ⟨conflict, unclaimed⟩ := (tracked_votes_none _).mp forgotten
    rw [blocks] at unclaimed
    rw [current] at conflict
    obtain ⟨existing, present⟩ := Option.isSome_iff_exists.mp conflict
    rcases place_cases voteSet given val.votingPower given.blockID.key with
      ⟨same, _⟩ | ⟨_, decided, _⟩ | ⟨_, vacant⟩
    · exact placed.trans same
    · obtain ⟨blockID, decision, key⟩ := Option.map_eq_some_iff.mp decided
      obtain ⟨votes, found, _⟩ := tallied.reached blockID decision
      rw [key] at found
      have claim := claimed given val existing votes isGiven accepted unknown present decided found
      rw [unclaimed votes found] at claim
      cases claim
    · rw [present] at vacant
      cases vacant
  · rw [refused] at added
    cases added

theorem claimed_of_untouched (tallied : voteSet.Tallied) (call : Call)
    (untouched : voteSet.Untouched crypto call) : voteSet.Claimed crypto call := by
  cases call with
  | setPeerMaj23 peerID blockID => trivial
  | addVote vote =>
  rintro given val existing votes rfl accepted unknown present decided found
  by_contra unclaimed
  have different := get_vote_none unknown present
  have inside := accepted.inside.1
  rw [← tallied.length] at inside
  have replaced : slot (voteSet.place given given.blockID.key val.votingPower).votes
      given.validatorIndex.toNat = some given := by
    obtain ⟨shown, fills, same⟩ :=
      place_fills voteSet given val.votingPower inside given.blockID.key
    rw [same decided] at fills
    exact fills
  obtain ⟨_, _, blocks⟩ := place_frame voteSet given given.blockID.key val.votingPower
  have forgotten : (voteSet.place given given.blockID.key val.votingPower).trackedVotes
      given.blockID.key (some existing) = none := by
    refine (tracked_votes_none _).mpr ⟨rfl, fun other same => ?_⟩
    rw [blocks, found] at same
    cases same
    exact Bool.eq_false_iff.mpr unclaimed
  have apart : existing.blockID.equals given.blockID = false := by
    rw [Bool.eq_false_iff]
    intro equal
    rw [(BlockID.equals_iff _ _).mp equal] at different
    exact different rfl
  have stored : voteSet.addVerifiedVote given given.blockID.key val.votingPower =
      .ok (false, some existing, voteSet.place given given.blockID.key val.votingPower) := by
    simp only [addVerifiedVote, present, Option.any_some, apart, Bool.false_eq_true, if_false,
      forgotten, pure_eq, bind_eq]
  have returned := add_vote_accepted accepted
    (ValidatorSet.get_by_index_some _ accepted.validator).1 unknown stored
    (fun none => nomatch none)
  have same := untouched _ _ returned rfl
  rw [same, present] at replaced
  cases replaced
  exact different rfl

end Rejected

section Counting

variable (voteSet : VoteSet) (vote : Vote)

theorem counted_count {votingPower quorum : Int} {votes : BlockVotes}
    (counted : ∀ index shown, slot voteSet.votes index = some shown →
      shown = vote ∧ index = vote.validatorIndex.toNat ∨
        ∃ tally, voteSet.votesByBlock shown.blockID.key = some tally ∧
          slot tally.votes index = some shown)
    (tracked : ∀ tally, voteSet.votesByBlock vote.blockID.key = some tally → tally = votes)
    (room : vote.validatorIndex.toNat < votes.votes.length)
    (vacant : slot votes.votes vote.validatorIndex.toNat = none)
    (keys : ∀ index shown, slot votes.votes index = some shown →
      shown.blockID.key = vote.blockID.key) :
    (voteSet.count vote vote.blockID.key votingPower quorum votes).Counted := by
  have own : ∀ index shown,
      slot (votes.addVerifiedVote vote votingPower).votes index = some shown →
      Function.update voteSet.votesByBlock vote.blockID.key
        (some (votes.addVerifiedVote vote votingPower)) shown.blockID.key =
          some (votes.addVerifiedVote vote votingPower) := by
    intro index shown found
    have key : shown.blockID.key = vote.blockID.key := by
      rcases votes.slot_add_cases vote shown votingPower index room found with old | ⟨rfl, _⟩
      · exact keys index shown old
      · rfl
    rw [key, Function.update_self]
  have kept : ∀ index shown, slot voteSet.votes index = some shown →
      ∃ tally, Function.update voteSet.votesByBlock vote.blockID.key
          (some (votes.addVerifiedVote vote votingPower)) shown.blockID.key = some tally ∧
        slot tally.votes index = some shown := by
    intro index shown found
    rcases counted index shown found with ⟨rfl, rfl⟩ | ⟨tally, present, stored⟩
    · have added := votes.slot_add_own shown votingPower room vacant
      exact ⟨_, own _ _ added, added⟩
    · by_cases same : shown.blockID.key = vote.blockID.key
      · rw [same] at present
        rw [tracked tally present] at stored
        have added := votes.slot_add_keeps vote shown votingPower index room stored
        exact ⟨_, own _ _ added, added⟩
      · exact ⟨tally, (Function.update_of_ne same _ _).trans present, stored⟩
  rcases count_cases voteSet vote votingPower votes quorum vote.blockID.key with
    ⟨same, _⟩ | ⟨same, _⟩
  · rw [same]
    exact kept
  · rw [same]
    intro index shown found
    -- the votes of a new majority are copied from its tally
    rcases Quorum.slot_overlay_cases _ _ found with copied | old
    · exact ⟨_, own index shown copied, copied⟩
    · exact kept index shown old

theorem slot_place_cases {votingPower : Int} {index : Nat} {shown : Vote}
    (room : vote.validatorIndex.toNat < voteSet.votes.length)
    (found : slot (voteSet.place vote vote.blockID.key votingPower).votes index = some shown) :
    shown = vote ∧ index = vote.validatorIndex.toNat ∨ slot voteSet.votes index = some shown := by
  have changed : slot (voteSet.votes.set vote.validatorIndex.toNat (some vote)) index =
      some shown → shown = vote ∧ index = vote.validatorIndex.toNat ∨
        slot voteSet.votes index = some shown := by
    intro found
    rw [Quorum.slot_set _ _ room] at found
    split at found
    case isTrue same =>
      cases found
      exact .inl ⟨rfl, same⟩
    case isFalse => exact .inr found
  rcases place_cases voteSet vote votingPower vote.blockID.key with
    ⟨same, _⟩ | ⟨same, _⟩ | ⟨same, _⟩
  · rw [same] at found
    exact .inr found
  · rw [same] at found
    exact changed found
  · rw [same] at found
    exact changed found

theorem counted_set_peer_maj23 (peerID : PeerID) (blockID : BlockID) (counted : voteSet.Counted) :
    (voteSet.setPeerMaj23 peerID blockID).2.Counted := by
  rcases set_peer_maj23_cases voteSet peerID blockID with same | ⟨votes, changed, origin⟩
  · rw [same]
    exact counted
  rw [changed]
  intro index shown found
  obtain ⟨tally, present, stored⟩ := counted index shown found
  by_cases same : shown.blockID.key = blockID.key
  · rw [same] at present
    refine ⟨votes, by simp only [same, Function.update_self], ?_⟩
    rcases origin with ⟨existing, old, rfl⟩ | ⟨missing, _⟩
    · rw [present] at old
      cases old
      exact stored
    · rw [present] at missing
      cases missing
  · exact ⟨tally, (Function.update_of_ne same _ _).trans present, stored⟩

end Counting

variable {voteSet : VoteSet}

theorem get_vote_uncounted {index : Nat} {blockKey : Bytes} {votes : BlockVotes}
    (unknown : voteSet.getVote index blockKey = none)
    (found : voteSet.votesByBlock blockKey = some votes) : slot votes.votes index = none := by
  unfold getVote at unknown
  split at unknown
  · cases unknown
  · rw [found] at unknown
    exact unknown

theorem apply_counted {crypto : Crypto} {call : Call} (tallied : voteSet.Tallied)
    (counted : voteSet.Counted) (claimed : voteSet.Claimed crypto call) :
    (voteSet.apply crypto call).Counted := by
  cases call with
  | setPeerMaj23 peerID blockID => exact counted_set_peer_maj23 voteSet peerID blockID counted
  | addVote vote =>
  have untouched := untouched_of_claimed crypto voteSet tallied claimed
  cases returned : voteSet.addVote crypto vote with
  | error text => simpa only [apply, returned] using counted
  | ok outcome =>
  obtain ⟨result, next⟩ := outcome
  simp only [apply, returned]
  rcases add_vote_cases returned with
    ⟨same, _⟩ | ⟨given, val, conflicting, _, accepted, unknown, stored, _⟩
  · rw [same]
    exact counted
  obtain ⟨_, ⟨refused, _⟩ | ⟨_, votes, total, tracked, _, same⟩⟩ :=
    add_verified_vote_shape voteSet next given _ _ _ _ stored
  · rw [untouched result next returned refused]
    exact counted
  have room : given.validatorIndex.toNat < voteSet.votes.length := by
    rw [tallied.length]
    exact accepted.inside.1
  obtain ⟨subject, _, blocks⟩ :=
    place_frame voteSet given given.blockID.key val.votingPower
  have sameSet : (voteSet.place given given.blockID.key val.votingPower).valSet =
      voteSet.valSet := congrArg (·.2.2.2.2) subject
  have shown : ∀ index shown,
      slot (voteSet.place given given.blockID.key val.votingPower).votes index = some shown →
      shown = given ∧ index = given.validatorIndex.toNat ∨
        ∃ tally, (voteSet.place given given.blockID.key val.votingPower).votesByBlock
            shown.blockID.key = some tally ∧ slot tally.votes index = some shown := by
    intro index shown found
    rcases slot_place_cases voteSet given room found with
      own | old
    · exact .inl own
    · rw [blocks]
      exact .inr (counted index shown old)
  rw [same]
  rcases tracked_votes_cases tracked with existing | ⟨missing, rfl⟩
  · have found := existing
    rw [blocks] at found
    have own := tallied.blocks _ _ found
    refine counted_count _ given shown ?_ ?_ (get_vote_uncounted unknown found) own.keys
    · intro tally present
      rw [existing] at present
      exact (Option.some.inj present).symm
    · rw [own.length]
      exact accepted.inside.1
  · refine counted_count _ given shown ?_ ?_ (Quorum.slot_replicate _ _ _) ?_
    · intro tally present
      rw [missing] at present
      cases present
    · simpa only [BlockVotes.new, List.length_replicate, sameSet] using accepted.inside.1
    · intro index shown found
      simp [BlockVotes.new, Quorum.slot_replicate] at found

theorem run_counted (crypto : Crypto) (calls : List Call) (wellFormed : voteSet.valSet.WellFormed)
    (tallied : voteSet.Tallied) (counted : voteSet.Counted)
    (claimed : ∀ before call after, calls = before ++ call :: after →
      (voteSet.run crypto before).Claimed crypto call) : (voteSet.run crypto calls).Counted := by
  induction calls generalizing voteSet with
  | nil => exact counted
  | cons call rest ih =>
  obtain ⟨kept, subject, _⟩ := apply_tallied crypto call wellFormed tallied
  have sameSet : (voteSet.apply crypto call).valSet = voteSet.valSet :=
    congrArg (·.2.2.2.2) subject
  refine ih (by rw [sameSet]; exact wellFormed) kept
    (apply_counted tallied counted (claimed [] call rest rfl)) ?_
  intro before other after split
  exact claimed (call :: before) other after (by rw [split]; rfl)

/-- In a run on a new set, refused votes leave no trace and every shown vote is counted, all
along, exactly when each late vote for the majority finds it claimed by a peer. -/
theorem rejected_vote_untouched_iff (crypto : Crypto) (chainID : ChainID) (height round : Int)
    (type : SignedMsgType) (valSet : ValidatorSet) (voteSet : VoteSet)
    (wellFormed : valSet.WellFormed)
    (made : new chainID height round type valSet = .ok voteSet) (calls : List Call) :
    (∀ before call after, calls = before ++ call :: after →
      (voteSet.run crypto before).Untouched crypto call ∧
        ((voteSet.run crypto before).apply crypto call).Counted) ↔
      ∀ before call after, calls = before ++ call :: after →
        (voteSet.run crypto before).Claimed crypto call := by
  obtain rfl : voteSet.valSet = valSet := congrArg (·.2.2.2.2) (new_subject made)
  have start := tallied_new chainID height round type _ voteSet made
  have tallied : ∀ before, (voteSet.run crypto before).Tallied :=
    fun before => (run_tallied crypto before wellFormed start).1
  constructor
  · intro kept before call after split
    exact claimed_of_untouched crypto _ (tallied before) call (kept before call after split).1
  · intro claimed before call after split
    have now := claimed before call after split
    refine ⟨untouched_of_claimed crypto _ (tallied before) now, ?_⟩
    refine apply_counted (tallied before) ?_ now
    refine run_counted crypto before wellFormed start (counted_new voteSet made) ?_
    intro earlier other later prefixed
    exact claimed earlier other (later ++ call :: after) (by rw [split, prefixed]; simp)

def fourStart : VoteSet :=
  { chainID := [], height := 1, round := 0, signedMsgType := .precommit, valSet := fourSet,
    votesBitArray := List.replicate 4 false, votes := List.replicate 4 none, sum := 0,
    maj23 := none, votesByBlock := fun _ => none, peerMaj23s := fun _ => none }

/-- A peer claims the block that was decided, and then the first validator precommits it too. -/
def fourClaim : List Call :=
  fourConflict ++ [.setPeerMaj23 [9] decidedBlock, .addVote (some (fourVote 0 decidedBlock))]

theorem claimed_votes_untouched :
    ((fourStart.run .acceptAll (fourClaim.take 2)).addVote .acceptAll
      (some (fourVote 1 .zero))).toOption.map (·.1.added) = some false ∧
    ((fourStart.run .acceptAll fourClaim).votesByBlock decidedBlock.key).map (·.sum) = some 4 ∧
    ∀ before call after, fourClaim = before ++ call :: after →
      (fourStart.run .acceptAll before).Untouched .acceptAll call ∧
        ((fourStart.run .acceptAll before).apply .acceptAll call).Counted := by
  refine ⟨by decide +kernel, by decide +kernel, (rejected_vote_untouched_iff .acceptAll [] 1 0
    .precommit fourSet fourStart four_set_well_formed rfl fourClaim).mpr ?_⟩
  intro before call after split
  have here : before = fourClaim.take before.length := by
    rw [split]
    simp
  have next : fourClaim[before.length]? = some call := by
    rw [split]
    simp
  have inside : before.length < fourClaim.length := by
    rw [split]
    simp
  generalize before.length = count at here next inside
  subst here
  by_cases early : count < 5
  · -- nothing is decided yet
    have undecided : ∀ count < 5,
        (fourStart.run .acceptAll (fourClaim.take count)).maj23 = none := by
      decide +kernel
    cases call with
    | setPeerMaj23 => trivial
    | addVote =>
      intro _ _ _ _ _ _ _ _ decided
      rw [undecided count early] at decided
      cases decided
  have late : count = 5 ∨ count = 6 := by
    have size : fourClaim.length = 7 := rfl
    omega
  rcases late with rfl | rfl
  · cases next
    trivial
  · cases next
    rintro given val existing votes same - - - - tally
    cases same
    have claimed : ((fourStart.run .acceptAll (fourClaim.take 6)).votesByBlock
        decidedBlock.key).map (·.peerMaj23) = some true := by decide +kernel
    rw [show (fourVote 0 decidedBlock).blockID = decidedBlock from rfl] at tally
    rw [tally] at claimed
    exact Option.some.inj claimed

def fourDecide : List Call :=
  [.addVote (some (fourVote 0 .zero)), .addVote (some (fourVote 1 decidedBlock)),
    .addVote (some (fourVote 2 decidedBlock)), .addVote (some (fourVote 3 decidedBlock))]

/-- The first validator then precommits the decided block too. -/
theorem late_vote_shown_uncounted :
    let decided := fourStart.run .acceptAll fourDecide
    let late := fourVote 0 decidedBlock
    (decided.addVote .acceptAll (some late)).toOption.map
        (fun outcome => (outcome.1, slot decided.votes 0, slot outcome.2.votes 0,
          (outcome.2.votesByBlock decidedBlock.key).map fun votes => slot votes.votes 0)) =
      some (⟨false, some (.conflictingVotes (fourVote 0 .zero) late)⟩,
        some (fourVote 0 .zero), some late, some none) := by
  decide +kernel

end VoteSet

end Tendermint.Types
