import Tendermint.Consensus.HeightVoteSet
import Tendermint.Types.RejectedVote

/-!
The rounds that a `HeightVoteSet` tracks over any calls. The state machine calls
`SetRound` with the round after the one it enters, and it enters rounds in order;
peers send votes of any rounds. At the largest int32 the counter of the loop of
`SetRound` wraps and the loop does not end; `extend` is that loop.
-/

namespace Tendermint.Types

open List Function
open Quorum (slot)

namespace VoteSet

def Counts (voteSet : VoteSet) (vote : Vote) : Prop :=
  ∃ votes, voteSet.votesByBlock vote.blockID.key = some votes ∧
    slot votes.votes vote.validatorIndex.toNat = some vote

theorem count_blocks (voteSet : VoteSet) (vote : Vote) (blockKey : Bytes)
    (votingPower quorum : Int) (votes : BlockVotes) :
    (voteSet.count vote blockKey votingPower quorum votes).votesByBlock =
      Function.update voteSet.votesByBlock blockKey
        (some (votes.addVerifiedVote vote votingPower)) := by
  rcases count_cases voteSet vote votingPower votes quorum blockKey with ⟨same, _⟩ | ⟨same, _⟩
  all_goals rw [same]

section

variable (crypto : Crypto) (voteSet next : VoteSet) (vote : Vote) (result : Added)
  (tallied : voteSet.Tallied) (returned : voteSet.addVote crypto (some vote) = .ok (result, next))

include crypto tallied returned

theorem add_vote_tallies : (result.added = false ∧ next.votesByBlock = voteSet.votesByBlock) ∨
    ∃ votes votingPower, vote.validatorIndex.toNat < votes.votes.length ∧
      slot votes.votes vote.validatorIndex.toNat = none ∧
      (voteSet.votesByBlock vote.blockID.key = some votes ∨
        voteSet.votesByBlock vote.blockID.key = none) ∧
      next.votesByBlock = Function.update voteSet.votesByBlock vote.blockID.key
        (some (votes.addVerifiedVote vote votingPower)) := by
  rcases add_vote_cases returned with
    ⟨same, refused⟩ | ⟨given, val, conflicting, named, accepted, unknown, stored, _⟩
  · exact Or.inl ⟨refused, by rw [same]⟩
  cases named
  obtain ⟨subject, _, blocks⟩ := place_frame voteSet vote vote.blockID.key val.votingPower
  obtain ⟨_, ⟨refused, _, same⟩ | ⟨_, votes, total, tracked, _, same⟩⟩ :=
    add_verified_vote_shape voteSet next vote _ _ _ _ stored
  · exact Or.inl ⟨refused, by rw [same, blocks]⟩
  have sameSet : (voteSet.place vote vote.blockID.key val.votingPower).valSet = voteSet.valSet :=
    congrArg (·.2.2.2.2) subject
  refine Or.inr ⟨votes, val.votingPower, ?_⟩
  rcases tracked_votes_cases tracked with existing | ⟨missing, rfl⟩
  · rw [blocks] at existing
    refine ⟨?_, get_vote_uncounted unknown existing, Or.inl existing, ?_⟩
    · rw [(tallied.blocks _ _ existing).length]
      exact accepted.inside.1
    · rw [same, count_blocks, blocks]
  · rw [blocks] at missing
    refine ⟨?_, Quorum.slot_replicate _ _ _, Or.inr missing, ?_⟩
    · simpa only [BlockVotes.new, length_replicate, sameSet] using accepted.inside.1
    · rw [same, count_blocks, blocks]

theorem counts_add_vote : (result.added = true → next.Counts vote) ∧
      ∀ stored, voteSet.Counts stored → next.Counts stored := by
  rcases add_vote_tallies crypto voteSet next vote result tallied returned with
    ⟨refused, same⟩ | ⟨votes, votingPower, room, vacant, origin, changed⟩
  · constructor
    · intro added
      rw [refused] at added
      cases added
    · rintro stored ⟨tally, found, present⟩
      exact ⟨tally, by rw [same, found], present⟩
  · constructor
    · intro _
      exact ⟨_, by rw [changed, update_self], votes.slot_add_own vote votingPower room vacant⟩
    · rintro stored ⟨tally, found, present⟩
      by_cases same : stored.blockID.key = vote.blockID.key
      · rw [same] at found
        rcases origin with existing | missing
        · rw [existing] at found
          cases found
          exact ⟨_, by rw [changed, same, update_self],
            votes.slot_add_keeps vote stored votingPower _ room present⟩
        · rw [missing] at found
          cases found
      · exact ⟨tally, by rw [changed, update_of_ne same, found], present⟩

end

theorem counts_set_peer_maj23 (voteSet : VoteSet) (peerID : PeerID) (blockID : BlockID)
    (stored : Vote) (counts : voteSet.Counts stored) :
    (voteSet.setPeerMaj23 peerID blockID).2.Counts stored := by
  obtain ⟨tally, found, present⟩ := counts
  rcases set_peer_maj23_cases voteSet peerID blockID with same | ⟨votes, changed, origin⟩
  · rw [same]
    exact ⟨tally, found, present⟩
  rw [changed]
  by_cases same : stored.blockID.key = blockID.key
  · rw [same] at found
    refine ⟨votes, by simp only [same, update_self], ?_⟩
    rcases origin with ⟨existing, old, rfl⟩ | ⟨missing, _⟩
    · rw [found] at old
      cases old
      exact present
    · rw [found] at missing
      cases missing
  · exact ⟨tally, (update_of_ne same _ _).trans found, present⟩

end VoteSet

end Tendermint.Types

namespace Tendermint.Consensus

open Types List Function

namespace HeightVoteSet

def nextInt32 (value : Int) : Int := Int.bmod (value + 1) (2 ^ 32)

/-- The loop of `SetRound` from round `r` on, for at most `fuel` steps; nothing is
returned while it goes on. -/
def extend (round : Int) : Nat → Int → HeightVoteSet → Panics (Option HeightVoteSet)
  | 0, _, _ => .ok none
  | fuel + 1, r, hvs =>
    if r ≤ round then do
      let next ← if (hvs.roundVoteSets r).isSome then pure hvs else hvs.addRound r
      extend round fuel (nextInt32 r) next
    else .ok (some hvs)

theorem add_round_ok (hvs : HeightVoteSet) (round : Int) (height : hvs.height ≠ 0)
    (missing : hvs.roundVoteSets round = none) :
    ∃ next, hvs.addRound round = .ok next ∧ next.height = hvs.height := by
  simp only [addRound, missing, Option.isSome_none, Bool.false_eq_true, if_false, VoteSet.new,
    height, bind_eq, pure_eq]
  exact ⟨_, rfl, rfl⟩

variable {hvs next : HeightVoteSet} {crypto : Crypto} {peerID : PeerID} {vote : Vote} {round : Int}
  {voteSet : VoteSet} {created : PeerID → List Int}

theorem extend_step (round r : Int) (fuel : Nat) (height : hvs.height ≠ 0) (inside : r ≤ round) :
    ∃ next, next.height = hvs.height ∧
      extend round (fuel + 1) r hvs = extend round fuel (nextInt32 r) next ∧
      ∀ first count, first = r →
        hvs.addRounds first (count + 1) = next.addRounds (first + 1) count := by
  cases tracked : hvs.roundVoteSets r with
  | some sets =>
    refine ⟨hvs, rfl, by simp [extend, inside, tracked], ?_⟩
    rintro first count rfl
    simp [addRounds, tracked]
  | none =>
    obtain ⟨next, added, same⟩ := hvs.add_round_ok r height tracked
    refine ⟨next, same, by simp [extend, inside, tracked, added], ?_⟩
    rintro first count rfl
    simp [addRounds, tracked, added]

/-- No int32 is beyond the largest one, so the loop up to it goes on. -/
theorem extend_forever (r : Int) (fuel : Nat) (hvs : HeightVoteSet) (height : hvs.height ≠ 0)
    (inside : r ≤ maxInt32) : extend maxInt32 fuel r hvs = .ok none := by
  induction fuel generalizing r hvs with
  | zero => rfl
  | succ fuel ih =>
  obtain ⟨next, same, step, _⟩ := extend_step maxInt32 r fuel height inside
  rw [step]
  apply ih (nextInt32 r) next
  · rw [same]
    exact height
  · have wrapped := Int.bmod_lt (x := r + 1) (m := 2 ^ 32) (by decide)
    unfold nextInt32 maxInt32
    omega

/-- Below the largest int32 the loop ends with the rounds that `SetRound` adds. -/
theorem extend_ends (round r : Int) (count : Nat) (hvs : HeightVoteSet) (height : hvs.height ≠ 0)
    (low : minInt32 ≤ r) (fits : round < maxInt32) (rounds : (count : Int) = round - r + 1) :
    ∃ next, hvs.addRounds r count = .ok next ∧ next.height = hvs.height ∧
      extend round (count + 1) r hvs = .ok (some next) := by
  induction count generalizing r hvs with
  | zero =>
    have beyond : ¬ r ≤ round := by omega
    exact ⟨hvs, rfl, rfl, by simp [extend, beyond]⟩
  | succ count ih =>
  obtain ⟨next, same, step, adds⟩ :=
    extend_step round r (count + 1) height (by omega)
  have plain : nextInt32 r = r + 1 := by
    unfold nextInt32
    unfold maxInt32 at fits
    unfold minInt32 at low
    rw [Int.bmod_eq_of_le] <;> omega
  obtain ⟨final, added, kept, ended⟩ := ih (r + 1) next (by rw [same]; exact height) (by omega)
    (by omega)
  exact ⟨final, (adds r count rfl).trans added, kept.trans same, by rw [step, plain, ended]⟩

/-- What is called on the set. The state machine that enters a round asks for the
next one to be tracked too. -/
inductive Event where
  | newRound (round : Int)
  | addVote (vote : Vote) (peerID : PeerID)
  | setPeerMaj23 (round : Int) (voteType : SignedMsgType) (peerID : PeerID) (blockID : BlockID)

inductive Step (crypto : Crypto) (hvs : HeightVoteSet) : Event → HeightVoteSet → Prop
  | newRound (round : Int) (next : HeightVoteSet) (low : 0 ≤ round)
      (later : hvs.round ≤ round + 1) (fits : round + 1 < maxInt32)
      (set : hvs.setRound (round + 1) = .ok next) : Step crypto hvs (.newRound round) next
  | addVote (vote : Vote) (peerID : PeerID) (result : Added) (next : HeightVoteSet)
      (added : hvs.addVote crypto vote peerID = .ok (result, next)) :
      Step crypto hvs (.addVote vote peerID) next
  | setPeerMaj23 (round : Int) (voteType : SignedMsgType) (peerID : PeerID) (blockID : BlockID) :
      Step crypto hvs (.setPeerMaj23 round voteType peerID blockID)
        (hvs.setPeerMaj23 round voteType peerID blockID)

def Event.record (event : Event) (hvs next : HeightVoteSet) (created : PeerID → List Int) :
    PeerID → List Int :=
  match event with
  | .addVote vote peerID =>
    if (hvs.roundVoteSets vote.round).isNone && (next.roundVoteSets vote.round).isSome then
      Function.update created peerID (created peerID ++ [vote.round])
    else created
  | _ => created

inductive Reached (crypto : Crypto) (start : HeightVoteSet) :
    HeightVoteSet → (PeerID → List Int) → Prop
  | start : Reached crypto start start fun _ => []
  | step {hvs next : HeightVoteSet} {created : PeerID → List Int} {event : Event}
      (reached : Reached crypto start hvs created) (step : Step crypto hvs event next) :
      Reached crypto start next (event.record hvs next created)

def Continues (crypto : Crypto) (before after : VoteSet) : Prop :=
  after = before ∨
    (∃ vote result, before.addVote crypto (some vote) = .ok (result, after)) ∨
    ∃ peerID blockID, after = (before.setPeerMaj23 peerID blockID).2

def Keeps (crypto : Crypto) (before after : HeightVoteSet) : Prop :=
  ∀ round voteType voteSet, before.getVoteSet round voteType = some voteSet →
    ∃ next, after.getVoteSet round voteType = some next ∧ Continues crypto voteSet next ∧
      ∀ vote, voteSet.Counts vote → next.Counts vote

variable {before after : HeightVoteSet} {result : Added} {voteType : SignedMsgType} {event : Event}

theorem Keeps.of_same
    (same : ∀ round voteType voteSet, before.getVoteSet round voteType = some voteSet →
      after.getVoteSet round voteType = some voteSet) : Keeps crypto before after := by
  intro round voteType voteSet found
  exact ⟨voteSet, same round voteType voteSet found, Or.inl rfl, fun _ counts => counts⟩

theorem put_tracked (hvs : HeightVoteSet) (round other : Int) (voteType : SignedMsgType)
    (voteSet : VoteSet) :
    ((hvs.put round voteType voteSet).roundVoteSets other).isSome =
      (hvs.roundVoteSets other).isSome := by
  unfold put
  split
  case h_1 sets present =>
    by_cases same : other = round
    · simp [same, present]
    · simp [same]
  case h_2 sets present =>
    by_cases same : other = round
    · simp [same, present]
    · simp [same]
  case h_3 => rfl

theorem put_frame (hvs : HeightVoteSet) (round : Int) (voteType : SignedMsgType)
    (voteSet : VoteSet) :
    (hvs.put round voteType voteSet).round = hvs.round ∧
      (hvs.put round voteType voteSet).peerCatchupRounds = hvs.peerCatchupRounds := by
  unfold put
  split <;> exact ⟨rfl, rfl⟩

theorem get_vote_set_none (hvs : HeightVoteSet) (round : Int) (voteType : SignedMsgType)
    (valid : isVoteTypeValid voteType = true) :
    hvs.getVoteSet round voteType = none ↔ hvs.roundVoteSets round = none := by
  unfold getVoteSet
  cases tracked : hvs.roundVoteSets round with
  | none => simp
  | some sets => cases voteType <;> simp_all [isVoteTypeValid]

theorem add_vote_inv (added : hvs.addVote crypto vote peerID = .ok (result, next)) :
    (next = hvs ∧ result.added = false) ∨
    ∃ base voteSet outcome after,
      (base = hvs ∨ hvs.roundVoteSets vote.round = none ∧
        (hvs.peerCatchupRounds peerID).length < 2 ∧ ∃ grown,
          hvs.addRound vote.round = .ok grown ∧ base = { grown with
            peerCatchupRounds := Function.update hvs.peerCatchupRounds peerID
              (hvs.peerCatchupRounds peerID ++ [vote.round]) }) ∧
      base.getVoteSet vote.round vote.type = some voteSet ∧
      voteSet.addVote crypto (some vote) = .ok (outcome, after) ∧
      result.added = outcome.added ∧ next = base.put vote.round vote.type after := by
  have stores : ∀ base : HeightVoteSet, base.store crypto vote = .ok (result, next) →
      ∃ voteSet outcome after, base.getVoteSet vote.round vote.type = some voteSet ∧
        voteSet.addVote crypto (some vote) = .ok (outcome, after) ∧
        result.added = outcome.added ∧ next = base.put vote.round vote.type after := by
    intro base stored
    unfold store at stored
    cases present : base.getVoteSet vote.round vote.type with
    | none => simp [present] at stored
    | some voteSet =>
    simp only [present, bind_eq, pure_eq] at stored
    split at stored
    · cases stored
    case h_2 outcome called =>
      cases stored
      exact ⟨voteSet, outcome.1, outcome.2, rfl, called, rfl, rfl⟩
  unfold addVote at added
  split at added
  · cases added
    exact Or.inl ⟨rfl, rfl⟩
  case isFalse valid =>
  split at added
  · obtain ⟨voteSet, outcome, after, found⟩ := stores hvs added
    exact Or.inr ⟨hvs, voteSet, outcome, after, Or.inl rfl, found⟩
  case isFalse missing =>
  split at added
  case isTrue few =>
    cases step : hvs.addRound vote.round with
    | error text => simp [step] at added
    | ok grown =>
    simp only [step, bind_eq] at added
    obtain ⟨voteSet, outcome, after, found⟩ := stores _ added
    have unknown := (hvs.get_vote_set_none vote.round vote.type (not_not.mp valid)).mp
      (by simpa using missing)
    exact Or.inr ⟨_, voteSet, outcome, after, Or.inr ⟨unknown, few, grown, rfl, rfl⟩, found⟩
  case isFalse =>
    cases added
    exact Or.inl ⟨rfl, rfl⟩

structure Grows (before after : HeightVoteSet) (added : Int → Prop) : Prop where
  round : after.round = before.round
  catchup : after.peerCatchupRounds = before.peerCatchupRounds
  subject : after.subject = before.subject
  tracked : ∀ r, (after.roundVoteSets r).isSome = true ↔
    (before.roundVoteSets r).isSome = true ∨ added r
  same : ∀ r voteType voteSet, before.getVoteSet r voteType = some voteSet →
    after.getVoteSet r voteType = some voteSet

theorem grows_add_round (added : hvs.addRound round = .ok next) : Grows hvs next (· = round) := by
  have gets := fun other voteType => get_add_round other voteType added
  obtain ⟨missing, prevotes, precommits, _, _, rfl⟩ := add_round_cases added
  constructor
  · rfl
  · rfl
  · rfl
  · intro r
    by_cases here : r = round
    · simp [here]
    · simp [here]
  · intro r voteType voteSet found
    rcases gets r voteType with same | ⟨_, none, _⟩
    · rw [same, found]
    · rw [none] at found
      cases found

theorem grows_add_rounds {first : Int} {count : Nat}
    (added : hvs.addRounds first count = .ok next) :
    Grows hvs next fun r => first ≤ r ∧ r < first + count := by
  induction count generalizing hvs first with
  | zero =>
    cases added
    refine ⟨rfl, rfl, rfl, ?_, fun _ _ _ found => found⟩
    intro r
    constructor
    · exact Or.inl
    · rintro (present | range)
      · exact present
      · omega
  | succ count ih =>
    -- The first round is there after one step; the rest comes by induction.
    obtain ⟨middle, grown, rest⟩ : ∃ middle,
        Grows hvs middle (fun r => r = first ∧ hvs.roundVoteSets first = none) ∧
          middle.addRounds (first + 1) count = .ok next := by
      cases tracked : hvs.roundVoteSets first with
      | some sets =>
        simp only [addRounds, tracked, Option.isSome_some, if_true, pure_eq, bind_eq] at added
        refine ⟨hvs, ⟨rfl, rfl, rfl, ?_, fun _ _ _ found => found⟩, added⟩
        simp
      | none =>
        simp only [addRounds, tracked, Option.isSome_none, Bool.false_eq_true, if_false,
          bind_eq] at added
        obtain ⟨middle, step, added⟩ := bind_ok.mp added
        have grown := grows_add_round step
        refine ⟨middle, ⟨grown.round, grown.catchup, grown.subject, ?_, grown.same⟩,
          by simpa [step] using added⟩
        intro r
        rw [grown.tracked r]
        simp
    have later := ih rest
    refine ⟨later.round.trans grown.round, later.catchup.trans grown.catchup,
      later.subject.trans grown.subject, ?_, ?_⟩
    · intro r
      rw [later.tracked r, grown.tracked r]
      by_cases here : r = first
      · subst here
        cases tracked : hvs.roundVoteSets r with
        | some sets => simp
        | none => simp
      · simp only [here, false_and, or_false]
        constructor
        · rintro (present | range)
          · exact Or.inl present
          · exact Or.inr (by omega)
        · rintro (present | range)
          · exact Or.inl present
          · exact Or.inr (by omega)
    · intro r voteType voteSet found
      exact later.same r voteType voteSet (grown.same r voteType voteSet found)

theorem set_round_inv (low : 0 ≤ hvs.round) (high : hvs.round ≤ maxInt32)
    (later : hvs.round ≤ round) (set : hvs.setRound round = .ok next) :
    ∃ grown, Grows hvs grown (fun r => hvs.round - 1 ≤ r ∧ r ≤ round) ∧
      next = { grown with round := round } := by
  have sub : safeSubInt32 hvs.round 1 = .ok (hvs.round - 1) := by
    unfold safeSubInt32 minInt32
    rw [if_pos (by omega)]
  unfold setRound at set
  simp only [sub, bind_eq, pure_eq] at set
  rw [if_neg (by omega)] at set
  obtain ⟨grown, added, set⟩ := bind_ok.mp set
  cases set
  have grows := grows_add_rounds added
  refine ⟨grown, ⟨grows.round, grows.catchup, grows.subject, ?_, grows.same⟩, rfl⟩
  intro r
  rw [grows.tracked r]
  constructor
  · rintro (present | range)
    · exact Or.inl present
    · exact Or.inr (by omega)
  · rintro (present | range)
    · exact Or.inl present
    · exact Or.inr (by omega)

theorem set_round_ok (height : hvs.height ≠ 0) (low : 0 ≤ hvs.round) (high : hvs.round ≤ maxInt32)
    (later : hvs.round ≤ round) (fits : round < maxInt32) :
    ∃ next, hvs.setRound round = .ok next := by
  have sub : safeSubInt32 hvs.round 1 = .ok (hvs.round - 1) := by
    unfold safeSubInt32 minInt32
    rw [if_pos (by omega)]
  obtain ⟨grown, added, _⟩ := extend_ends round (hvs.round - 1)
    (round - (hvs.round - 1) + 1).toNat hvs height (by unfold minInt32; omega) fits (by omega)
  unfold setRound
  simp only [sub, bind_eq, pure_eq, added]
  rw [if_neg (by omega)]
  exact ⟨_, rfl⟩

structure Sound (hvs : HeightVoteSet) (created : PeerID → List Int) : Prop where
  height : hvs.height ≠ 0
  wellFormed : hvs.valSet.WellFormed
  tallied : hvs.All fun voteSet => voteSet.Tallied ∧ voteSet.valSet.WellFormed
  low : 0 ≤ hvs.round
  high : hvs.round < maxInt32
  tracked : ∀ r, 0 ≤ r → r ≤ hvs.round → (hvs.roundVoteSets r).isSome = true
  recorded : created = hvs.peerCatchupRounds
  few : ∀ peerID, (hvs.peerCatchupRounds peerID).length ≤ 2
  outside : ∀ r, (hvs.roundVoteSets r).isSome = true → r < -1 ∨ hvs.round < r →
    ∃ peerID, r ∈ hvs.peerCatchupRounds peerID

theorem fresh_tallied (chainID : ChainID) (height : Int) {valSet : ValidatorSet}
    (wellFormed : valSet.WellFormed) (round : Int) (voteType : SignedMsgType) (voteSet : VoteSet)
    (made : VoteSet.new chainID height round voteType valSet = .ok voteSet) :
    voteSet.Tallied ∧ voteSet.valSet.WellFormed := by
  constructor
  · exact VoteSet.tallied_new chainID height round voteType valSet voteSet made
  · have subject := (new_majority made).2
    have sameSet : voteSet.valSet = valSet := congrArg (·.2.2.2.2) subject
    rw [sameSet]
    exact wellFormed

theorem add_vote_tallied {after : VoteSet} {vote : Option Vote} {outcome : VoteSet.Added}
    (tallied : voteSet.Tallied ∧ voteSet.valSet.WellFormed)
    (added : voteSet.addVote crypto vote = .ok (outcome, after)) :
    after.Tallied ∧ after.valSet.WellFormed := by
  have subject := (VoteSet.add_vote_frame crypto voteSet after vote outcome added).1
  have sameSet : after.valSet = voteSet.valSet := congrArg (·.2.2.2.2) subject
  rw [sameSet]
  exact ⟨VoteSet.tallied_add_vote tallied.2 tallied.1 added, tallied.2⟩

theorem set_peer_maj23_tallied (peerID : PeerID) (blockID : BlockID)
    (tallied : voteSet.Tallied ∧ voteSet.valSet.WellFormed) :
    (voteSet.setPeerMaj23 peerID blockID).2.Tallied ∧
      (voteSet.setPeerMaj23 peerID blockID).2.valSet.WellFormed := by
  have subject := (VoteSet.set_peer_maj23_frame voteSet peerID blockID).1
  have sameSet : (voteSet.setPeerMaj23 peerID blockID).2.valSet = voteSet.valSet :=
    congrArg (·.2.2.2.2) subject
  rw [sameSet]
  exact ⟨VoteSet.tallied_set_peer_maj23 peerID blockID tallied.2 tallied.1, tallied.2⟩

theorem Grows.sizes {added : Int → Prop} (grows : Grows before after added) :
    after.height = before.height ∧ after.valSet = before.valSet := by
  have same := grows.subject
  simp only [HeightVoteSet.subject, Prod.mk.injEq] at same
  exact same.2

theorem sound_new (chainID : ChainID) (height : Int) (valSet : ValidatorSet)
    (start : HeightVoteSet) (wellFormed : valSet.WellFormed)
    (made : new chainID height valSet = .ok start) : Sound start fun _ => [] := by
  have grows := grows_add_round made
  obtain ⟨_, prevotes, _, first, _⟩ := add_round_cases made
  have positive : height ≠ 0 := by
    intro zero
    simp [VoteSet.new, zero] at first
  constructor
  · rw [grows.sizes.1]
    exact positive
  · rw [grows.sizes.2]
    exact wellFormed
  · exact (new_all _
      (fresh_tallied chainID height wellFormed) made).2
  · exact Int.le_of_eq grows.round.symm
  · rw [grows.round]
    show (0 : Int) < maxInt32
    decide
  · intro r low high
    rw [grows.round] at high
    exact (grows.tracked r).mpr (Or.inr (Int.le_antisymm high low))
  · rw [grows.catchup]
  · intro peerID
    rw [grows.catchup]
    exact Nat.zero_le _
  · intro r present beyond
    rw [grows.round] at beyond
    rcases (grows.tracked r).mp present with none | zero
    · cases none
    · dsimp only at beyond
      omega

theorem sound_new_round (sound : Sound hvs created) (low : 0 ≤ round)
    (later : hvs.round ≤ round + 1) (fits : round + 1 < maxInt32)
    (set : hvs.setRound (round + 1) = .ok next) : Sound next created := by
  have kept := (set_round_frame _ sound.tallied
    (fresh_tallied hvs.chainID hvs.height sound.wellFormed) set).2
  obtain ⟨grown, grows, rfl⟩ :=
    set_round_inv sound.low (Int.le_of_lt sound.high) later set
  constructor
  · rw [grows.sizes.1]
    exact sound.height
  · rw [grows.sizes.2]
    exact sound.wellFormed
  · exact kept
  · show 0 ≤ round + 1
    omega
  · exact fits
  · intro r inside below
    apply (grows.tracked r).mpr
    by_cases known : r ≤ hvs.round
    · exact Or.inl (sound.tracked r inside known)
    · exact Or.inr ⟨by omega, below⟩
  · rw [grows.catchup]
    exact sound.recorded
  · rw [grows.catchup]
    exact sound.few
  · intro r present beyond
    rw [grows.catchup]
    rcases (grows.tracked r).mp present with old | range
    · refine sound.outside r old ?_
      dsimp only at beyond
      omega
    · have lowest := sound.low
      dsimp only at beyond
      omega

theorem sound_put (sound : Sound hvs created)
    (tallied : (hvs.put round voteType voteSet).All fun voteSet =>
      voteSet.Tallied ∧ voteSet.valSet.WellFormed) :
    Sound (hvs.put round voteType voteSet) created := by
  have subject := put_subject hvs round voteType voteSet
  simp only [HeightVoteSet.subject, Prod.mk.injEq] at subject
  obtain ⟨sameRound, catchup⟩ := put_frame hvs round voteType voteSet
  constructor
  · rw [subject.2.1]
    exact sound.height
  · rw [subject.2.2]
    exact sound.wellFormed
  · exact tallied
  · rw [sameRound]
    exact sound.low
  · rw [sameRound]
    exact sound.high
  · intro r inside below
    rw [sameRound] at below
    rw [put_tracked]
    exact sound.tracked r inside below
  · rw [catchup]
    exact sound.recorded
  · rw [catchup]
    exact sound.few
  · intro r present beyond
    rw [put_tracked] at present
    rw [sameRound] at beyond
    rw [catchup]
    exact sound.outside r present beyond

theorem sound_catchup {grown : HeightVoteSet} (sound : Sound hvs created)
    (few : (hvs.peerCatchupRounds peerID).length < 2) (added : hvs.addRound round = .ok grown) :
    Sound { grown with
        peerCatchupRounds := Function.update hvs.peerCatchupRounds peerID
          (hvs.peerCatchupRounds peerID ++ [round]) }
      (Function.update created peerID (created peerID ++ [round])) := by
  have kept := all_add_round _ sound.tallied
    (fresh_tallied hvs.chainID hvs.height sound.wellFormed) added
  have grows := grows_add_round added
  constructor
  · rw [grows.sizes.1]
    exact sound.height
  · rw [grows.sizes.2]
    exact sound.wellFormed
  · exact kept
  · rw [grows.round]
    exact sound.low
  · rw [grows.round]
    exact sound.high
  · intro r inside below
    rw [grows.round] at below
    exact (grows.tracked r).mpr (Or.inl (sound.tracked r inside below))
  · rw [sound.recorded]
  · intro other
    by_cases own : other = peerID
    · subst own
      simp only [update_self, length_append, length_singleton]
      omega
    · simp only [update_of_ne own]
      exact sound.few other
  · intro r present beyond
    rw [grows.round] at beyond
    rcases (grows.tracked r).mp present with old | here
    · obtain ⟨other, member⟩ := sound.outside r old beyond
      refine ⟨other, ?_⟩
      by_cases own : other = peerID
      · subst own
        simp only [update_self]
        exact mem_append_left _ member
      · simp only [update_of_ne own]
        exact member
    · refine ⟨peerID, ?_⟩
      simp only [update_self]
      exact mem_append_right _ (mem_singleton.mpr here)

theorem sound_step (sound : Sound hvs created) (step : Step crypto hvs event next) :
    Sound next (event.record hvs next created) := by
  cases step with
  | newRound round _ low later fits set =>
    exact sound_new_round sound low later fits set
  | setPeerMaj23 round voteType peerID blockID =>
    have kept := (set_peer_maj23_frame _ hvs round voteType peerID blockID sound.tallied
      fun voteSet tallied => set_peer_maj23_tallied peerID blockID tallied).2
    unfold setPeerMaj23 at kept ⊢
    split
    · exact sound
    case h_2 voteSet present =>
      simp only [present] at kept
      exact sound_put sound kept
  | addVote vote peerID result _ added =>
    have kept := (add_vote_frame _ crypto hvs next vote peerID result sound.tallied
      (fresh_tallied hvs.chainID hvs.height sound.wellFormed)
      (fun voteSet outcome after tallied called =>
        add_vote_tallied tallied called) added).2
    rcases add_vote_inv added with
      ⟨rfl, _⟩ | ⟨base, voteSet, outcome, after, origin, present, called, _, rfl⟩
    · have same : (Event.addVote vote peerID).record next next created = created := by
        unfold Event.record
        cases next.roundVoteSets vote.round <;> simp
      rw [same]
      exact sound
    have tracked : (base.roundVoteSets vote.round).isSome = true := by
      unfold getVoteSet at present
      cases there : base.roundVoteSets vote.round with
      | none => simp [there] at present
      | some sets => rfl
    rcases origin with rfl | ⟨missing, few, grown, step, rfl⟩
    · have same : (Event.addVote vote peerID).record base
          (base.put vote.round vote.type after) created = created := by
        unfold Event.record
        cases there : base.roundVoteSets vote.round with
        | none => simp [there] at tracked
        | some sets => simp [there]
      rw [same]
      exact sound_put sound kept
    · simp only [Event.record, missing, Option.isNone_none, Bool.true_and, put_tracked, tracked,
        if_true]
      exact sound_put (sound_catchup sound few step) kept

theorem sound_reached {start : HeightVoteSet} (sound : Sound start fun _ => [])
    (reached : Reached crypto start hvs created) :
    Sound hvs created := by
  induction reached with
  | start => exact sound
  | step _ step ih => exact sound_step ih step

theorem keeps_put (crypto : Crypto) {after : VoteSet}
    (present : hvs.getVoteSet round voteType = some voteSet)
    (continues : Continues crypto voteSet after)
    (counts : ∀ vote, voteSet.Counts vote → after.Counts vote) :
    Keeps crypto hvs (hvs.put round voteType after) := by
  intro other otherType current found
  rw [get_put other otherType after present]
  by_cases here : other = round ∧ otherType = voteType
  · rw [here.1, here.2, present] at found
    cases found
    exact ⟨after, if_pos here, continues, counts⟩
  · exact ⟨current, by rw [if_neg here, found], Or.inl rfl, fun _ counted => counted⟩

theorem keeps_step (sound : Sound hvs created) (step : Step crypto hvs event next) :
    Keeps crypto hvs next := by
  cases step with
  | newRound round _ low later fits set =>
    obtain ⟨grown, grows, rfl⟩ :=
      set_round_inv sound.low (Int.le_of_lt sound.high) later set
    exact Keeps.of_same grows.same
  | setPeerMaj23 round voteType peerID blockID =>
    unfold setPeerMaj23
    split
    · exact Keeps.of_same fun _ _ _ found => found
    case h_2 voteSet present =>
      exact keeps_put crypto present
        (Or.inr (Or.inr ⟨peerID, blockID, rfl⟩))
        (VoteSet.counts_set_peer_maj23 voteSet peerID blockID)
  | addVote vote peerID result _ added =>
    rcases add_vote_inv added with
      ⟨rfl, _⟩ | ⟨base, voteSet, outcome, after, origin, present, called, _, rfl⟩
    · exact Keeps.of_same fun _ _ _ found => found
    have continues : Continues crypto voteSet after := Or.inr (Or.inl ⟨vote, outcome, called⟩)
    rcases origin with rfl | ⟨missing, _, grown, grew, rfl⟩
    · have tallied := (sound.tallied _ _ voteSet present).1
      exact keeps_put crypto present continues
        (VoteSet.counts_add_vote crypto voteSet after vote outcome tallied called).2
    · have grows := grows_add_round grew
      -- Only the new round is written to, and what was there is in other rounds.
      intro round voteType current found
      have kept := grows.same round voteType current found
      refine ⟨current, ?_, Or.inl rfl, fun _ counted => counted⟩
      rw [get_put round voteType after present]
      rw [if_neg]
      · exact kept
      · rintro ⟨rfl, _⟩
        simp [getVoteSet, missing] at found

theorem added_counts (sound : Sound hvs created)
    (called : hvs.addVote crypto vote peerID = .ok (result, next)) (added : result.added = true) :
    ∃ voteSet, next.getVoteSet vote.round vote.type = some voteSet ∧ voteSet.Counts vote := by
  rcases add_vote_inv called with
    ⟨_, refused⟩ | ⟨base, voteSet, outcome, after, origin, present, stored, same, rfl⟩
  · rw [refused] at added
    cases added
  refine ⟨after, by rw [get_put _ _ after present]; simp, ?_⟩
  have tallied : voteSet.Tallied := by
    rcases origin with rfl | ⟨_, few, grown, grew, rfl⟩
    · exact (sound.tallied _ _ voteSet present).1
    · exact ((sound_catchup sound few grew).tallied _ _ voteSet
        present).1
  exact (VoteSet.counts_add_vote crypto voteSet after vote outcome tallied stored).1
    (same.symm.trans added)

theorem add_vote_panics {text : String} (height : hvs.height ≠ 0)
    (panicked : hvs.addVote crypto vote peerID = .error text) :
    ∃ voteSet : VoteSet, voteSet.addVote crypto (some vote) = .error text := by
  have stores : ∀ base : HeightVoteSet, base.getVoteSet vote.round vote.type ≠ none →
      base.store crypto vote = .error text →
      ∃ voteSet : VoteSet, voteSet.addVote crypto (some vote) = .error text := by
    intro base there stored
    unfold store at stored
    cases present : base.getVoteSet vote.round vote.type with
    | none => exact absurd present there
    | some voteSet =>
    simp only [present, bind_eq, pure_eq] at stored
    split at stored
    case h_1 reason called =>
      cases stored
      exact ⟨voteSet, called⟩
    case h_2 => cases stored
  unfold addVote at panicked
  split at panicked
  · cases panicked
  case isFalse valid =>
  split at panicked
  case isTrue there =>
    exact stores hvs (by intro none; simp [none] at there) panicked
  case isFalse missing =>
  split at panicked
  case isFalse => cases panicked
  case isTrue =>
    have unknown := (hvs.get_vote_set_none vote.round vote.type (not_not.mp valid)).mp
      (by simpa using missing)
    obtain ⟨grown, step, _⟩ := hvs.add_round_ok vote.round height unknown
    have tracked := ((grows_add_round step).tracked vote.round).mpr (Or.inr rfl)
    simp only [step, bind_eq] at panicked
    refine stores _ ?_ panicked
    intro none
    have gone := (get_vote_set_none _ vote.round vote.type (not_not.mp valid)).mp none
    rw [gone] at tracked
    cases tracked

theorem pol_from_spec (hvs : HeightVoteSet) (count : Nat) :
    ((hvs.polFrom count).1 = -1 ∧ ∀ r : Int, 0 ≤ r → r < count → hvs.majority .prevote r = none) ∨
    (0 ≤ (hvs.polFrom count).1 ∧ (hvs.polFrom count).1 < count ∧
      hvs.majority .prevote (hvs.polFrom count).1 = some (hvs.polFrom count).2 ∧
      ∀ r : Int, (hvs.polFrom count).1 < r → r < count → hvs.majority .prevote r = none) := by
  induction count with
  | zero =>
    left
    constructor
    · rfl
    · intro r low high
      omega
  | succ count ih =>
    cases found : hvs.majority .prevote count with
    | some blockID =>
      have here : hvs.polFrom (count + 1) = ((count : Int), blockID) := by
        rw [polFrom, found]
      right
      rw [here]
      refine ⟨by simp, by simp, found, ?_⟩
      omega
    | none =>
      have lower : hvs.polFrom (count + 1) = hvs.polFrom count := by
        rw [polFrom, found]
      rw [lower]
      rcases ih with ⟨missing, none⟩ | ⟨low, high, majority, above⟩
      · left
        refine ⟨missing, ?_⟩
        intro r nonneg inside
        by_cases top : r = count
        · rw [top, found]
        · exact none r nonneg (by omega)
      · right
        refine ⟨low, by omega, majority, ?_⟩
        intro r beyond inside
        by_cases top : r = count
        · rw [top, found]
        · exact above r beyond (by omega)

theorem pol_info_spec (hvs : HeightVoteSet) :
    (hvs.polInfo.1 = -1 ∧ ∀ r, 0 ≤ r → r ≤ hvs.round → hvs.majority .prevote r = none) ∨
    (0 ≤ hvs.polInfo.1 ∧ hvs.polInfo.1 ≤ hvs.round ∧
      hvs.majority .prevote hvs.polInfo.1 = some hvs.polInfo.2 ∧
      ∀ r, hvs.polInfo.1 < r → r ≤ hvs.round → hvs.majority .prevote r = none) := by
  rcases hvs.pol_from_spec (hvs.round + 1).toNat with
    ⟨missing, none⟩ | ⟨low, high, majority, above⟩
  · left
    exact ⟨missing, fun r nonneg inside => none r nonneg (by omega)⟩
  · right
    exact ⟨low, by unfold polInfo; omega, majority,
      fun r beyond inside => above r beyond (by omega)⟩

/-- After any calls: every round up to the current one is tracked; a further call keeps
every vote set with what it counts, and a vote that is added is counted; adding a
round and `SetRound` do not panic, the latter returns below the largest int32 and
goes on without end at it; the votes of a peer have created at most two rounds, and
every other round is one that `SetRound` goes over; and `POLInfo` is the last round with
a majority of prevotes. -/
theorem height_vote_set_rounds (crypto : Crypto) (chainID : ChainID) (height : Int)
    (valSet : ValidatorSet) (start hvs : HeightVoteSet) (created : PeerID → List Int)
    (wellFormed : valSet.WellFormed) (made : new chainID height valSet = .ok start)
    (reached : Reached crypto start hvs created) :
    (∀ r, 0 ≤ r → r ≤ hvs.round → (hvs.roundVoteSets r).isSome = true) ∧
    (∀ event next, Step crypto hvs event next → Keeps crypto hvs next) ∧
    (∀ vote peerID result next, hvs.addVote crypto vote peerID = .ok (result, next) →
      result.added = true → ∃ voteSet, next.getVoteSet vote.round vote.type = some voteSet ∧
        voteSet.Counts vote) ∧
    (∀ r, hvs.roundVoteSets r = none → ∃ next, hvs.addRound r = .ok next) ∧
    (∀ vote peerID text, hvs.addVote crypto vote peerID = .error text →
      ∃ voteSet : VoteSet, voteSet.addVote crypto (some vote) = .error text) ∧
    (∀ round, 0 ≤ round → hvs.round ≤ round + 1 →
      (round + 1 < maxInt32 → ∃ next, hvs.setRound (round + 1) = .ok next) ∧
      (round + 1 = maxInt32 → ∀ fuel, extend (round + 1) fuel (hvs.round - 1) hvs = .ok none)) ∧
    (∀ peerID, (created peerID).length ≤ 2) ∧
    (∀ r, (hvs.roundVoteSets r).isSome = true → r < -1 ∨ hvs.round < r →
      ∃ peerID, r ∈ created peerID) ∧
    ((hvs.polInfo.1 = -1 ∧ ∀ r, 0 ≤ r → r ≤ hvs.round → hvs.majority .prevote r = none) ∨
      (0 ≤ hvs.polInfo.1 ∧ hvs.polInfo.1 ≤ hvs.round ∧
        hvs.majority .prevote hvs.polInfo.1 = some hvs.polInfo.2 ∧
        ∀ r, hvs.polInfo.1 < r → r ≤ hvs.round → hvs.majority .prevote r = none)) := by
  have sound := sound_reached (sound_new chainID height valSet start wellFormed made) reached
  refine ⟨sound.tracked, ?_, ?_, ?_, ?_, ?_, ?_, ?_, hvs.pol_info_spec⟩
  · intro event next step
    exact keeps_step sound step
  · intro vote peerID result next called added
    exact added_counts sound called added
  · intro r missing
    obtain ⟨next, added, _⟩ := hvs.add_round_ok r sound.height missing
    exact ⟨next, added⟩
  · intro vote peerID text panicked
    exact add_vote_panics sound.height panicked
  · intro round low later
    constructor
    · intro fits
      exact set_round_ok sound.height sound.low (Int.le_of_lt sound.high) later fits
    · intro largest fuel
      rw [largest]
      exact extend_forever (hvs.round - 1) fuel hvs sound.height
        (Int.le_trans (by omega) (Int.le_of_lt sound.high))
  · intro peerID
    rw [sound.recorded]
    exact sound.few peerID
  · intro r present beyond
    rw [sound.recorded]
    exact sound.outside r present beyond

def aheadVote : Vote := { VoteSet.soleVote with round := 5 }

theorem ahead_round_created : ∃ start hvs created, new [] 1 VoteSet.soleSet = .ok start ∧
    Reached .acceptAll start hvs created ∧ hvs.round = 1 ∧ created [9] = [5] ∧
    (hvs.roundVoteSets 1).isSome = true ∧ (created [9]).length ≤ 2 ∧
    ∃ next, hvs.setRound (2 + 1) = .ok next := by
  have entering : ∃ start entered result hvs, new [] 1 VoteSet.soleSet = .ok start ∧
      start.setRound 1 = .ok entered ∧
      entered.addVote .acceptAll aheadVote [9] = .ok (result, hvs) ∧ start.round = 0 ∧
      hvs.round = 1 ∧ (entered.roundVoteSets 5).isNone = true ∧
      (hvs.roundVoteSets 5).isSome = true := by
    exact ⟨_, _, _, _, rfl, rfl, rfl, by decide, by decide, by decide, by decide⟩
  obtain ⟨start, entered, result, hvs, made, set, added, first, round, missing, present⟩ := entering
  have begun : Reached .acceptAll start start fun _ => [] := Reached.start
  have reached := Reached.step
    (Reached.step begun
      (Step.newRound 0 entered (by decide) (by rw [first]; decide) (by decide) set))
    (Step.addVote aheadVote [9] result hvs added)
  have facts := height_vote_set_rounds .acceptAll [] 1 VoteSet.soleSet start hvs _
    VoteSet.sole_set_well_formed made reached
  refine ⟨start, hvs, _, made, reached, round, ?_, facts.1 1 (by decide) (by rw [round]),
    facts.2.2.2.2.2.2.1 [9],
      (facts.2.2.2.2.2.1 2 (by decide) (by rw [round]; decide)).1 (by decide)⟩
  have created : aheadVote.round = 5 := rfl
  simp [Event.record, created, missing, present]

end HeightVoteSet

end Tendermint.Consensus
