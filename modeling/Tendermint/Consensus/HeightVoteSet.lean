import Tendermint.Types.Tally

/-!
internal/consensus/types/height_vote_set.go: the prevotes and precommits of every
round of one height. A panic inside `AddVote` ends the node, so what it had
changed before the panic is not kept. `SetRound` is for a round below the largest
int32, where the loop of the source ends. The string and JSON forms are left out.
-/

namespace Tendermint.Consensus

open Types

def maxInt32 : Int := 2 ^ 31 - 1

def minInt32 : Int := -2 ^ 31

def safeSubInt32 (a b : Int) : Panics Int :=
  if minInt32 ≤ a - b ∧ a - b ≤ maxInt32 then .ok (a - b) else .error "int32 overflow"

structure RoundVoteSet where
  prevotes : VoteSet
  precommits : VoteSet

structure HeightVoteSet where
  chainID : ChainID
  height : Int
  valSet : ValidatorSet
  round : Int
  roundVoteSets : Int → Option RoundVoteSet
  peerCatchupRounds : PeerID → List Int

namespace HeightVoteSet

def addRound (hvs : HeightVoteSet) (round : Int) : Panics HeightVoteSet := do
  if (hvs.roundVoteSets round).isSome then throw "addRound() for an existing round"
  let prevotes ← VoteSet.new hvs.chainID hvs.height round .prevote hvs.valSet
  let precommits ← VoteSet.new hvs.chainID hvs.height round .precommit hvs.valSet
  pure { hvs with
    roundVoteSets := Function.update hvs.roundVoteSets round (some ⟨prevotes, precommits⟩) }

def new (chainID : ChainID) (height : Int) (valSet : ValidatorSet) : Panics HeightVoteSet :=
  addRound ⟨chainID, height, valSet, 0, fun _ => none, fun _ => []⟩ 0

/-- The loop of `SetRound`: `count` rounds from `first` on, those that exist left alone. -/
def addRounds (hvs : HeightVoteSet) (first : Int) : Nat → Panics HeightVoteSet
  | 0 => .ok hvs
  | count + 1 => do
    let next ← if (hvs.roundVoteSets first).isSome then pure hvs else hvs.addRound first
    next.addRounds (first + 1) count

def setRound (hvs : HeightVoteSet) (round : Int) : Panics HeightVoteSet := do
  let newRound ← safeSubInt32 hvs.round 1
  if hvs.round ≠ 0 ∧ round < newRound then throw "SetRound() must increment hvs.round"
  let next ← hvs.addRounds newRound (round - newRound + 1).toNat
  pure { next with round := round }

/-- The source panics on any other type, which no caller passes. -/
def getVoteSet (hvs : HeightVoteSet) (round : Int) (voteType : SignedMsgType) : Option VoteSet :=
  (hvs.roundVoteSets round).bind fun sets => match voteType with
    | .prevote => some sets.prevotes
    | .precommit => some sets.precommits
    | _ => none

def majority (hvs : HeightVoteSet) (voteType : SignedMsgType) (round : Int) : Option BlockID :=
  (hvs.getVoteSet round voteType).bind (·.twoThirdsMajority)

def put (hvs : HeightVoteSet) (round : Int) (voteType : SignedMsgType) (voteSet : VoteSet) :
    HeightVoteSet :=
  match hvs.roundVoteSets round, voteType with
  | some sets, .prevote => { hvs with
      roundVoteSets := Function.update hvs.roundVoteSets round
        (some { sets with prevotes := voteSet }) }
  | some sets, .precommit => { hvs with
      roundVoteSets := Function.update hvs.roundVoteSets round
        (some { sets with precommits := voteSet }) }
  | _, _ => hvs

inductive AddError where
  | gotVoteFromUnwantedRound
  | vote (error : AddVoteError)
  deriving DecidableEq, Repr

structure Added where
  added : Bool
  error : Option AddError
  deriving DecidableEq, Repr

def store (crypto : Crypto) (hvs : HeightVoteSet) (vote : Vote) : Panics (Added × HeightVoteSet) :=
  match hvs.getVoteSet vote.round vote.type with
  | none => .error "AddVote() on nil VoteSet"
  | some voteSet => do
    let (result, next) ← voteSet.addVote crypto (some vote)
    pure (⟨result.added, result.error.map .vote⟩, hvs.put vote.round vote.type next)

/-- A vote for an untracked round is one of the two catchup rounds of its peer. -/
def addVote (crypto : Crypto) (hvs : HeightVoteSet) (vote : Vote) (peerID : PeerID) :
    Panics (Added × HeightVoteSet) :=
  if ¬ isVoteTypeValid vote.type then .ok (⟨false, none⟩, hvs)
  else if (hvs.getVoteSet vote.round vote.type).isSome then hvs.store crypto vote
  else if (hvs.peerCatchupRounds peerID).length < 2 then do
    let grown ← hvs.addRound vote.round
    store crypto { grown with
      peerCatchupRounds := Function.update hvs.peerCatchupRounds peerID
        (hvs.peerCatchupRounds peerID ++ [vote.round]) } vote
  else .ok (⟨false, some .gotVoteFromUnwantedRound⟩, hvs)

/-- The error text of an invalid type is not modelled; nothing changes then. -/
def setPeerMaj23 (hvs : HeightVoteSet) (round : Int) (voteType : SignedMsgType) (peerID : PeerID)
    (blockID : BlockID) : HeightVoteSet :=
  match hvs.getVoteSet round voteType with
  | none => hvs
  | some voteSet => hvs.put round voteType (voteSet.setPeerMaj23 peerID blockID).2

def polFrom (hvs : HeightVoteSet) : Nat → Int × BlockID
  | 0 => (-1, BlockID.zero)
  | count + 1 =>
    match hvs.majority .prevote count with
    | some polBlockID => (count, polBlockID)
    | none => hvs.polFrom count

def polInfo (hvs : HeightVoteSet) : Int × BlockID := hvs.polFrom (hvs.round + 1).toNat

def subject (hvs : HeightVoteSet) : ChainID × Int × ValidatorSet :=
  (hvs.chainID, hvs.height, hvs.valSet)

def All (property : VoteSet → Prop) (hvs : HeightVoteSet) : Prop :=
  ∀ round voteType voteSet, hvs.getVoteSet round voteType = some voteSet → property voteSet

structure Extends (before after : HeightVoteSet) : Prop where
  subject : after.subject = before.subject
  majority : ∀ voteType round blockID, before.majority voteType round = some blockID →
    after.majority voteType round = some blockID

theorem Extends.refl (hvs : HeightVoteSet) : Extends hvs hvs := ⟨rfl, fun _ _ _ found => found⟩

theorem Extends.trans {first second third : HeightVoteSet} (head : Extends first second)
    (tail : Extends second third) : Extends first third :=
  ⟨tail.subject.trans head.subject,
    fun voteType round blockID found =>
      tail.majority voteType round blockID (head.majority voteType round blockID found)⟩

variable {hvs next : HeightVoteSet} {round : Int}

theorem get_put (other : Int) {voteType : SignedMsgType} (otherType : SignedMsgType)
    {current : VoteSet} (next : VoteSet) (present : hvs.getVoteSet round voteType = some current) :
    (hvs.put round voteType next).getVoteSet other otherType =
      if other = round ∧ otherType = voteType then some next
      else hvs.getVoteSet other otherType := by
  cases tracked : hvs.roundVoteSets round with
  | none => simp [getVoteSet, tracked] at present
  | some sets =>
  by_cases same : other = round
  · subst same
    cases voteType <;> cases otherType <;> simp_all [getVoteSet, put]
  · cases voteType <;> simp_all [getVoteSet, put]

theorem put_subject (hvs : HeightVoteSet) (round : Int) (voteType : SignedMsgType)
    (next : VoteSet) : (hvs.put round voteType next).subject = hvs.subject := by
  unfold put
  split <;> rfl

theorem add_round_cases (added : hvs.addRound round = .ok next) :
    hvs.roundVoteSets round = none ∧ ∃ prevotes precommits,
      VoteSet.new hvs.chainID hvs.height round .prevote hvs.valSet = .ok prevotes ∧
      VoteSet.new hvs.chainID hvs.height round .precommit hvs.valSet = .ok precommits ∧
      next = { hvs with
        roundVoteSets := Function.update hvs.roundVoteSets round
          (some ⟨prevotes, precommits⟩) } := by
  unfold addRound at added
  simp only [bind_eq, pure_eq] at added
  split at added
  · cases added
  rename_i missing
  cases first : VoteSet.new hvs.chainID hvs.height round .prevote hvs.valSet with
  | error text => simp [first] at added
  | ok prevotes =>
  cases second : VoteSet.new hvs.chainID hvs.height round .precommit hvs.valSet with
  | error text => simp [first, second] at added
  | ok precommits =>
    simp only [first, second] at added
    cases added
    exact ⟨by simpa using missing, prevotes, precommits, rfl, rfl, rfl⟩

theorem new_majority {chainID : ChainID} {height : Int} {voteType : SignedMsgType}
    {valSet : ValidatorSet} {voteSet : VoteSet}
    (made : VoteSet.new chainID height round voteType valSet = .ok voteSet) :
    voteSet.maj23 = none ∧ voteSet.subject = (chainID, height, round, voteType, valSet) := by
  refine ⟨?_, VoteSet.new_subject made⟩
  unfold VoteSet.new at made
  split at made <;> cases made
  rfl

theorem get_add_round (other : Int) (voteType : SignedMsgType)
    (added : hvs.addRound round = .ok next) :
    next.getVoteSet other voteType = hvs.getVoteSet other voteType ∨
      (other = round ∧ hvs.getVoteSet other voteType = none ∧
        ∃ fresh, VoteSet.new hvs.chainID hvs.height round voteType hvs.valSet = .ok fresh ∧
          next.getVoteSet other voteType = some fresh) := by
  obtain ⟨missing, prevotes, precommits, first, second, rfl⟩ := add_round_cases added
  by_cases same : other = round
  · subst same
    cases voteType with
    | prevote => exact Or.inr ⟨rfl, by simp [getVoteSet, missing], prevotes, first,
        by simp [getVoteSet]⟩
    | precommit => exact Or.inr ⟨rfl, by simp [getVoteSet, missing], precommits, second,
        by simp [getVoteSet]⟩
    | unknown => exact Or.inl (by simp [getVoteSet, missing])
    | proposal => exact Or.inl (by simp [getVoteSet, missing])
  · exact Or.inl (by simp [getVoteSet, same])

theorem extends_add_round (added : hvs.addRound round = .ok next) : Extends hvs next := by
  constructor
  · obtain ⟨_, prevotes, precommits, _, _, rfl⟩ := add_round_cases added
    rfl
  · intro voteType other blockID found
    rcases get_add_round other voteType added with same | ⟨_, missing, _⟩
    · rw [majority, same]
      exact found
    · rw [majority, missing] at found
      cases found

section

variable (property : VoteSet → Prop)

variable {hvs next : HeightVoteSet}

theorem all_add_round {round : Int} (all : hvs.All property)
    (fresh : ∀ round voteType voteSet, VoteSet.new hvs.chainID hvs.height round voteType
      hvs.valSet = .ok voteSet → property voteSet)
    (added : hvs.addRound round = .ok next) : next.All property := by
  intro other voteType voteSet found
  rcases get_add_round other voteType added with same | ⟨_, _, made, new, there⟩
  · rw [same] at found
    exact all other voteType voteSet found
  · rw [there] at found
    cases found
    exact fresh round voteType voteSet new

theorem add_rounds_frame {first : Int} {count : Nat} (all : hvs.All property)
    (fresh : ∀ round voteType voteSet, VoteSet.new hvs.chainID hvs.height round voteType
      hvs.valSet = .ok voteSet → property voteSet)
    (added : hvs.addRounds first count = .ok next) : Extends hvs next ∧ next.All property := by
  induction count generalizing hvs first with
  | zero =>
    obtain rfl : hvs = next := Except.ok.inj added
    exact ⟨Extends.refl hvs, all⟩
  | succ count ih =>
  by_cases exist : (hvs.roundVoteSets first).isSome = true
  · simp only [addRounds, exist, if_true, bind_eq, pure_eq] at added
    exact ih all fresh added
  · simp only [addRounds, exist, bind_eq] at added
    obtain ⟨middle, step, added⟩ := bind_ok.mp added
    have grown := extends_add_round step
    have kept := all_add_round property all fresh step
    have same := grown.subject
    simp only [subject, Prod.mk.injEq] at same
    obtain ⟨rest, final⟩ := ih kept
      (by rw [same.1, same.2.1, same.2.2]; exact fresh) (by simpa [step] using added)
    exact ⟨grown.trans rest, final⟩

theorem set_round_frame {round : Int} (all : hvs.All property)
    (fresh : ∀ round voteType voteSet, VoteSet.new hvs.chainID hvs.height round voteType
      hvs.valSet = .ok voteSet → property voteSet)
    (set : hvs.setRound round = .ok next) : Extends hvs next ∧ next.All property := by
  unfold setRound at set
  simp only [bind_eq, pure_eq] at set
  split at set
  · cases set
  split at set
  · cases set
  split at set
  · cases set
  rename_i grown added
  cases set
  obtain ⟨extended, kept⟩ := add_rounds_frame property all fresh added
  exact ⟨⟨extended.subject, extended.majority⟩, kept⟩

theorem store_frame {crypto : Crypto} {vote : Vote} {result : Added} (all : hvs.All property)
    (keeps : ∀ voteSet outcome after, property voteSet → voteSet.addVote crypto (some vote) =
      .ok (outcome, after) → property after)
    (stored : hvs.store crypto vote = .ok (result, next)) :
    Extends hvs next ∧ next.All property := by
  unfold store at stored
  cases present : hvs.getVoteSet vote.round vote.type with
  | none => simp [present] at stored
  | some voteSet =>
  simp only [present, bind_eq, pure_eq] at stored
  split at stored
  · cases stored
  rename_i outcome added
  cases stored
  obtain ⟨subject, kept⟩ :=
    VoteSet.add_vote_frame crypto voteSet outcome.2 (some vote) outcome.1 added
  constructor
  · constructor
    · exact put_subject hvs vote.round vote.type outcome.2
    · intro voteType round blockID found
      rw [majority, get_put round voteType outcome.2 present]
      split
      · rename_i here
        rw [majority, here.1, here.2, present] at found
        exact kept blockID found
      · exact found
  · intro round voteType other found
    rw [get_put round voteType outcome.2 present] at found
    split at found
    · cases found
      exact keeps voteSet outcome.1 outcome.2 (all _ _ _ present) added
    · exact all round voteType other found

theorem add_vote_frame (crypto : Crypto) (hvs next : HeightVoteSet) (vote : Vote)
    (peerID : PeerID) (result : Added) (all : hvs.All property)
    (fresh : ∀ round voteType voteSet, VoteSet.new hvs.chainID hvs.height round voteType
      hvs.valSet = .ok voteSet → property voteSet)
    (keeps : ∀ voteSet outcome after, property voteSet → voteSet.addVote crypto (some vote) =
      .ok (outcome, after) → property after)
    (added : hvs.addVote crypto vote peerID = .ok (result, next)) :
    Extends hvs next ∧ next.All property := by
  unfold addVote at added
  split at added
  · cases added
    exact ⟨Extends.refl hvs, all⟩
  split at added
  · exact store_frame property all keeps added
  split at added
  · simp only [bind_eq] at added
    split at added
    · cases added
    rename_i grown step
    have extended := extends_add_round step
    have kept := all_add_round property all fresh step
    have noted : All property { grown with
        peerCatchupRounds := Function.update hvs.peerCatchupRounds peerID
          (hvs.peerCatchupRounds peerID ++ [vote.round]) } := kept
    obtain ⟨rest, final⟩ := store_frame property noted keeps added
    exact ⟨extended.trans ⟨rest.subject, rest.majority⟩, final⟩
  · cases added
    exact ⟨Extends.refl hvs, all⟩

theorem set_peer_maj23_frame (hvs : HeightVoteSet) (round : Int) (voteType : SignedMsgType)
    (peerID : PeerID) (blockID : BlockID) (all : hvs.All property)
    (keeps : ∀ voteSet, property voteSet → property (voteSet.setPeerMaj23 peerID blockID).2) :
    Extends hvs (hvs.setPeerMaj23 round voteType peerID blockID) ∧
      (hvs.setPeerMaj23 round voteType peerID blockID).All property := by
  unfold setPeerMaj23
  cases present : hvs.getVoteSet round voteType with
  | none => exact ⟨Extends.refl hvs, all⟩
  | some voteSet =>
  have frame := VoteSet.set_peer_maj23_frame voteSet peerID blockID
  constructor
  · constructor
    · exact put_subject hvs round voteType _
    · intro otherType other found known
      rw [majority, get_put other otherType _ present]
      split
      · rename_i here
        rw [majority, here.1, here.2, present] at known
        exact frame.2.trans known
      · exact known
  · intro other otherType set found
    rw [get_put other otherType _ present] at found
    split at found
    · cases found
      exact keeps voteSet (all _ _ _ present)
    · exact all other otherType set found

theorem new_all {chainID : ChainID} {height : Int} {valSet : ValidatorSet}
    (fresh : ∀ round voteType voteSet, VoteSet.new chainID height round voteType valSet =
      .ok voteSet → property voteSet)
    (made : new chainID height valSet = .ok hvs) :
    hvs.subject = (chainID, height, valSet) ∧ hvs.All property := by
  constructor
  · exact (extends_add_round made).subject
  · refine all_add_round property ?_ fresh made
    intro round voteType voteSet found
    simp [getVoteSet] at found

end

end HeightVoteSet

end Tendermint.Consensus
