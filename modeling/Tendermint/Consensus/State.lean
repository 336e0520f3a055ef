import Tendermint.State.Time
import Tendermint.Consensus.HeightVoteSet

/-!
internal/consensus/state.go: the time that a node puts on its votes, and the last
commit that it builds again when it starts. What the node gets from outside (the
clock, the stores) is one record, `Outcomes`. The transitions are left out.
-/

namespace Tendermint.Consensus

open Types

inductive RoundStep where
  | newHeight
  | newRound
  | propose
  | prevote
  | prevoteWait
  | precommit
  | precommitWait
  | commit
  deriving DecidableEq, Repr

structure State where
  height : Int
  round : Int
  proposalBlock : Option Block
  lockedBlock : Option Block

/-- The answers to the calls that leave the node. -/
structure Outcomes where
  /-- The clock where it is read for a height, round and step. -/
  now : Int → Int → RoundStep → Time
  loadSeenCommit : Option Commit
  loadBlockCommit : Int → Option Commit

section Machine

variable (crypto : Crypto) (out : Outcomes)

def voteTime (cs : State) (step : RoundStep) : Time :=
  let now := out.now cs.height cs.round step
  let minVoteTime := match cs.lockedBlock, cs.proposalBlock with
    | some block, _ => block.header.time + 1000000
    | none, some block => block.header.time + 1000000
    | none, none => now
  if minVoteTime < now then now else minVoteTime

def reconstructLastCommit (state : SM.State) : Panics VoteSet := do
  let seen := out.loadSeenCommit.filter fun commit => commit.height == state.lastBlockHeight
  match seen.or (out.loadBlockCommit state.lastBlockHeight) with
  | none =>
    throw s!"failed to reconstruct last commit; commit for height {state.lastBlockHeight} not found"
  | some commit => do
    let lastPrecommits ← commitToVoteSet crypto state.chainID commit state.lastValidators
    if lastPrecommits.hasTwoThirdsMajority then pure lastPrecommits
    else throw "failed to reconstruct last commit; does not have +2/3 maj"

end Machine

end Tendermint.Consensus
