import Tendermint.Lib.Runs

/-!
internal/statesync/dispatcher.go: the rolling list of peers. A Pop that finds no peer leaves a
channel in `waiting` and selects between it and its context. The channel has room for one peer,
so it is either in `waiting` or holds the peer that an Append took it out for. A Pop whose
context is done goes away and leaves the channel where it is.
-/

namespace Tendermint.StateSync

open List

variable {NodeID : Type} [DecidableEq NodeID]

inductive Waiter where
  | selects
  | left
  deriving DecidableEq

structure PeerList (NodeID : Type) where
  peers : List NodeID
  waiting : List Waiter
  -- the peers in the channels of the Pops that still select
  handed : List NodeID
  appended : List NodeID
  removed : List NodeID
  returned : List NodeID

inductive PeerEvent (NodeID : Type) where
  | append (peer : NodeID)
  | remove (peer : NodeID)
  | pop
  | receive (peer : NodeID)
  /-- The context of the Pop at this place of `waiting` is done. -/
  | cancel (place : Nat)
  /-- The select prefers the context, although the peer is in its channel. -/
  | cancelHanded (peer : NodeID)

namespace PeerList

def new : PeerList NodeID := ⟨[], [], [], [], [], []⟩

def step (l : PeerList NodeID) : PeerEvent NodeID → PeerList NodeID
  | .append peer =>
    match l.waiting with
    | [] => { l with peers := l.peers ++ [peer], appended := peer :: l.appended }
    | .selects :: rest =>
      { l with waiting := rest, handed := peer :: l.handed, appended := peer :: l.appended }
    | .left :: rest => { l with waiting := rest, appended := peer :: l.appended }
  | .remove peer =>
    if peer ∈ l.peers then
      { l with peers := l.peers.erase peer, removed := peer :: l.removed }
    else l
  | .pop =>
    match l.peers with
    | [] => { l with waiting := l.waiting ++ [.selects] }
    | peer :: rest => { l with peers := rest, returned := peer :: l.returned }
  | .receive peer =>
    if peer ∈ l.handed then
      { l with handed := l.handed.erase peer, returned := peer :: l.returned }
    else l
  | .cancel place => { l with waiting := l.waiting.set place .left }
  | .cancelHanded peer => { l with handed := l.handed.erase peer }

/-- Every peer is in the list, removed, returned or on its way to a Pop; and a channel waits
only while the list is empty. -/
structure Conserved (l : PeerList NodeID) : Prop where
  kept : ∀ peer, l.appended.count peer =
    l.peers.count peer + l.removed.count peer + l.returned.count peer + l.handed.count peer
  idle : l.waiting ≠ [] → l.peers = []

def Reads (l : PeerList NodeID) : PeerEvent NodeID → Prop
  | .append _ => l.waiting.head? ≠ some .left
  | .cancelHanded peer => peer ∉ l.handed
  | _ => True

variable {l : PeerList NodeID}

theorem count_erase_add {peers : List NodeID} {peer : NodeID} (member : peer ∈ peers)
    (other : NodeID) : (peers.erase peer).count other + [peer].count other = peers.count other := by
  rw [← count_append]
  exact ((perm_append_singleton peer _).trans (perm_cons_erase member).symm).count_eq other

theorem count_cons_add (peer : NodeID) (peers : List NodeID) (other : NodeID) :
    (peer :: peers).count other = peers.count other + [peer].count other :=
  (perm_append_singleton peer peers).symm.count_eq other |>.trans (count_append ..)

theorem conserved_step_iff (conserved : l.Conserved) (event : PeerEvent NodeID) :
    l.Reads event ↔ (l.step event).Conserved := by
  obtain ⟨kept, idle⟩ := conserved
  cases event with
  | append peer =>
    unfold Reads step
    rcases waits : l.waiting with _ | ⟨_ | _, rest⟩
    · refine iff_of_true (by simp) ⟨fun other => ?_, fun waiting => absurd rfl waiting⟩
      have before := kept other
      simp only [count_cons_add peer l.appended, count_append]
      omega
    · refine iff_of_true (by simp) ⟨fun other => ?_, fun _ => idle (by simp [waits])⟩
      have before := kept other
      simp only [count_cons_add peer l.appended, count_cons_add peer l.handed]
      omega
    · refine iff_of_false (by simp) fun after => ?_
      have before := kept peer
      have now := after.kept peer
      simp only [count_cons_self] at now
      omega
  | remove peer =>
    refine iff_of_true trivial ?_
    rw [step]
    split
    · rename_i member
      refine ⟨fun other => ?_, fun waiting => by rw [idle waiting]; rfl⟩
      have before := kept other
      have fewer := count_erase_add member other
      simp only [count_cons_add peer l.removed]
      omega
    · exact ⟨kept, idle⟩
  | pop =>
    refine iff_of_true trivial ?_
    unfold step
    rcases present : l.peers with _ | ⟨peer, rest⟩
    · exact ⟨fun other => by simpa only [present] using kept other, fun _ => rfl⟩
    · refine ⟨fun other => ?_, fun waiting => ?_⟩
      · have before := kept other
        simp only [present, count_cons_add peer rest, count_cons_add peer l.returned] at before ⊢
        omega
      · simp [idle waiting] at present
  | receive peer =>
    refine iff_of_true trivial ?_
    rw [step]
    split
    · rename_i member
      refine ⟨fun other => ?_, idle⟩
      have before := kept other
      have fewer := count_erase_add member other
      simp only [count_cons_add peer l.returned]
      omega
    · exact ⟨kept, idle⟩
  | cancel place =>
    refine iff_of_true trivial ⟨kept, fun waiting => idle fun none => waiting ?_⟩
    rw [step, none]
    rfl
  | cancelHanded peer =>
    rw [step]
    constructor
    · intro absent
      rw [erase_of_not_mem absent]
      exact ⟨kept, idle⟩
    · intro after member
      have before := kept peer
      have now := after.kept peer
      have fewer := count_erase_add member peer
      rw [count_singleton_self] at fewer
      dsimp only at now
      omega

/-- The list conserves its peers exactly in the runs in which no Append meets the channel of a
Pop that has left, and no Pop leaves its channel with a peer in it. -/
theorem peers_conserved_iff (events : List (PeerEvent NodeID)) :
    Runs.Passes (fun l event => .ok (step l event)) Conserved new events ↔
      Runs.Each (fun l event => .ok (step l event)) Reads new events := by
  refine Runs.passes_iff_each (fun l event conserved => ?_) events
    ⟨fun _ => rfl, fun waiting => absurd rfl waiting⟩
  rw [conserved_step_iff conserved event]
  exact ⟨fun after => ⟨_, rfl, after⟩, fun ⟨_, same, after⟩ => Except.ok.inj same ▸ after⟩

theorem cancelled_pop_takes_peer :
    let l := ([.pop, .cancel 0, .append "peer"] : List (PeerEvent String)).foldl step new
    l.appended = ["peer"] ∧ l.peers = [] ∧ l.removed = [] ∧ l.returned = [] ∧ l.handed = [] := by
  decide

end PeerList

end Tendermint.StateSync
