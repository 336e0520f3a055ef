import Tendermint.Lib.Database
import Tendermint.Lib.NestedMap
import Tendermint.Lib.Runs
import Tendermint.Types.Block

/-!
internal/blocksync/v0/pool.go: the peers that a syncing node asks for blocks, and the
requesters that ask them. A requester that has no peer has none instead of the empty
node ID. What a peer's timer and monitor report comes from outside. Requests and
errors that the pool sends, and the rate of the sync, are left out.
-/

namespace Tendermint.BlockSync

open Types List

def maxPendingRequestsPerPeer : Int := 20

structure BpPeer where
  didTimeout : Bool
  numPending : Int
  height : Int
  base : Int
  /-- The monitor and the timer were made. -/
  watched : Bool
  deriving DecidableEq

structure BpRequester (ν : Type) where
  peerID : Option ν
  block : Option Block
  redoCh : Option ν

structure BlockPool (ν : Type) where
  requesters : List (Int × BpRequester ν)
  height : Int
  peers : AList fun _ : ν => BpPeer
  maxPeerHeight : Int
  numPending : Int

def BpPeer.incrPending (peer : BpPeer) : BpPeer :=
  { peer with numPending := peer.numPending + 1, watched := peer.watched || peer.numPending == 0 }

def BpPeer.decrPending (peer : BpPeer) : Panics BpPeer :=
  if peer.watched then .ok { peer with numPending := peer.numPending - 1 }
  else .error "nil pointer dereference"

/-- Nonblocking: nothing happens if another redo was already requested. -/
def BpRequester.redo {ν : Type} (requester : BpRequester ν) (peerID : ν) : BpRequester ν :=
  { requester with redoCh := requester.redoCh <|> some peerID }

namespace BlockPool

variable {ν : Type} [DecidableEq ν]

def new (start : Int) : BlockPool ν := ⟨[], start, ∅, 0, 0⟩

def isCaughtUp (pool : BlockPool ν) : Bool :=
  if pool.peers.entries = [] then false else decide (pool.maxPeerHeight - 1 ≤ pool.height)

def updateMaxPeerHeight (pool : BlockPool ν) : BlockPool ν :=
  { pool with
    maxPeerHeight := pool.peers.entries.foldl
      (fun max entry => if max < entry.2.height then entry.2.height else max) 0 }

def setPeerRange (pool : BlockPool ν) (peerID : ν) (base height : Int) : BlockPool ν :=
  let peer :=
    match pool.peers.lookup peerID with
    | some peer => { peer with base, height }
    | none => ⟨false, 0, height, base, false⟩
  { pool with
    peers := pool.peers.insert peerID peer
    maxPeerHeight := if pool.maxPeerHeight < height then height else pool.maxPeerHeight }

def redoRequests (pool : BlockPool ν) (peerID : ν) : BlockPool ν :=
  { pool with
    requesters := pool.requesters.map fun entry =>
      (entry.1, if entry.2.peerID = some peerID then entry.2.redo peerID else entry.2) }

def removePeer (pool : BlockPool ν) (peerID : ν) : BlockPool ν :=
  let pool := pool.redoRequests peerID
  match pool.peers.lookup peerID with
  | none => pool
  | some peer =>
    let pool := { pool with peers := pool.peers.erase peerID }
    if peer.height = pool.maxPeerHeight then pool.updateMaxPeerHeight else pool

def redoRequest (pool : BlockPool ν) (height : Int) : Panics (BlockPool ν) :=
  match Database.get pool.requesters height with
  | none => .error "nil pointer dereference"
  | some request =>
    match request.peerID with
    | some peerID => .ok (pool.removePeer peerID)
    | none => .ok pool

def pickFrom (height : Int) : List ν → BlockPool ν → BlockPool ν × Option ν
  | [], pool => (pool, none)
  | peerID :: rest, pool =>
    match pool.peers.lookup peerID with
    | none => pickFrom height rest pool
    | some peer =>
      if peer.didTimeout then pickFrom height rest (pool.removePeer peerID)
      else if maxPendingRequestsPerPeer ≤ peer.numPending then pickFrom height rest pool
      else if height < peer.base ∨ peer.height < height then pickFrom height rest pool
      else ({ pool with peers := pool.peers.insert peerID peer.incrPending }, some peerID)

def pickIncrAvailablePeer (pool : BlockPool ν) (height : Int) (order : Iteration ν) :
    BlockPool ν × Option ν :=
  pickFrom height (order.walk pool.peers.keys) pool

def setRequester (pool : BlockPool ν) (height : Int) (requester : BpRequester ν) : BlockPool ν :=
  { pool with requesters := Database.set pool.requesters height requester }

def pickPeer (pool : BlockPool ν) (height : Int) (order : Iteration ν) : BlockPool ν :=
  match Database.get pool.requesters height with
  | none => pool
  | some requester =>
    if requester.peerID.isSome then pool
    else
      let picked := pool.pickIncrAvailablePeer height order
      match Database.get picked.1.requesters height with
      | none => picked.1
      | some requester => picked.1.setRequester height { requester with peerID := picked.2 }

def handleRedo (pool : BlockPool ν) (height : Int) : BlockPool ν :=
  match Database.get pool.requesters height with
  | none => pool
  | some requester =>
    match requester.redoCh with
    | none => pool
    | some peerID =>
      if requester.peerID = some peerID then
        { pool.setRequester height ⟨none, none, none⟩ with
          numPending := if requester.block.isSome then pool.numPending + 1
            else pool.numPending }
      else pool.setRequester height { requester with redoCh := none }

def onTimeout (pool : BlockPool ν) (peerID : ν) : BlockPool ν :=
  match pool.peers.lookup peerID with
  | none => pool
  | some peer => { pool with peers := pool.peers.insert peerID { peer with didTimeout := true } }

/-- The loop of removeTimedoutPeers; `slow` are the peers with a low receive rate. -/
def removeTimedoutFrom (slow : ν → Bool) : List ν → BlockPool ν → BlockPool ν
  | [], pool => pool
  | peerID :: rest, pool =>
    match pool.peers.lookup peerID with
    | none => removeTimedoutFrom slow rest pool
    | some peer =>
      if peer.didTimeout ∨ (0 < peer.numPending ∧ slow peerID) then
        removeTimedoutFrom slow rest (pool.removePeer peerID)
      else removeTimedoutFrom slow rest pool

def makeNextRequester (pool : BlockPool ν) : BlockPool ν :=
  let nextHeight := pool.height + pool.requesters.length
  if pool.maxPeerHeight < nextHeight then pool
  else { pool.setRequester nextHeight ⟨none, none, none⟩ with numPending := pool.numPending + 1 }

def addBlock (pool : BlockPool ν) (peerID : ν) (block : Block) : Panics (BlockPool ν) :=
  match Database.get pool.requesters block.header.height with
  | none => .ok pool
  | some requester =>
    if requester.block.isSome ∨ requester.peerID ≠ some peerID then .ok pool
    else
      let pool := pool.setRequester block.header.height { requester with block := some block }
      let pool := { pool with numPending := pool.numPending - 1 }
      match pool.peers.lookup peerID with
      | none => .ok pool
      | some peer => do
        let peer ← peer.decrPending
        return { pool with peers := pool.peers.insert peerID peer }

def popRequest (pool : BlockPool ν) : Panics (BlockPool ν) :=
  match Database.get pool.requesters pool.height with
  | none => .error ("Expected requester to pop, got nothing at height " ++ toString pool.height)
  | some _ => .ok
      { pool with
        requesters := pool.requesters.filter (·.1 ≠ pool.height)
        height := pool.height + 1 }

inductive Event (ν : Type) where
  | setPeerRange (peerID : ν) (base height : Int)
  | removePeer (peerID : ν)
  | redoRequest (height : Int)
  | pickPeer (height : Int) (order : Iteration ν)
  | handleRedo (height : Int)
  | onTimeout (peerID : ν)
  | removeTimedoutPeers (slow : ν → Bool) (order : Iteration ν)
  | makeNextRequester
  | addBlock (peerID : ν) (block : Block)
  | popRequest

def step (pool : BlockPool ν) : Event ν → Panics (BlockPool ν)
  | .setPeerRange peerID base height => .ok (pool.setPeerRange peerID base height)
  | .removePeer peerID => .ok (pool.removePeer peerID)
  | .redoRequest height => pool.redoRequest height
  | .pickPeer height order => .ok (pool.pickPeer height order)
  | .handleRedo height => .ok (pool.handleRedo height)
  | .onTimeout peerID => .ok (pool.onTimeout peerID)
  | .removeTimedoutPeers slow order =>
    .ok (removeTimedoutFrom slow (order.walk pool.peers.keys) pool)
  | .makeNextRequester => .ok pool.makeNextRequester
  | .addBlock peerID block => pool.addBlock peerID block
  | .popRequest => pool.popRequest

/-! ### The target height -/

def Reports (pool : BlockPool ν) (peerID : ν) (height : Int) : Prop :=
  ∃ peer, pool.peers.lookup peerID = some peer ∧ peer.height = height

def TargetHeight (pool : BlockPool ν) : Prop :=
  (pool.peers.entries = [] ∧ pool.maxPeerHeight = 0) ∨
    IsGreatest { height | ∃ peerID, pool.Reports peerID height } pool.maxPeerHeight

/-- A report that the cached maximum follows: it is not below it, or another peer holds it. -/
def Covered (pool : BlockPool ν) : Event ν → Prop
  | .setPeerRange peerID _ height => pool.maxPeerHeight ≤ height ∨
      ∃ other reported, other ≠ peerID ∧ pool.Reports other reported ∧ pool.maxPeerHeight ≤ reported
  | _ => True

def Event.Valid : Event ν → Prop
  | .setPeerRange _ _ height => 0 ≤ height
  | _ => True

theorem reported_iff (pool : BlockPool ν) (height : Int) :
    (∃ peerID, pool.Reports peerID height) ↔
      ∃ entry ∈ pool.peers.entries, entry.2.height = height := by
  constructor
  · rintro ⟨peerID, peer, found, same⟩
    exact ⟨⟨peerID, peer⟩, AList.mem_lookup_iff.mp found, same⟩
  · rintro ⟨⟨peerID, peer⟩, member, same⟩
    exact ⟨peerID, peer, AList.mem_lookup_iff.mpr member, same⟩

theorem no_peers_iff (pool : BlockPool ν) :
    pool.peers.entries = [] ↔ ∀ peerID height, ¬pool.Reports peerID height := by
  constructor
  · intro none peerID height reports
    obtain ⟨entry, member, _⟩ := (pool.reported_iff height).mp ⟨peerID, reports⟩
    rw [none] at member
    exact absurd member not_mem_nil
  · intro silent
    by_contra some
    obtain ⟨entry, member⟩ := exists_mem_of_ne_nil _ some
    obtain ⟨peerID, reports⟩ := (pool.reported_iff entry.2.height).mpr ⟨entry, member, rfl⟩
    exact silent peerID _ reports

structure SameReports (pool next : BlockPool ν) : Prop where
  reports : ∀ peerID height, next.Reports peerID height ↔ pool.Reports peerID height
  max : next.maxPeerHeight = pool.maxPeerHeight

def NonNegative (pool : BlockPool ν) : Prop :=
  ∀ peerID height, pool.Reports peerID height → 0 ≤ height

structure Keeps (pool next : BlockPool ν) : Prop where
  nonNegative : pool.NonNegative → next.NonNegative
  target : pool.NonNegative → pool.TargetHeight → next.TargetHeight

theorem Keeps.refl (pool : BlockPool ν) : pool.Keeps pool := ⟨id, fun _ => id⟩

variable {pool next : BlockPool ν}

theorem Keeps.trans {middle : BlockPool ν} (first : pool.Keeps middle)
    (second : middle.Keeps next) : pool.Keeps next where
  nonNegative := second.nonNegative ∘ first.nonNegative
  target nonNegative target :=
    second.target (first.nonNegative nonNegative) (first.target nonNegative target)

theorem SameReports.keeps (same : pool.SameReports next) :
    pool.Keeps next where
  nonNegative nonNegative peerID height reports :=
    nonNegative peerID height ((same.reports peerID height).mp reports)
  target _ target := by
    unfold TargetHeight
    rw [no_peers_iff, same.max]
    simp only [same.reports]
    rw [← no_peers_iff]
    exact target

theorem keeps_of_eq (peers : next.peers = pool.peers)
    (max : next.maxPeerHeight = pool.maxPeerHeight) : pool.Keeps next :=
  SameReports.keeps ⟨fun peerID height => by unfold Reports; rw [peers], max⟩

theorem reports_insert (pool : BlockPool ν) (peerID other : ν) (peer : BpPeer) (max height : Int) :
    Reports { pool with
      peers := pool.peers.insert peerID peer, maxPeerHeight := max } other height ↔
      (other = peerID ∧ peer.height = height) ∨ (other ≠ peerID ∧ pool.Reports other height) := by
  unfold Reports
  by_cases same : other = peerID
  · subst same
    simp [AList.lookup_insert]
  · simp [AList.lookup_insert_ne same, same]

theorem keeps_insert {peerID : ν} {peer changed : BpPeer}
    (found : pool.peers.lookup peerID = some peer)
    (peers : next.peers = pool.peers.insert peerID changed) (same : changed.height = peer.height)
    (max : next.maxPeerHeight = pool.maxPeerHeight) : pool.Keeps next := by
  refine SameReports.keeps ⟨fun other height => ?_, max⟩
  have stored := reports_insert pool peerID other changed pool.maxPeerHeight height
  unfold Reports at stored ⊢
  rw [peers]
  by_cases here : other = peerID
  · subst here
    simp [found, same]
  · simp [here]

omit [DecidableEq ν] in
theorem fold_greatest (entries : List (Sigma fun _ : ν => BpPeer)) (start : Int) :
    IsGreatest { height | height = start ∨ ∃ entry ∈ entries, entry.2.height = height }
      (entries.foldl (fun max entry => if max < entry.2.height then entry.2.height else max)
        start) := by
  induction entries generalizing start with
  | nil => simp [IsGreatest, upperBounds]
  | cons entry rest ih =>
  rw [foldl_cons]
  obtain ⟨member, upper⟩ := ih (if start < entry.2.height then entry.2.height else start)
  constructor
  · rcases member with same | ⟨other, inside, same⟩
    · rw [Set.mem_ofPred_eq, same]
      split
      · exact .inr ⟨entry, mem_cons_self, rfl⟩
      · exact .inl rfl
    · exact .inr ⟨other, mem_cons_of_mem _ inside, same⟩
  · have first := upper (.inl rfl)
    have both : start ≤ (if start < entry.2.height then entry.2.height else start) ∧
        entry.2.height ≤ (if start < entry.2.height then entry.2.height else start) := by
      split <;> omega
    rintro height (rfl | ⟨other, inside, rfl⟩)
    · exact both.1.trans first
    · rcases mem_cons.mp inside with rfl | later
      · exact both.2.trans first
      · exact upper (.inr ⟨other, later, rfl⟩)

theorem update_max_target (pool : BlockPool ν) (nonNegative : pool.NonNegative) :
    pool.updateMaxPeerHeight.TargetHeight := by
  obtain ⟨member, upper⟩ := fold_greatest pool.peers.entries 0
  by_cases empty : pool.peers.entries = []
  · left
    refine ⟨empty, ?_⟩
    show pool.peers.entries.foldl _ 0 = 0
    rw [empty]
    rfl
  · right
    have reports : ∀ height, (∃ peerID, pool.updateMaxPeerHeight.Reports peerID height) ↔
        ∃ entry ∈ pool.peers.entries, entry.2.height = height :=
      pool.updateMaxPeerHeight.reported_iff
    constructor
    · rw [Set.mem_ofPred_eq, reports]
      rcases member with zero | present
      · -- no height is above the start of the loop, so any peer is at it
        obtain ⟨entry, inside⟩ := exists_mem_of_ne_nil _ empty
        obtain ⟨peerID, reported⟩ := (pool.reported_iff _).mpr ⟨entry, inside, rfl⟩
        have low := nonNegative peerID _ reported
        have high := upper (.inr ⟨entry, inside, rfl⟩)
        exact ⟨entry, inside, le_antisymm high (zero.trans_le low)⟩
      · exact present
    · intro height reported
      exact upper (.inr ((reports height).mp reported))

theorem remove_peer_keeps (pool : BlockPool ν) (peerID : ν) :
    pool.Keeps (pool.removePeer peerID) := by
  have redone : pool.Keeps (pool.redoRequests peerID) := keeps_of_eq rfl rfl
  refine redone.trans ?_
  unfold removePeer
  generalize pool.redoRequests peerID = pool
  dsimp only
  split
  · exact Keeps.refl pool
  rename_i peer found
  have erased : ∀ other height, Reports { pool with peers := pool.peers.erase peerID }
      other height ↔ other ≠ peerID ∧ pool.Reports other height := by
    intro other height
    unfold Reports
    by_cases same : other = peerID
    · subst same
      simp [AList.lookup_erase]
    · simp [AList.lookup_erase_ne same, same]
  have less : pool.NonNegative → NonNegative { pool with peers := pool.peers.erase peerID } :=
    fun nonNegative other height reports =>
      nonNegative other height ((erased other height).mp reports).2
  split
  · exact ⟨less, fun nonNegative _ => update_max_target _ (less nonNegative)⟩
  · rename_i other
    refine ⟨less, fun _ target => ?_⟩
    rcases target with ⟨empty, _⟩ | ⟨⟨holder, holds⟩, upper⟩
    · exact absurd ⟨peer, found, rfl⟩ ((no_peers_iff pool).mp empty peerID peer.height)
    · right
      refine ⟨⟨holder, (erased holder _).mpr ⟨fun same => other ?_, holds⟩⟩, ?_⟩
      · subst same
        obtain ⟨stored, lookup, height⟩ := holds
        rw [found] at lookup
        cases lookup
        exact height
      · rintro height ⟨left, reports⟩
        exact upper ⟨left, ((erased left height).mp reports).2⟩

theorem pick_from_keeps (height : Int) (order : List ν) (pool : BlockPool ν) :
    pool.Keeps (pickFrom height order pool).1 := by
  induction order generalizing pool with
  | nil => exact Keeps.refl pool
  | cons peerID rest ih =>
  rw [pickFrom]
  split
  · exact ih pool
  rename_i peer found
  split
  · exact (pool.remove_peer_keeps peerID).trans (ih _)
  split
  · exact ih pool
  split
  · exact ih pool
  · exact keeps_insert found rfl rfl rfl

theorem remove_timedout_keeps (slow : ν → Bool) (order : List ν) (pool : BlockPool ν) :
    pool.Keeps (removeTimedoutFrom slow order pool) := by
  induction order generalizing pool with
  | nil => exact Keeps.refl pool
  | cons peerID rest ih =>
  rw [removeTimedoutFrom]
  split
  · exact ih pool
  split
  · exact (pool.remove_peer_keeps peerID).trans (ih _)
  · exact ih pool

theorem pick_peer_keeps (pool : BlockPool ν) (height : Int) (order : Iteration ν) :
    pool.Keeps (pool.pickPeer height order) := by
  have picked : pool.Keeps (pool.pickIncrAvailablePeer height order).1 :=
    pick_from_keeps height _ pool
  unfold pickPeer
  split
  · exact Keeps.refl pool
  split
  · exact Keeps.refl pool
  dsimp only
  split
  · exact picked
  · exact picked.trans (keeps_of_eq rfl rfl)

theorem add_block_keeps {peerID : ν} {block : Block}
    (added : pool.addBlock peerID block = .ok next) : pool.Keeps next := by
  unfold addBlock at added
  split at added
  · cases added
    exact Keeps.refl pool
  split at added
  · cases added
    exact Keeps.refl pool
  dsimp only at added
  split at added
  · cases added
    exact keeps_of_eq rfl rfl
  · rename_i peer found
    unfold BpPeer.decrPending at added
    split at added
    · cases added
      exact keeps_insert found rfl rfl rfl
    · cases added

theorem step_keeps (event : Event ν) (stepped : pool.step event = .ok next)
    (silent : ∀ peerID base height, event ≠ .setPeerRange peerID base height) :
    pool.Keeps next := by
  cases event with
  | setPeerRange peerID base height => exact absurd rfl (silent peerID base height)
  | removePeer peerID =>
    cases stepped
    exact pool.remove_peer_keeps peerID
  | redoRequest height =>
    simp only [step, redoRequest] at stepped
    split at stepped
    · cases stepped
    split at stepped
    · cases stepped
      exact pool.remove_peer_keeps _
    · cases stepped
      exact Keeps.refl pool
  | pickPeer height order =>
    cases stepped
    exact pool.pick_peer_keeps height order
  | handleRedo height =>
    cases stepped
    unfold handleRedo
    split
    · exact Keeps.refl pool
    split
    · exact Keeps.refl pool
    split
    · exact keeps_of_eq rfl rfl
    · exact keeps_of_eq rfl rfl
  | onTimeout peerID =>
    cases stepped
    unfold onTimeout
    split
    · exact Keeps.refl pool
    · rename_i found
      exact keeps_insert found rfl rfl rfl
  | removeTimedoutPeers slow order =>
    cases stepped
    exact remove_timedout_keeps slow _ pool
  | makeNextRequester =>
    cases stepped
    unfold makeNextRequester
    dsimp only
    split
    · exact Keeps.refl pool
    · exact keeps_of_eq rfl rfl
  | addBlock peerID block => exact add_block_keeps stepped
  | popRequest =>
    simp only [step, popRequest] at stepped
    split at stepped
    · cases stepped
    · cases stepped
      exact keeps_of_eq rfl rfl

theorem reports_set (pool : BlockPool ν) (peerID other : ν) (base height reported : Int) :
    (pool.setPeerRange peerID base height).Reports other reported ↔
      (other = peerID ∧ height = reported) ∨ (other ≠ peerID ∧ pool.Reports other reported) := by
  refine (reports_insert pool peerID other _ _ reported).trans ?_
  cases pool.peers.lookup peerID <;> rfl

theorem max_set (pool : BlockPool ν) (peerID : ν) (base height : Int) :
    (pool.setPeerRange peerID base height).maxPeerHeight = max pool.maxPeerHeight height := by
  unfold setPeerRange
  dsimp only
  split <;> omega

theorem set_peer_range_target (pool : BlockPool ν) (peerID : ν) (base height : Int)
    (target : pool.TargetHeight) :
    (pool.setPeerRange peerID base height).TargetHeight ↔
      pool.Covered (.setPeerRange peerID base height) := by
  have own : (pool.setPeerRange peerID base height).Reports peerID height :=
    (reports_set ..).mpr (.inl ⟨rfl, rfl⟩)
  have upper : ∀ other reported, pool.Reports other reported → reported ≤ pool.maxPeerHeight := by
    intro other reported reports
    rcases target with ⟨empty, _⟩ | ⟨_, bound⟩
    · exact absurd reports ((no_peers_iff pool).mp empty other reported)
    · exact bound ⟨other, reports⟩
  constructor
  · rintro (⟨empty, _⟩ | ⟨⟨holder, holds⟩, _⟩)
    · exact absurd own ((no_peers_iff _).mp empty peerID height)
    · rw [max_set] at holds
      rcases (reports_set ..).mp holds with ⟨_, same⟩ | ⟨other, reports⟩
      · left
        omega
      · exact .inr ⟨holder, _, other, reports, le_max_left ..⟩
  · intro covered
    right
    rw [max_set]
    constructor
    · rcases covered with high | ⟨other, reported, apart, reports, high⟩
      · rw [max_eq_right high]
        exact ⟨peerID, own⟩
      · have same : reported = pool.maxPeerHeight := le_antisymm (upper _ _ reports) high
        by_cases above : pool.maxPeerHeight ≤ height
        · rw [max_eq_right above]
          exact ⟨peerID, own⟩
        · rw [max_eq_left (by omega), ← same]
          exact ⟨other, (reports_set ..).mpr (.inr ⟨apart, reports⟩)⟩
    · rintro reported ⟨other, reports⟩
      rcases (reports_set ..).mp reports with ⟨_, same⟩ | ⟨_, before⟩
      · exact same ▸ le_max_right ..
      · exact (upper other reported before).trans (le_max_left ..)

theorem step_target (pool : BlockPool ν) (event : Event ν) (nonNegative : pool.NonNegative)
    (target : pool.TargetHeight) :
    pool.Covered event ↔ ∀ next, pool.step event = .ok next → next.TargetHeight := by
  by_cases report : ∃ peerID base height, event = .setPeerRange peerID base height
  · obtain ⟨peerID, base, height, rfl⟩ := report
    rw [← pool.set_peer_range_target peerID base height target]
    exact ⟨fun kept next stepped => Except.ok.inj stepped ▸ kept, fun kept => kept _ rfl⟩
  · refine ⟨fun _ next stepped => ?_, fun _ => ?_⟩
    · refine (step_keeps event stepped fun peerID base height same => ?_).target nonNegative target
      exact report ⟨peerID, base, height, same⟩
    · cases event with
      | setPeerRange peerID base height => exact absurd ⟨peerID, base, height, rfl⟩ report
      | _ => trivial

theorem step_non_negative (pool : BlockPool ν) (event : Event ν) (next : BlockPool ν)
    (valid : event.Valid) (nonNegative : pool.NonNegative) (stepped : pool.step event = .ok next) :
    next.NonNegative := by
  by_cases report : ∃ peerID base height, event = .setPeerRange peerID base height
  · obtain ⟨peerID, base, height, rfl⟩ := report
    cases stepped
    intro other reported reports
    rcases (reports_set ..).mp reports with ⟨_, same⟩ | ⟨_, before⟩
    · exact same ▸ valid
    · exact nonNegative other reported before
  · refine (step_keeps event stepped fun peerID base height same => ?_).nonNegative nonNegative
    exact report ⟨peerID, base, height, same⟩

theorem TargetHeight.caught_up_iff (target : pool.TargetHeight) :
    pool.isCaughtUp = true ↔ pool.peers.entries ≠ [] ∧
      ∀ peerID height, pool.Reports peerID height → height - 1 ≤ pool.height := by
  unfold isCaughtUp
  rcases target with ⟨empty, _⟩ | ⟨⟨holder, holds⟩, upper⟩
  · simp [empty]
  · have some : pool.peers.entries ≠ [] := fun empty =>
      (no_peers_iff pool).mp empty holder _ holds
    rw [if_neg some, decide_eq_true_iff]
    constructor
    · refine fun reached => ⟨some, fun peerID height reports => ?_⟩
      have bound := upper ⟨peerID, reports⟩
      omega
    · rintro ⟨_, all⟩
      exact all holder _ holds

/-- In a run of valid reports the cached maximum is the greatest height of the peers in
every state exactly if every report is covered; then the peers that are left decide alone
whether the node has caught up. -/
theorem target_height_iff (start : Int) (events : List (Event ν))
    (valid : ∀ event ∈ events, event.Valid) :
    (Runs.Always step TargetHeight (new start) events ↔
        Runs.Each step Covered (new start) events) ∧
      (Runs.Each step Covered (new start) events →
        Runs.Always step (fun pool : BlockPool ν => pool.isCaughtUp = true ↔
          pool.peers.entries ≠ [] ∧
            ∀ peerID height, pool.Reports peerID height → height - 1 ≤ pool.height)
          (new start) events) := by
  have nonNegative : (new start : BlockPool ν).NonNegative := fun peerID height reports =>
    absurd reports ((no_peers_iff _).mp rfl peerID height)
  have first : (new start : BlockPool ν).TargetHeight := .inl ⟨rfl, rfl⟩
  have exactly := Runs.always_iff_each (fun pool event _ => pool.step_target event)
    (fun pool event next => pool.step_non_negative event next) events valid nonNegative first
  refine ⟨exactly, fun each before after final split ran => ?_⟩
  exact (exactly.mpr each before after final split ran).caught_up_iff

def departure : List (Event Nat) := [.setPeerRange 1 1 20, .setPeerRange 2 1 10, .removePeer 1]

theorem departure_target : (∀ event ∈ departure, event.Valid) ∧
    Runs.Always step TargetHeight (new 5) departure := by
  have valid : ∀ event ∈ departure, event.Valid := by
    simp [departure, Event.Valid]
  refine ⟨valid, (target_height_iff 5 departure valid).1.mpr ?_⟩
  refine ⟨.inl (by decide), fun second reported => ⟨?_, fun third again => ⟨trivial, ?_⟩⟩⟩
  · cases reported
    exact .inr ⟨1, 20, by decide, ⟨_, rfl, rfl⟩, by decide⟩
  · exact fun _ _ => trivial

/-- A peer corrects its height to a lower one and leaves: the node is level with the only peer
that is left, and the maximum is still the height that was corrected. -/
theorem corrected_peer_keeps_target : ∃ pool : BlockPool Nat,
    Runs.run step (new 5) [.setPeerRange 1 1 1000000, .setPeerRange 2 1 6, .setPeerRange 1 1 6,
      .removePeer 1] = .ok pool ∧
    pool.peers.entries = [⟨2, ⟨false, 0, 6, 1, false⟩⟩] ∧ pool.maxPeerHeight = 1000000 ∧
    pool.isCaughtUp = false ∧ ¬pool.TargetHeight := by
  refine ⟨_, rfl, by decide, by decide, by decide, ?_⟩
  rintro (⟨empty, _⟩ | ⟨⟨holder, holds⟩, _⟩)
  · revert empty
    decide
  · obtain ⟨entry, member, height⟩ := (reported_iff _ _).mp ⟨holder, holds⟩
    revert entry
    decide

end BlockPool

end Tendermint.BlockSync
