import Tendermint.PubSub.Server

/-!
What the commands of the pub/sub server are for: which subscriptions are active, to which a
message is offered, and when each is canceled. The loop keeps to it in the runs where every
command meets a condition on the state and the order of the maps; outside of it the double
index of the subscriptions goes wrong.
-/

namespace Tendermint.PubSub

open NestedMap List

variable {δ ε : Type}

structure Active (ε : Type) where
  clientID : String
  query : Query ε
  id : String

namespace Active

def matched (events : List ε) (active : Active ε) : Bool :=
  match active.query.matchesEvents events with
  | .ok hit => hit
  | .error _ => false

def failed (events : List ε) (active : Active ε) : Bool :=
  match active.query.matchesEvents events with
  | .ok _ => false
  | .error _ => true

/-- The query matches, and the buffer of the channel has no room. -/
def overflows (state : State δ ε) (events : List ε) (active : Active ε) : Bool :=
  active.matched events && decide ((state.memory active.id).capacity ≠ 0 ∧
    (state.memory active.id).capacity ≤ (state.memory active.id).out.length)

end Active

def following (state : State δ ε) (active : List (Active ε)) : Event δ ε → List (Active ε)
  | .command (.sub clientID query id _) _ => ⟨clientID, query, id⟩ :: active
  | .command (.unsub clientID query _) _ =>
    active.filter fun one => !(one.clientID == clientID && one.query.string == query.string)
  | .command (.unsubAll clientID) _ => active.filter fun one => one.clientID != clientID
  | .command (.pub _ events) _ => active.filter fun one => !one.overflows state events
  | .command .shutdown _ => []
  | .receive _ => active

/-- What an event has to do: offer a published message to the active subscriptions that match,
and close the canceled channel of those that are no longer active. -/
def Due (state : State δ ε) (active : List (Active ε)) (event : Event δ ε) :
    Effect δ ε → Prop
  | .offered message => ∃ data events order, event = .command (.pub data events) order ∧
    ∃ one ∈ active, one.matched events = true ∧ message = ⟨one.id, data, events⟩
  | .closed id => ∃ one ∈ active, one.id = id ∧
    ∀ other ∈ following state active event, other.id ≠ id

/-- The effects from one state to the next, each once. -/
def Did (state next : State δ ε) (due : Effect δ ε → Prop) : Prop :=
  ∃ effects, next.log = state.log ++ effects ∧ effects.Nodup ∧
    ∀ effect, effect ∈ effects ↔ due effect

def refCount (state : State δ ε) (qStr : String) : Int :=
  match state.queries.lookup qStr with
  | none => 0
  | some ref => ref.refCount

def subscribers (active : List (Active ε)) (qStr : String) : Nat :=
  active.countP fun one => one.query.string == qStr

def closings (log : List (Effect δ ε)) : List String :=
  log.filterMap fun
    | .closed id => some id
    | .offered _ => none

/-- The condition on a command. A subscription comes with a new id, for a query that its client
has no subscription for; the id given to remove one is its own; no command takes the last
active subscription; the client is removed in an order that meets each query before the id; no
query fails before one that matches is met; and the server is shut down without subscriptions. -/
def Meets (state : State δ ε) (active : List (Active ε)) : Event δ ε → Prop
  | .command (.sub clientID query id _) _ => id ∉ state.subscriptions ∧ id ≠ query.string ∧
    (query.string ∈ state.subscriptions → ∃ one ∈ active, one.query.string = query.string) ∧
    ∀ one ∈ active, one.query.string = query.string → one.query = query ∧ one.clientID ≠ clientID
  | .command (.unsub clientID query id) _ => (∀ one ∈ active, one.id ≠ query.string) ∧
    ∀ one ∈ active, one.clientID = clientID → one.query.string = query.string →
      one.id = id ∧ ∃ other ∈ active, other.id ≠ id
  | .command (.unsubAll clientID) order => ∀ one ∈ active, one.clientID = clientID →
    [one.query.string, one.id].Sublist (order.keys.walk state.subscriptions.keys) ∧
    ∃ other ∈ active, other.clientID ≠ clientID
  | .command (.pub _ events) order =>
    (∀ one ∈ active, ∀ other ∈ active, one.failed events = true → other.matched events = true →
      [other.query.string, one.query.string].Sublist (order.keys.walk state.subscriptions.keys)) ∧
    ((∃ one ∈ active, one.overflows state events = true) →
      ∃ other ∈ active, other.overflows state events = false)
  | .command .shutdown _ => active = []
  | .receive _ => True

/-- The states of the loop and the active subscriptions in the runs whose events all meet the
condition. After the shutdown no command is processed. -/
inductive Reaches : State δ ε → List (Active ε) → Prop where
  | start : Reaches .start []
  | step {state : State δ ε} {active : List (Active ε)} (event : Event δ ε)
    (reached : Reaches state active) (running : state.running = true)
    (meets : Meets state active event) : Reaches (state.step event) (following state active event)

/-- The maps hold the active subscriptions, each under its query and under its id. -/
structure Tracks (state : State δ ε) (active : List (Active ε)) : Prop where
  ids : (active.map Active.id).Nodup
  pairs : ∀ one ∈ active, ∀ other ∈ active, one.query.string = other.query.string →
    one.clientID = other.clientID → one.id = other.id
  apart : ∀ one ∈ active, ∀ other ∈ active, one.id ≠ other.query.string
  entries : ∀ key client id, find state.subscriptions key client = some id ↔
    ∃ one ∈ active, one.clientID = client ∧ one.id = id ∧ (one.query.string = key ∨ one.id = key)
  refs : ∀ key, refCount state key = subscribers active key
  stored : ∀ key ref, state.queries.lookup key = some ref →
    0 < ref.refCount ∧ ∀ one ∈ active, one.query.string = key → one.query = ref.q
  opened : ∀ one ∈ active, (state.memory one.id).canceled = false
  once : (closings state.log).Nodup
  left : ∀ id ∈ closings state.log, id ∈ state.subscriptions ∧
    ∀ one ∈ active, one.id ≠ id ∧ one.query.string ≠ id

section Effects

variable {state next final : State δ ε}

theorem closings_append (first second : List (Effect δ ε)) :
    closings (first ++ second) = closings first ++ closings second := filterMap_append

variable {due : Effect δ ε → Prop}

theorem Did.none (nothing : ∀ effect, ¬ due effect) (same : next.log = state.log) :
    Did state next due :=
  ⟨[], by rw [same, append_nil], nodup_nil, fun effect =>
    iff_of_false not_mem_nil (nothing effect)⟩

theorem Did.one {effect : Effect δ ε} (added : next.log = state.log ++ [effect]) :
    Did state next (· = effect) :=
  ⟨[effect], added, nodup_singleton effect, fun _ => mem_singleton⟩

theorem Did.trans {first second : Effect δ ε → Prop} (before : Did state next first)
    (after : Did next final second) (disjoint : ∀ effect, first effect → ¬ second effect)
    (total : ∀ effect, due effect ↔ first effect ∨ second effect) : Did state final due := by
  obtain ⟨firstEffects, firstLog, firstNodup, firstDue⟩ := before
  obtain ⟨secondEffects, secondLog, secondNodup, secondDue⟩ := after
  refine ⟨firstEffects ++ secondEffects, ?_, ?_, ?_⟩
  · rw [secondLog, firstLog, append_assoc]
  · refine List.Nodup.append firstNodup secondNodup ?_
    intro effect inFirst inSecond
    exact disjoint effect ((firstDue effect).mp inFirst) ((secondDue effect).mp inSecond)
  · intro effect
    rw [mem_append, firstDue, secondDue, total]

theorem Did.congr {same : Effect δ ε → Prop} (did : Did state next due)
    (iff : ∀ effect, due effect ↔ same effect) : Did state next same := by
  obtain ⟨effects, log, nodup, all⟩ := did
  exact ⟨effects, log, nodup, fun effect => (all effect).trans (iff effect)⟩

end Effects

theorem mem_before {first second : String} {done rest : List String}
    (nodup : (done ++ second :: rest).Nodup)
    (ordered : [first, second].Sublist (done ++ second :: rest)) : first ∈ done := by
  induction done with
  | nil =>
    have absent : second ∉ rest := (nodup_cons.mp nodup).1
    cases ordered with
    | cons _ later =>
      exact absurd (later.subset (mem_cons_of_mem _ (mem_singleton_self _))) absent
    | cons_cons _ later => exact absurd (singleton_sublist.mp later) absent
  | cons entry done ih =>
    cases ordered with
    | cons _ later => exact mem_cons_of_mem _ (ih (nodup_cons.mp nodup).2 later)
    | cons_cons _ later => exact mem_cons_self

theorem perm_without {active : List (Active ε)} (nodup : (active.map Active.id).Nodup)
    {one : Active ε} (member : one ∈ active) :
    active.Perm (one :: active.filter fun other => other.id != one.id) := by
  obtain ⟨before, after, rfl⟩ := append_of_mem member
  rw [map_append, map_cons, nodup_middle, nodup_cons, ← map_append] at nodup
  have others : ∀ other ∈ before ++ after, (other.id != one.id) = true := by
    intro other otherMember
    rw [bne_iff_ne]
    intro same
    exact nodup.1 (same ▸ mem_map_of_mem otherMember)
  rw [filter_append, filter_cons_of_neg (by simp), ← filter_append, filter_eq_self.mpr others]
  exact perm_middle

namespace Tracks

variable {state : State δ ε} {active : List (Active ε)}

section

variable (tracks : Tracks state active)

include tracks

variable {one : Active ε}

theorem eq_of_id {other : Active ε} (member : one ∈ active) (otherMember : other ∈ active)
    (same : one.id = other.id) : one = other :=
  inj_on_of_nodup_map tracks.ids member otherMember same

theorem find_query (member : one ∈ active) :
    find state.subscriptions one.query.string one.clientID = some one.id :=
  (tracks.entries _ _ _).mpr ⟨one, member, rfl, rfl, Or.inl rfl⟩

theorem find_id (member : one ∈ active) :
    find state.subscriptions one.id one.clientID = some one.id :=
  (tracks.entries _ _ _).mpr ⟨one, member, rfl, rfl, Or.inr rfl⟩

theorem found_query {key client id : String} (notID : ∀ one ∈ active, one.id ≠ key)
    (found : find state.subscriptions key client = some id) :
    ∃ one ∈ active, one.clientID = client ∧ one.id = id ∧ one.query.string = key := by
  obtain ⟨one, member, same, named, under | under⟩ := (tracks.entries _ _ _).mp found
  · exact ⟨one, member, same, named, under⟩
  · exact absurd under (notID one member)

theorem query_stored (member : one ∈ active) :
    ∃ ref, state.queries.lookup one.query.string = some ref ∧ one.query = ref.q := by
  have counted := tracks.refs one.query.string
  have positive : 0 < subscribers active one.query.string :=
    countP_pos_iff.mpr ⟨one, member, beq_self_eq_true _⟩
  unfold refCount at counted
  cases stored : state.queries.lookup one.query.string with
  | none =>
    rw [stored] at counted
    dsimp only at counted
    omega
  | some ref => exact ⟨ref, rfl, (tracks.stored _ ref stored).2 one member rfl⟩

theorem subscriber_of_stored {key : String} {ref : QueryPlusRefCount ε}
    (stored : state.queries.lookup key = some ref) :
    ∃ one ∈ active, one.query.string = key ∧ one.query = ref.q := by
  have counted := tracks.refs key
  have positive := tracks.stored key ref stored
  unfold refCount at counted
  rw [stored] at counted
  dsimp only at counted
  obtain ⟨one, member, same⟩ := countP_pos_iff.mp (show 0 < subscribers active key by omega)
  exact ⟨one, member, eq_of_beq same, positive.2 one member (eq_of_beq same)⟩

theorem of_log (message : Message δ ε) :
    Tracks { state with log := state.log ++ [.offered message] } active :=
  { tracks with
    once := by
      rw [closings_append]
      exact (append_nil _).symm ▸ tracks.once
    left := by
      rw [closings_append]
      exact (append_nil _).symm ▸ tracks.left }

theorem of_out (id : String) (out : List (Message δ ε)) : Tracks { state with
      memory := Function.update state.memory id { state.memory id with out := out } } active :=
  { tracks with
    opened := by
      intro one member
      have opened := tracks.opened one member
      dsimp only
      by_cases same : one.id = id
      · subst same
        rw [Function.update_self]
        exact opened
      · rw [Function.update_of_ne same]
        exact opened }

end

end Tracks

section Removal

variable {state : State δ ε} {active : List (Active ε)}

theorem ref_count_release (state : State δ ε) (qStr key : String)
    (stored : ∃ ref, state.queries.lookup qStr = some ref) :
    refCount { state with queries := State.release state.queries qStr } key =
      if key = qStr then refCount state key - 1 else refCount state key := by
  obtain ⟨ref, found⟩ := stored
  unfold refCount State.release
  rw [found]
  dsimp only
  by_cases same : key = qStr
  · subst same
    rw [if_pos rfl, found]
    by_cases last : ref.refCount - 1 = 0
    · simp [last]
    · simp [last]
  · rw [if_neg same]
    by_cases last : ref.refCount - 1 = 0
    · rw [if_pos last, AList.lookup_erase_ne same]
    · rw [if_neg last, AList.lookup_insert_ne same]

theorem lookup_release {queries : AList fun _ : String => QueryPlusRefCount ε} {qStr key : String}
    {ref : QueryPlusRefCount ε} (found : (State.release queries qStr).lookup key = some ref) :
    ∃ before, queries.lookup key = some before ∧ ref.q = before.q ∧
      (0 < before.refCount → 0 < ref.refCount) := by
  unfold State.release at found
  cases stored : queries.lookup qStr with
  | none =>
    rw [stored] at found
    exact ⟨ref, found, rfl, id⟩
  | some before =>
  rw [stored] at found
  dsimp only at found
  by_cases same : key = qStr
  · subst same
    split at found
    · rw [AList.lookup_erase] at found
      cases found
    · rw [AList.lookup_insert] at found
      cases found
      refine ⟨before, stored, rfl, fun positive => ?_⟩
      dsimp only
      omega
  · split at found
    · rw [AList.lookup_erase_ne same] at found
      exact ⟨ref, found, rfl, id⟩
    · rw [AList.lookup_insert_ne same] at found
      exact ⟨ref, found, rfl, id⟩

theorem subscribers_without (tracks : Tracks state active) {one : Active ε}
    (member : one ∈ active) (key : String) :
    (subscribers (active.filter fun other => other.id != one.id) key : Int) =
      if key = one.query.string then (subscribers active key : Int) - 1
      else subscribers active key := by
  have counts := (perm_without tracks.ids member).countP_eq
  unfold subscribers
  rw [counts]
  by_cases same : key = one.query.string
  · simp [same]
  · simp [same, Ne.symm same]

theorem remove_tracks (tracks : Tracks state active) {one : Active ε} (member : one ∈ active)
    (reason : Option Reason) :
    Tracks (state.remove one.clientID one.query.string one.id reason)
      (active.filter fun other => other.id != one.id) ∧
    (state.remove one.clientID one.query.string one.id reason).log = state.log ++ [.closed one.id] ∧
    (state.remove one.clientID one.query.string one.id reason).running = state.running ∧
    ∀ id, id ≠ one.id →
      (state.remove one.clientID one.query.string one.id reason).memory id = state.memory id := by
  have kept : ∀ other, other ∈ active.filter (fun other => other.id != one.id) ↔
      other ∈ active ∧ other.id ≠ one.id := by
    intro other
    rw [mem_filter, bne_iff_ne]
  have shape : state.remove one.clientID one.query.string one.id reason =
      { state with
        subscriptions := prune (modify (modify state.subscriptions one.query.string
          (·.erase one.clientID)) one.id (·.erase one.clientID)) one.query.string
        queries := State.release state.queries one.query.string
        memory := Function.update state.memory one.id
          { state.memory one.id with
            err := (state.memory one.id).err.or reason, canceled := true }
        log := state.log ++ [.closed one.id] } := by
    unfold State.remove State.cancel
    rw [tracks.find_query member]
    simp only [tracks.opened one member, Bool.false_eq_true, if_false]
  rw [shape]
  refine ⟨?_, rfl, rfl, fun id other => Function.update_of_ne other _ _⟩
  constructor
  case ids => exact tracks.ids.sublist (filter_sublist.map _)
  case pairs =>
    intro first firstKept second secondKept
    exact tracks.pairs first ((kept first).mp firstKept).1 second ((kept second).mp secondKept).1
  case apart =>
    intro first firstKept second secondKept
    exact tracks.apart first ((kept first).mp firstKept).1 second ((kept second).mp secondKept).1
  case entries =>
    intro key client id
    rw [find_prune, find_erase, find_erase]
    constructor
    · intro found
      split at found
      · cases found
      rename_i notID
      split at found
      · cases found
      rename_i notQuery
      obtain ⟨other, otherMember, same, named, under⟩ := (tracks.entries _ _ _).mp found
      refine ⟨other, (kept other).mpr ⟨otherMember, fun equal => ?_⟩, same, named, under⟩
      rw [tracks.eq_of_id otherMember member equal] at same under
      rcases under with under | under
      · exact notQuery ⟨under.symm, same.symm⟩
      · exact notID ⟨under.symm, same.symm⟩
    · rintro ⟨other, otherKept, same, named, under⟩
      obtain ⟨otherMember, different⟩ := (kept other).mp otherKept
      have found := (tracks.entries key client id).mpr ⟨other, otherMember, same, named, under⟩
      rw [if_neg, if_neg]
      · exact found
      · rintro ⟨rfl, rfl⟩
        rcases under with under | under
        · exact different (tracks.pairs other otherMember one member under same)
        · exact tracks.apart other otherMember one member under
      · rintro ⟨rfl, rfl⟩
        rcases under with under | under
        · exact tracks.apart one member other otherMember under.symm
        · exact different under
  case refs =>
    intro key
    rw [subscribers_without tracks member key, ← tracks.refs key]
    obtain ⟨ref, found, _⟩ := tracks.query_stored member
    exact ref_count_release state one.query.string key ⟨ref, found⟩
  case stored =>
    intro key ref found
    obtain ⟨before, stored, same, positive⟩ := lookup_release found
    obtain ⟨counted, queries⟩ := tracks.stored key before stored
    refine ⟨positive counted, fun other otherKept named => ?_⟩
    rw [same]
    exact queries other ((kept other).mp otherKept).1 named
  case opened =>
    intro other otherKept
    obtain ⟨otherMember, different⟩ := (kept other).mp otherKept
    dsimp only
    rw [Function.update_of_ne different]
    exact tracks.opened other otherMember
  case once =>
    rw [closings_append]
    refine List.Nodup.append tracks.once (nodup_singleton one.id) ?_
    intro id closed again
    cases mem_singleton.mp again
    exact ((tracks.left one.id closed).2 one member).1 rfl
  case left =>
    intro id closed
    rw [closings_append] at closed
    rcases mem_append.mp closed with before | now
    · obtain ⟨present, others⟩ := tracks.left id before
      refine ⟨?_, fun other otherKept => others other ((kept other).mp otherKept).1⟩
      rw [mem_prune_of_ne _ (others one member).2.symm, mem_modify, mem_modify]
      exact present
    · cases mem_singleton.mp now
      refine ⟨?_, fun other otherKept => ?_⟩
      · rw [mem_prune_of_ne _ (tracks.apart one member one member), mem_modify, mem_modify]
        exact mem_of_find (tracks.find_id member)
      · obtain ⟨otherMember, different⟩ := (kept other).mp otherKept
        exact ⟨different, (tracks.apart one member other otherMember).symm⟩

end Removal

section Subscribing

variable {state : State δ ε} {active : List (Active ε)}

section

variable (state : State δ ε) (clientID : String) (q : Query ε)

theorem find_add (id key client : String) :
    find (state.add clientID q id).subscriptions key client =
      if (key = id ∨ key = q.string) ∧ client = clientID then some id
      else find state.subscriptions key client := by
  have first : q.string ∈ ensure (ensure state.subscriptions q.string ∅) id ∅ := by
    rw [mem_ensure, mem_ensure]
    exact Or.inr (Or.inl rfl)
  have second : id ∈ modify (ensure (ensure state.subscriptions q.string ∅) id ∅) q.string
      (·.insert clientID id) := by
    rw [mem_modify, mem_ensure]
    exact Or.inl rfl
  unfold State.add
  rw [find_insert _ _ _ second, find_insert _ _ _ first, find_ensure, find_ensure]
  by_cases hit : client = clientID
  · by_cases under : key = id
    · simp [hit, under]
    · simp [hit, under]
  · simp [hit]

theorem mem_add {id key : String} (present : key ∈ state.subscriptions) :
    key ∈ (state.add clientID q id).subscriptions := by
  unfold State.add
  rw [mem_modify, mem_modify, mem_ensure, mem_ensure]
  exact Or.inr (Or.inr present)

theorem lookup_add (id key : String) : (state.add clientID q id).queries.lookup key =
      if key = q.string then
        some ⟨((state.queries.lookup key).getD ⟨q, 0⟩).q, refCount state key + 1⟩
      else state.queries.lookup key := by
  unfold State.add refCount
  rw [lookup_modify, lookup_ensure, lookup_ensure]
  by_cases same : key = q.string
  · subst same
    cases state.queries.lookup q.string <;> simp
  · simp [same]

end

theorem sub_tracks (tracks : Tracks state active) {clientID : String} {query : Query ε}
    {id : String} {capacity : Nat} {order : Order}
    (meets : Meets state active (.command (.sub clientID query id capacity) order)) :
    Tracks (state.process order (.sub clientID query id capacity))
      (⟨clientID, query, id⟩ :: active) := by
  obtain ⟨fresh, notQuery, known, sole⟩ := meets
  have newID : ∀ one ∈ active, one.id ≠ id := by
    rintro one member rfl
    exact fresh (mem_of_find (tracks.find_id member))
  have newQuery : ∀ one ∈ active, one.query.string ≠ id := by
    rintro one member rfl
    exact fresh (mem_of_find (tracks.find_query member))
  have otherQuery : ∀ one ∈ active, one.id ≠ query.string := by
    intro one member same
    obtain ⟨other, otherMember, named⟩ := known (same ▸ mem_of_find (tracks.find_id member))
    exact tracks.apart one member other otherMember (same.trans named.symm)
  constructor
  case ids =>
    rw [map_cons, nodup_cons]
    refine ⟨fun again => ?_, tracks.ids⟩
    obtain ⟨one, member, same⟩ := mem_map.mp again
    exact newID one member same
  case pairs =>
    intro first firstMember second secondMember named same
    rcases mem_cons.mp firstMember with rfl | firstOld
    · rcases mem_cons.mp secondMember with rfl | secondOld
      · rfl
      · exact absurd same.symm (sole second secondOld named.symm).2
    · rcases mem_cons.mp secondMember with rfl | secondOld
      · exact absurd same (sole first firstOld named).2
      · exact tracks.pairs first firstOld second secondOld named same
  case apart =>
    intro first firstMember second secondMember
    rcases mem_cons.mp firstMember with rfl | firstOld
    · rcases mem_cons.mp secondMember with rfl | secondOld
      · exact notQuery
      · exact (newQuery second secondOld).symm
    · rcases mem_cons.mp secondMember with rfl | secondOld
      · exact otherQuery first firstOld
      · exact tracks.apart first firstOld second secondOld
  case entries =>
    intro key client found
    change find (state.add clientID query id).subscriptions key client = some found ↔ _
    rw [find_add]
    by_cases hit : (key = id ∨ key = query.string) ∧ client = clientID
    · rw [if_pos hit]
      obtain ⟨under, rfl⟩ := hit
      constructor
      · intro same
        refine ⟨_, mem_cons_self, rfl, Option.some.inj same, ?_⟩
        rcases under with under | under
        · exact Or.inr under.symm
        · exact Or.inl under.symm
      · rintro ⟨one, member, same, named, placed⟩
        rcases mem_cons.mp member with rfl | old
        · rw [← named]
        · exfalso
          rcases under with rfl | rfl
          · rcases placed with placed | placed
            · exact newQuery one old placed
            · exact newID one old placed
          · rcases placed with placed | placed
            · exact (sole one old placed).2 same
            · exact otherQuery one old placed
    · rw [if_neg hit, tracks.entries]
      constructor
      · rintro ⟨one, member, rest⟩
        exact ⟨one, mem_cons_of_mem _ member, rest⟩
      · rintro ⟨one, member, same, named, placed⟩
        rcases mem_cons.mp member with rfl | old
        · refine absurd ⟨?_, same.symm⟩ hit
          rcases placed with placed | placed
          · exact Or.inr placed.symm
          · exact Or.inl placed.symm
        · exact ⟨one, old, same, named, placed⟩
  case refs =>
    intro key
    have counted := tracks.refs key
    change (match (state.add clientID query id).queries.lookup key with
      | none => (0 : Int)
      | some ref => ref.refCount) = _
    rw [lookup_add]
    unfold subscribers at counted ⊢
    rw [countP_cons]
    by_cases same : key = query.string
    · subst same
      simp [counted]
    · rw [if_neg same]
      simp only [beq_iff_eq, Ne.symm same, if_false, Nat.add_zero]
      exact counted
  case stored =>
    intro key ref found
    change (state.add clientID query id).queries.lookup key = some ref at found
    rw [lookup_add] at found
    by_cases same : key = query.string
    · rw [if_pos same] at found
      cases found
      have counted := tracks.refs key
      refine ⟨by dsimp only; omega, fun one member named => ?_⟩
      cases before : state.queries.lookup key with
      | none =>
        rcases mem_cons.mp member with rfl | old
        · rfl
        · obtain ⟨ref, stored, _⟩ := tracks.query_stored old
          rw [named, before] at stored
          cases stored
      | some ref =>
        rcases mem_cons.mp member with rfl | old
        · obtain ⟨other, otherMember, otherNamed, otherQuery⟩ := tracks.subscriber_of_stored before
          exact ((sole other otherMember (otherNamed.trans same)).1.symm).trans otherQuery
        · exact (tracks.stored key ref before).2 one old named
    · rw [if_neg same] at found
      obtain ⟨positive, queries⟩ := tracks.stored key ref found
      refine ⟨positive, fun one member named => ?_⟩
      rcases mem_cons.mp member with rfl | old
      · exact absurd named.symm same
      · exact queries one old named
  case opened =>
    intro one member
    change (Function.update state.memory id (newSubscription capacity) one.id).canceled = false
    rcases mem_cons.mp member with rfl | old
    · rw [Function.update_self]
      rfl
    · rw [Function.update_of_ne (newID one old)]
      exact tracks.opened one old
  case once => exact tracks.once
  case left =>
    intro gone closed
    obtain ⟨present, others⟩ := tracks.left gone closed
    refine ⟨mem_add state clientID query present, fun one member => ?_⟩
    rcases mem_cons.mp member with rfl | old
    · constructor
      · rintro rfl
        exact fresh present
      · rintro rfl
        obtain ⟨other, otherMember, named⟩ := known present
        exact (others other otherMember).2 named
    · exact others one old

end Subscribing

end Tendermint.PubSub
