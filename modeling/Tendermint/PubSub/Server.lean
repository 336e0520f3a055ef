import Tendermint.Lib.NestedMap

/-!
libs/pubsub: the loop of the server, which processes the commands one by one. The map from
clients to their queries and ids that guards the methods of the server is left out: the
commands here come in any order. A subscription stands for its id, which `uuid.NewString` never
repeats.
-/

namespace Tendermint.PubSub

open NestedMap

variable {δ ε : Type}

/-- What an implementation of the interface `Query` answers to its two methods. -/
structure Query (ε : Type) where
  string : String
  matchesEvents : List ε → Except String Bool

structure Message (δ ε : Type) where
  subID : String
  data : δ
  events : List ε
  deriving DecidableEq, Repr

inductive Reason where
  | unsubscribed
  | outOfCapacity
  deriving DecidableEq, Repr

structure Subscription (δ ε : Type) where
  capacity : Nat
  out : List (Message δ ε)
  canceled : Bool
  err : Option Reason
  deriving DecidableEq, Repr

def newSubscription (capacity : Nat) : Subscription δ ε := ⟨capacity, [], false, none⟩

structure QueryPlusRefCount (ε : Type) where
  q : Query ε
  refCount : Int

inductive Effect (δ ε : Type) where
  | offered (message : Message δ ε)
  | closed (id : String)
  deriving DecidableEq, Repr

/-- The two maps of `state`, the subscriptions that they point to, and what has been done with
the channels of these: a message put to a select, the canceled channel closed. -/
structure State (δ ε : Type) where
  subscriptions : Table String String String
  queries : AList fun _ : String => QueryPlusRefCount ε
  memory : String → Subscription δ ε
  log : List (Effect δ ε)
  running : Bool

namespace State

def start : State δ ε := ⟨∅, ∅, fun _ => newSubscription 0, [], true⟩

def add (state : State δ ε) (clientID : String) (q : Query ε) (id : String) : State δ ε :=
  let subscriptions := ensure (ensure state.subscriptions q.string ∅) id ∅
  let subscriptions := modify subscriptions q.string (·.insert clientID id)
  let subscriptions := modify subscriptions id (·.insert clientID id)
  let queries := ensure state.queries q.string ⟨q, 0⟩
  let queries := modify queries q.string fun ref => { ref with refCount := ref.refCount + 1 }
  { state with subscriptions := subscriptions, queries := queries }

/-- Closing a closed channel panics, and `cancel` recovers from it. -/
def cancel (state : State δ ε) (id : String) (reason : Option Reason) : State δ ε :=
  let sub := state.memory id
  { state with
    memory := Function.update state.memory id
      { sub with err := sub.err.or reason, canceled := true }
    log := if sub.canceled then state.log else state.log ++ [.closed id] }

/-- The reference counter goes down, and the query goes with the last reference. -/
def release (queries : AList fun _ : String => QueryPlusRefCount ε) (qStr : String) :
    AList fun _ : String => QueryPlusRefCount ε :=
  match queries.lookup qStr with
  | none => queries
  | some ref =>
    if ref.refCount - 1 = 0 then queries.erase qStr
    else queries.insert qStr { ref with refCount := ref.refCount - 1 }

-- Of the row of the id only the client goes: the row itself stays, empty.
def remove (state : State δ ε) (clientID qStr id : String) (reason : Option Reason) :
    State δ ε :=
  match find state.subscriptions qStr clientID with
  | none => state
  | some subscription =>
    let state := state.cancel subscription reason
    let subscriptions := modify state.subscriptions qStr (·.erase clientID)
    let subscriptions := modify subscriptions id (·.erase clientID)
    { state with
      subscriptions := prune subscriptions qStr
      queries := release state.queries qStr }

/-- The loop of `removeClient` over the keys still to come. A key that has gone meanwhile is not
met, and finds nothing here. -/
def removeClientFrom (clientID : String) (reason : Option Reason) :
    List String → List String → State δ ε → State δ ε
  | [], _, state => state
  | qStr :: rest, seen, state =>
    match find state.subscriptions qStr clientID with
    | none => removeClientFrom clientID reason rest seen state
    | some id =>
      if id ∈ seen then removeClientFrom clientID reason rest seen state
      else removeClientFrom clientID reason rest (id :: seen) (state.remove clientID qStr id reason)

/-- The loop of `removeAll`. The client that it looks up is named by the key. -/
def removeAllFrom (clients : String → Iteration String) (reason : Option Reason) :
    List String → State δ ε → State δ ε
  | [], state => state
  | qStr :: rest, state =>
    match find state.subscriptions qStr qStr with
    | none => removeAllFrom clients reason rest state
    | some id =>
      if id = qStr then removeAllFrom clients reason rest state
      else
        removeAllFrom clients reason rest
          (((clients qStr).walk (columns state.subscriptions qStr)).foldl
            (fun state clientID => state.remove clientID qStr id reason) state)

/-- One subscription of a query that matches. On an unbuffered channel the loop waits for the
client to take the message or for the cancellation. -/
def offer (state : State δ ε) (qStr clientID : String) (data : δ) (events : List ε) : State δ ε :=
  match find state.subscriptions qStr clientID with
  | none => state
  | some id =>
    let sub := state.memory id
    let message : Message δ ε := ⟨id, data, events⟩
    let offered := { state with log := state.log ++ [.offered message] }
    if sub.capacity = 0 then offered
    else if sub.out.length < sub.capacity then
      { offered with
        memory := Function.update state.memory id { sub with out := sub.out ++ [message] } }
    else offered.remove clientID qStr id (some .outOfCapacity)

/-- The loop of `send`, which ends at the first query that fails. -/
def sendFrom (clients : String → Iteration String) (data : δ) (events : List ε) :
    List String → State δ ε → State δ ε × Option String
  | [], state => (state, none)
  | qStr :: rest, state =>
    match state.subscriptions.lookup qStr, state.queries.lookup qStr with
    | some row, some ref =>
      if row.lookup qStr = some qStr then sendFrom clients data events rest state
      else
        match ref.q.matchesEvents events with
        | .error text =>
          (state, some ("failed to match against query " ++ ref.q.string ++ ": " ++ text))
        | .ok false => sendFrom clients data events rest state
        | .ok true =>
          sendFrom clients data events rest (((clients qStr).walk row.keys).foldl
            (fun state clientID => state.offer qStr clientID data events) state)
    | _, _ => sendFrom clients data events rest state

end State

inductive Cmd (δ ε : Type) where
  | sub (clientID : String) (query : Query ε) (id : String) (capacity : Nat)
  | unsub (clientID : String) (query : Query ε) (id : String)
  | unsubAll (clientID : String)
  | pub (data : δ) (events : List ε)
  | shutdown

/-- The orders in which a command meets the keys of the map and the clients of each. -/
structure Order where
  keys : Iteration String
  clients : String → Iteration String

/-- A command that the loop takes, or a message that a client takes from its channel. -/
inductive Event (δ ε : Type) where
  | command (cmd : Cmd δ ε) (order : Order)
  | receive (id : String)

namespace State

def process (state : State δ ε) (order : Order) : Cmd δ ε → State δ ε
  | .sub clientID query id capacity =>
    { state.add clientID query id with
      memory := Function.update state.memory id (newSubscription capacity) }
  | .unsub clientID query id => state.remove clientID query.string id (some .unsubscribed)
  | .unsubAll clientID =>
    removeClientFrom clientID (some .unsubscribed) (order.keys.walk state.subscriptions.keys) []
      state
  | .pub data events =>
    (sendFrom order.clients data events (order.keys.walk state.subscriptions.keys) state).1
  | .shutdown =>
    { removeAllFrom order.clients none (order.keys.walk state.subscriptions.keys) state with
      running := false }

def step (state : State δ ε) : Event δ ε → State δ ε
  | .command cmd order => if state.running then state.process order cmd else state
  | .receive id =>
    let sub := state.memory id
    { state with memory := Function.update state.memory id { sub with out := sub.out.tail } }

end State

end Tendermint.PubSub
