import Tendermint.ABCI.SocketClient

/-!
The end of the socket client: every request has a wait group of one, which the response or
the drain of OnStop releases. The send routine takes a request off the queue before it holds
the mutex of the client, so a drain may come in between. Stop lets OnStop run once.
-/

namespace Tendermint.ABCI

open List

/-- The requests of a client, known by the number of requests queued before them. -/
structure Requests where
  created : Nat
  kinds : Nat → Kind
  reqQueue : List Nat
  /-- The request that the send routine took off the queue and has not recorded. -/
  held : Option Nat
  reqSent : List Nat
  stopped : Bool
  /-- How often Done was called on the wait group of a request. -/
  released : Nat → Nat
  -- what the run has seen so far
  recorded : List Nat
  /-- How many of the recorded requests are written to the connection. -/
  written : Nat
  attached : List Nat
  /-- The number of requests queued before OnStop. -/
  before : Nat

inductive RequestEvent (β : Type) where
  | queueRequest (kind : Kind)
  /-- The send routine takes the next request; its context may be done. -/
  | takeRequest (contextDone : Bool)
  | willSendReq
  | writeMessage
  | didRecvResponse (response : Response β)
  | onStop

namespace Requests

variable {β : Type}

def new : Requests where
  created := 0
  kinds := fun _ => .echo
  reqQueue := []
  held := none
  reqSent := []
  stopped := false
  released := fun _ => 0
  recorded := []
  written := 0
  attached := []
  before := 0

def queueRequest (state : Requests) (kind : Kind) : Requests :=
  { state with
    created := state.created + 1
    kinds := Function.update state.kinds state.created kind
    reqQueue := state.reqQueue ++ [state.created] }

def takeRequest (state : Requests) (contextDone : Bool) : Requests :=
  match state.held, state.reqQueue with
  | none, request :: rest =>
    { state with reqQueue := rest, held := if contextDone then none else some request }
  | _, _ => state

def willSendReq (state : Requests) : Requests :=
  match state.held with
  | none => state
  | some request =>
    { state with
      held := none
      reqSent := state.reqSent ++ [request]
      recorded := state.recorded ++ [request] }

def writeMessage (state : Requests) : Requests :=
  if state.written < state.recorded.length then { state with written := state.written + 1 }
  else state

/-- A response that does not fit is an error, which stops the client in a step of its own. -/
def didRecvResponse (state : Requests) (response : Response β) : Requests :=
  match state.reqSent with
  | [] => state
  | request :: rest =>
    if resMatchesReq (state.kinds request) response then
      { state with
        reqSent := rest
        released := Function.update state.released request (state.released request + 1)
        attached := state.attached ++ [request] }
    else state

def drainQueue (state : Requests) : Requests :=
  { state with
    reqQueue := []
    released := fun request =>
      state.released request + (state.reqSent ++ state.reqQueue).count request }

def onStop (state : Requests) : Requests :=
  if state.stopped then state
  else { state.drainQueue with stopped := true, before := state.created }

def step (state : Requests) : RequestEvent β → Requests
  | .queueRequest kind => state.queueRequest kind
  | .takeRequest contextDone => state.takeRequest contextDone
  | .willSendReq => state.willSendReq
  | .writeMessage => state.writeMessage
  | .didRecvResponse response => state.didRecvResponse response
  | .onStop => state.onStop

def run (state : Requests) (events : List (RequestEvent β)) : Requests := events.foldl step state

/-- No request is passed over for its context, none is in the hands of the send routine when
the client stops, and no response is handled after that. -/
def OrderlyStep (state : Requests) : RequestEvent β → Prop
  | .takeRequest contextDone => contextDone = false
  | .didRecvResponse _ => state.stopped = false
  | .onStop => state.held = none
  | _ => True

def Orderly : Requests → List (RequestEvent β) → Prop
  | _, [] => True
  | state, event :: rest => state.OrderlyStep event ∧ Orderly (state.step event) rest

/-! ### Responses and requests -/

def InOrder (state : Requests) : Prop := state.recorded = state.attached ++ state.reqSent

theorem InOrder.step {state : Requests} (inOrder : state.InOrder) (event : RequestEvent β) :
    (state.step event).InOrder := by
  cases event with
  | queueRequest kind => exact inOrder
  | takeRequest contextDone =>
    unfold Requests.step takeRequest
    dsimp only
    split <;> exact inOrder
  | willSendReq =>
    unfold Requests.step willSendReq
    dsimp only
    split
    · exact inOrder
    · unfold InOrder at inOrder ⊢
      rw [inOrder, append_assoc]
  | writeMessage =>
    unfold Requests.step writeMessage
    dsimp only
    split <;> exact inOrder
  | didRecvResponse response =>
    unfold Requests.step didRecvResponse
    dsimp only
    split
    · exact inOrder
    rename_i request rest waiting
    split
    · unfold InOrder at inOrder ⊢
      rw [inOrder, waiting, append_assoc]
      rfl
    · exact inOrder
  | onStop =>
    unfold Requests.step onStop
    dsimp only
    split <;> exact inOrder

/-! ### Releases -/

/-- Before the stop the requests are in a row, and those with a response are released. After
it those that were queued before are. -/
structure Counted (state : Requests) : Prop where
  row : state.stopped = false →
    state.attached ++ (state.reqSent ++ (state.held.toList ++ state.reqQueue)) =
      List.range state.created
  released : ∀ request, state.released request =
    if state.stopped then if request < state.before then 1 else 0
    else state.attached.count request

section

variable {state : Requests} (counted : state.Counted)

include counted

theorem Counted.take_request : (state.takeRequest false).Counted := by
  unfold takeRequest
  split
  · rename_i request rest free waiting
    refine ⟨fun running => ?_, counted.released⟩
    have row := counted.row running
    rw [free, waiting] at row
    exact row
  · exact counted

theorem Counted.will_send_req : state.willSendReq.Counted := by
  unfold willSendReq
  split
  · exact counted
  · rename_i request taken
    refine ⟨fun running => ?_, counted.released⟩
    have row := counted.row running
    rw [taken] at row
    dsimp only
    rw [append_assoc]
    exact row

theorem Counted.did_recv_response (running : state.stopped = false) (response : Response β) :
    (state.didRecvResponse response).Counted := by
  unfold didRecvResponse
  split
  · exact counted
  rename_i request rest waiting
  split
  · have row := counted.row running
    rw [waiting] at row
    refine ⟨fun _ => by rw [append_assoc]; exact row, fun other => ?_⟩
    have before := counted.released
    simp only [running, Bool.false_eq_true, if_false] at before ⊢
    rw [count_append, count_singleton]
    by_cases same : other = request
    · subst same
      rw [Function.update_self, before, beq_self_eq_true, if_pos rfl]
    · rw [Function.update_of_ne same, before, if_neg (by simpa using Ne.symm same), Nat.add_zero]
  · exact counted

theorem Counted.on_stop (free : state.held = none) : state.onStop.Counted := by
  unfold onStop
  split
  · exact counted
  rename_i running
  rw [Bool.not_eq_true] at running
  refine ⟨fun stopped => (by cases stopped), fun request => ?_⟩
  have row := counted.row running
  rw [free, Option.toList_none, nil_append] at row
  have before := counted.released request
  simp only [running, Bool.false_eq_true, if_false] at before
  simp only [drainQueue, if_true]
  -- each request is in one place of the row, so it is released there or was before
  rw [before, ← count_append, row, nodup_range.count]
  simp only [mem_range]

theorem Counted.step (event : RequestEvent β) (orderly : state.OrderlyStep event) :
    (state.step event).Counted := by
  cases event with
  | queueRequest kind =>
    refine ⟨fun running => ?_, counted.released⟩
    have row := counted.row running
    unfold Requests.step queueRequest
    dsimp only
    -- a new request goes to the end of the row
    rw [range_succ, ← row]
    simp only [append_assoc]
  | takeRequest contextDone =>
    cases orderly
    exact counted.take_request
  | willSendReq => exact counted.will_send_req
  | writeMessage =>
    unfold Requests.step writeMessage
    dsimp only
    split
    · exact ⟨counted.row, counted.released⟩
    · exact counted
  | didRecvResponse response => exact counted.did_recv_response orderly response
  | onStop => exact counted.on_stop orderly

theorem Counted.run (inOrder : state.InOrder) (events : List (RequestEvent β))
    (orderly : state.Orderly events) :
    (state.run events).Counted ∧ (state.run events).InOrder := by
  induction events generalizing state with
  | nil => exact ⟨counted, inOrder⟩
  | cons event rest hypothesis =>
    exact hypothesis (counted.step event orderly.1) (inOrder.step event) orderly.2

end

theorem Counted.released_le {state : Requests} (counted : state.Counted) (request : Nat) :
    state.released request ≤ 1 := by
  rw [counted.released]
  split
  · split
    · exact le_rfl
    · exact Nat.zero_le _
  · rename_i running
    have row := counted.row (by simpa using running)
    have distinct : state.attached.Nodup := by
      have all : (List.range state.created).Nodup := nodup_range
      rw [← row] at all
      exact all.of_append_left
    exact nodup_iff_count_le_one.mp distinct request

/-- In an orderly run no wait group goes below zero, the responses belong to the requests in
the order of writing, and OnStop leaves no request waiting that was queued before it. -/
theorem requests_completed_once (events : List (RequestEvent β)) (orderly : new.Orderly events) :
    (∀ request, (new.run events).released request ≤ 1) ∧
      (∀ (index request answered : Nat),
        ((new.run events).recorded.take (new.run events).written)[index]? = some request →
        (new.run events).attached[index]? = some answered → answered = request) ∧
      ((new.run events).stopped = true →
        ∀ request < (new.run events).before, (new.run events).released request = 1) := by
  have counted : new.Counted := ⟨fun _ => rfl, fun _ => rfl⟩
  have inOrder : new.InOrder := rfl
  obtain ⟨counted, inOrder⟩ := counted.run inOrder events orderly
  refine ⟨counted.released_le, fun index request answered written attached => ?_,
    fun stopped request early => ?_⟩
  · have inside := (List.getElem?_eq_some_iff.mp attached).1
    rw [getElem?_take] at written
    split at written
    · rw [inOrder, getElem?_append_left inside, attached] at written
      exact Option.some.inj written
    · cases written
  · rw [counted.released, stopped, if_pos rfl, if_pos early]

def twoRequests : List (RequestEvent Unit) :=
  [.queueRequest .echo, .takeRequest false, .willSendReq, .writeMessage, .queueRequest .info,
    .didRecvResponse (.value .echo ()), .onStop]

theorem two_requests_completed :
    (new.run twoRequests).stopped = true ∧ (new.run twoRequests).released 0 = 1 ∧
      (new.run twoRequests).released 1 = 1 := by
  have orderly : new.Orderly twoRequests :=
    ⟨trivial, rfl, trivial, trivial, trivial, rfl, rfl, trivial⟩
  have completed := (requests_completed_once twoRequests orderly).2.2 rfl
  exact ⟨rfl, completed 0 (by decide), completed 1 (by decide)⟩

/-- A response handled after the drain releases its request again. A request in the hands of
the send routine, or passed over for its context, is not released. -/
theorem stop_releases_twice_or_never :
    (new.run ([.queueRequest .echo, .takeRequest false, .willSendReq, .writeMessage, .onStop,
      .didRecvResponse (.value .echo ())] : List (RequestEvent Unit))).released 0 = 2 ∧
    (new.run ([.queueRequest .echo, .takeRequest false, .onStop, .willSendReq] :
      List (RequestEvent Unit))).released 0 = 0 ∧
    (new.run ([.queueRequest .echo, .takeRequest true, .onStop] :
      List (RequestEvent Unit))).released 0 = 0 := by
  decide

end Requests

end Tendermint.ABCI
