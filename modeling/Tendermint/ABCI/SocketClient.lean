import Mathlib

/-!
The socket client of the application interface (abci/client). A caller queues a request and
sets the callback of its ReqRes; the send routine and the receive routine run beside it.
Each event is one critical section of one of the three, so a list of events is one
interleaving. What didRecvResponse does under the mutex of the client is two events, since
the caller needs only the mutex of the ReqRes: it can set the callback in between.
-/

namespace Tendermint.ABCI

open List

inductive Kind where
  | echo
  | flush
  | info
  | deliverTx
  | checkTx
  | commit
  | query
  | initChain
  | beginBlock
  | endBlock
  | applySnapshotChunk
  | loadSnapshotChunk
  | listSnapshots
  | offerSnapshot
  deriving DecidableEq, Repr

def Kind.name : Kind → String
  | .echo => "Echo"
  | .flush => "Flush"
  | .info => "Info"
  | .deliverTx => "DeliverTx"
  | .checkTx => "CheckTx"
  | .commit => "Commit"
  | .query => "Query"
  | .initChain => "InitChain"
  | .beginBlock => "BeginBlock"
  | .endBlock => "EndBlock"
  | .applySnapshotChunk => "ApplySnapshotChunk"
  | .loadSnapshotChunk => "LoadSnapshotChunk"
  | .listSnapshots => "ListSnapshots"
  | .offerSnapshot => "OfferSnapshot"

inductive Response (β : Type) where
  | exception (error : String)
  | value (kind : Kind) (body : β)
  deriving DecidableEq, Repr

def resMatchesReq {β : Type} (request : Kind) : Response β → Bool
  | .exception _ => false
  | .value kind _ => request = kind

structure ReqRes (β γ : Type) where
  request : Kind
  response : Option (Response β)
  done : Bool
  cb : Option γ

def newReqRes {β γ : Type} (request : Kind) : ReqRes β γ := ⟨request, none, false, none⟩

structure Call (β γ : Type) where
  request : Nat
  callback : γ
  response : Option (Response β)
  deriving DecidableEq, Repr

/-- A ReqRes is known by the number of requests created before it. -/
structure SocketClient (β γ : Type) where
  created : Nat
  reqRes : Nat → ReqRes β γ
  reqQueue : List Nat
  reqSent : List Nat
  err : Option String
  resCb : Bool
  -- where the receive routine is: between the global callback and InvokeCallback
  notifying : Option Nat
  -- what the run has seen so far
  sent : List Nat
  received : List (Response β)
  listened : List (Kind × Response β)
  invoked : List Nat
  calls : List (Call β γ)

inductive Event (β γ : Type) where
  | queueRequest (kind : Kind)
  | setCallback (request : Nat) (callback : γ)
  | setResponseCallback
  | dropRequest
  | willSendReq
  | didRecvResponse (response : Response β)
  | invokeCallback
  | stopForError (text : String)
  deriving DecidableEq

namespace SocketClient

variable {β γ : Type}

def new : SocketClient β γ where
  created := 0
  reqRes := fun _ => newReqRes .echo
  reqQueue := []
  reqSent := []
  err := none
  resCb := false
  notifying := none
  sent := []
  received := []
  listened := []
  invoked := []
  calls := []

def queueRequest (client : SocketClient β γ) (kind : Kind) : SocketClient β γ :=
  { client with
    created := client.created + 1
    reqRes := Function.update client.reqRes client.created (newReqRes kind)
    reqQueue := client.reqQueue ++ [client.created] }

def setCallback (client : SocketClient β γ) (request : Nat) (callback : γ) :
    SocketClient β γ :=
  if request < client.created then
    let reqRes := client.reqRes request
    if reqRes.done then
      { client with calls := client.calls ++ [⟨request, callback, reqRes.response⟩] }
    else
      { client with
        reqRes := Function.update client.reqRes request { reqRes with cb := some callback } }
  else client

def dropRequest (client : SocketClient β γ) : SocketClient β γ :=
  { client with reqQueue := client.reqQueue.tail }

def willSendReq (client : SocketClient β γ) : SocketClient β γ :=
  match client.reqQueue with
  | [] => client
  | request :: rest =>
    { client with
      reqQueue := rest
      reqSent := client.reqSent ++ [request]
      sent := client.sent ++ [request] }

def stopForError (client : SocketClient β γ) (text : String) : SocketClient β γ :=
  if client.err.isNone then { client with err := some text } else client

/-- A response that matches goes to the first request that waits. The call of Done is the one
of the wait group: it leaves the flag that SetCallback reads as it is. -/
def takeResponse (client : SocketClient β γ) (request : Nat) (rest : List Nat)
    (response : Response β) : SocketClient β γ :=
  let reqRes := client.reqRes request
  { client with
    reqRes := Function.update client.reqRes request { reqRes with response := some response }
    reqSent := rest
    listened := client.listened ++ if client.resCb then [(reqRes.request, response)] else []
    notifying := some request
    received := client.received ++ [response] }

def didRecvResponse (client : SocketClient β γ) (response : Response β) : SocketClient β γ :=
  match response with
  | .exception error => client.stopForError error
  | .value kind _ =>
    match client.reqSent with
    | [] =>
      client.stopForError ("unexpected *types.Response_" ++ kind.name ++ " when nothing expected")
    | request :: rest =>
      let expected := (client.reqRes request).request
      if resMatchesReq expected response then client.takeResponse request rest response
      else
        client.stopForError ("unexpected *types.Response_" ++ kind.name ++
          " when response to *types.Request_" ++ expected.name ++ " expected")

def invokeCallback (client : SocketClient β γ) : SocketClient β γ :=
  match client.notifying with
  | none => client
  | some request =>
    let reqRes := client.reqRes request
    { client with
      notifying := none
      invoked := client.invoked ++ [request]
      calls := client.calls ++
        (reqRes.cb.map fun callback => ⟨request, callback, reqRes.response⟩).toList }

/-- Both routines are over once the client has an error, and nobody takes the mutex of the
client while the receive routine holds it. -/
def step (client : SocketClient β γ) : Event β γ → SocketClient β γ
  | .queueRequest kind => client.queueRequest kind
  | .setCallback request callback => client.setCallback request callback
  | .setResponseCallback =>
    if client.notifying.isNone then { client with resCb := true } else client
  | .dropRequest => if client.err.isNone then client.dropRequest else client
  | .willSendReq =>
    if client.err.isNone && client.notifying.isNone then client.willSendReq else client
  | .didRecvResponse response =>
    if client.err.isNone && client.notifying.isNone then client.didRecvResponse response
    else client
  | .invokeCallback => client.invokeCallback
  | .stopForError text =>
    if client.notifying.isNone then client.stopForError text else client

def run (client : SocketClient β γ) (events : List (Event β γ)) : SocketClient β γ :=
  events.foldl step client

def callsOf (client : SocketClient β γ) (request : Nat) : List (Call β γ) :=
  client.calls.filter (·.request = request)

/-- The requests whose responses have come, each with its response: the application answers
in the order in which the requests were written. -/
def answered (client : SocketClient β γ) : List (Nat × Response β) :=
  client.sent.zip client.received

def taken (client : SocketClient β γ) : List Nat := client.invoked ++ client.notifying.toList

structure Sound (client : SocketClient β γ) : Prop where
  undone : ∀ request, (client.reqRes request).done = false
  waiting : client.sent = client.taken ++ client.reqSent
  paired : client.received.length = client.taken.length
  once : (client.sent ++ client.reqQueue).Nodup
  known : ∀ request ∈ client.sent ++ client.reqQueue, request < client.created
  stored : ∀ request response, (request, response) ∈ client.taken.zip client.received →
    (client.reqRes request).response = some response
  called : ∀ call ∈ client.calls, call.request ∈ client.invoked ∧
    ∃ response, call.response = some response ∧
      (call.request, response) ∈ client.taken.zip client.received

theorem sound_new : Sound (new : SocketClient β γ) where
  undone := fun _ => rfl
  waiting := rfl
  paired := rfl
  once := nodup_nil
  known := fun _ member => nomatch member
  stored := fun _ _ member => nomatch member
  called := fun _ member => nomatch member

namespace Sound

variable {client : SocketClient β γ}

section

variable (sound : client.Sound)

include sound

theorem answered_eq : client.answered = client.taken.zip client.received := by
  calc client.answered = (client.taken ++ client.reqSent).zip (client.received ++ []) := by
        rw [answered, sound.waiting, append_nil]
    _ = client.taken.zip client.received ++ client.reqSent.zip [] :=
        zip_append sound.paired.symm
    _ = client.taken.zip client.received := by rw [zip_nil_right, append_nil]

variable {request : Nat}

theorem taken_known (member : request ∈ client.taken) :
    request < client.created := by
  apply sound.known
  rw [sound.waiting]
  exact mem_append_left _ (mem_append_left _ member)

theorem queueRequest (kind : Kind) : (client.queueRequest kind).Sound where
  undone := fun request => by
    by_cases fresh : request = client.created
    · subst fresh
      simp [SocketClient.queueRequest, newReqRes]
    · simpa [SocketClient.queueRequest, fresh] using sound.undone request
  waiting := sound.waiting
  paired := sound.paired
  once := by
    have fresh : client.created ∉ client.sent ++ client.reqQueue :=
      fun member => absurd (sound.known _ member) (Nat.lt_irrefl _)
    simpa [SocketClient.queueRequest, ← append_assoc] using
      nodup_append'.mpr ⟨sound.once, nodup_singleton _, disjoint_singleton.mpr fresh⟩
  known := fun request member => by
    rw [SocketClient.queueRequest, ← append_assoc, mem_append] at member
    rcases member with older | fresh
    · exact Nat.lt_succ_of_lt (sound.known request older)
    · rw [mem_singleton.mp fresh]
      exact Nat.lt_succ_self _
  stored := fun request response member => by
    have older := sound.taken_known (of_mem_zip member).1
    have kept := sound.stored request response member
    simpa [SocketClient.queueRequest, Nat.ne_of_lt older] using kept
  called := sound.called

theorem setCallback (request : Nat) (callback : γ) :
    (client.setCallback request callback).Sound := by
  unfold SocketClient.setCallback
  split
  · have undone := sound.undone request
    simp only [undone, Bool.false_eq_true, if_false]
    refine ⟨fun other => ?_, sound.waiting, sound.paired, sound.once, sound.known,
      fun other response member => ?_, sound.called⟩
    · by_cases same : other = request
      · subst same
        simp
      · simpa [same] using sound.undone other
    · have kept := sound.stored other response member
      by_cases same : other = request
      · subst same
        simpa using kept
      · simpa [same] using kept
  · exact sound

theorem dropRequest : client.dropRequest.Sound := by
  have shorter : (client.sent ++ client.reqQueue.tail).Sublist
      (client.sent ++ client.reqQueue) :=
    (tail_sublist _).append_left _
  exact ⟨sound.undone, sound.waiting, sound.paired, sound.once.sublist shorter,
    fun request member => sound.known request (shorter.subset member), sound.stored,
    sound.called⟩

theorem willSendReq : client.willSendReq.Sound := by
  unfold SocketClient.willSendReq
  cases queued : client.reqQueue with
  | nil => exact sound
  | cons request rest =>
  -- the request moves from the queue to the list of sent ones
  have moved : client.sent ++ [request] ++ rest = client.sent ++ client.reqQueue := by
    rw [queued, append_assoc, singleton_append]
  refine ⟨sound.undone, ?_, sound.paired, ?_, ?_, sound.stored, sound.called⟩
  · change client.sent ++ [request] = client.taken ++ (client.reqSent ++ [request])
    rw [sound.waiting, append_assoc]
  · change (client.sent ++ [request] ++ rest).Nodup
    rw [moved]
    exact sound.once
  · change ∀ other ∈ client.sent ++ [request] ++ rest, other < client.created
    rw [moved]
    exact sound.known

theorem stopForError (text : String) : (client.stopForError text).Sound := by
  unfold SocketClient.stopForError
  split
  · exact ⟨sound.undone, sound.waiting, sound.paired, sound.once, sound.known, sound.stored,
      sound.called⟩
  · exact sound

theorem takeResponse (idle : client.notifying = none) {rest : List Nat}
    (first : client.reqSent = request :: rest) (response : Response β) :
    (client.takeResponse request rest response).Sound := by
  have before : client.taken = client.invoked := by simp [taken, idle]
  have after : (client.takeResponse request rest response).taken = client.taken ++ [request] := by
    rw [before]
    rfl
  have waiting := sound.waiting
  rw [first] at waiting
  have fresh : request ∉ client.taken := by
    have apart := (nodup_append'.mp sound.once).1
    rw [waiting] at apart
    exact fun member => (nodup_append'.mp apart).2.2 member mem_cons_self
  have grown : (client.takeResponse request rest response).taken.zip
      (client.takeResponse request rest response).received =
        client.taken.zip client.received ++ [(request, response)] := by
    rw [after]
    exact zip_append sound.paired.symm
  refine ⟨fun other => ?_, ?_, ?_, sound.once, sound.known, fun other answer member => ?_,
    fun call member => ?_⟩
  · by_cases same : other = request
    · subst same
      simpa [SocketClient.takeResponse] using sound.undone other
    · simpa [SocketClient.takeResponse, same] using sound.undone other
  · rw [after, append_assoc]
    exact waiting
  · rw [after, length_append, ← sound.paired]
    exact length_append
  · rw [grown, mem_append, mem_singleton] at member
    rcases member with older | newest
    · have taken := (of_mem_zip older).1
      have other_ne : other ≠ request := fun same => fresh (same ▸ taken)
      simpa [SocketClient.takeResponse, other_ne] using sound.stored other answer older
    · cases newest
      simp [SocketClient.takeResponse]
  · obtain ⟨ended, answer, same, pair⟩ := sound.called call member
    refine ⟨ended, answer, same, ?_⟩
    rw [grown]
    exact mem_append_left _ pair

theorem didRecvResponse (idle : client.notifying = none) (response : Response β) :
    (client.didRecvResponse response).Sound := by
  unfold SocketClient.didRecvResponse
  split
  · exact sound.stopForError _
  · split
    · exact sound.stopForError _
    · rename_i request rest first
      dsimp only
      split
      · exact sound.takeResponse idle first _
      · exact sound.stopForError _

theorem invokeCallback : client.invokeCallback.Sound := by
  unfold SocketClient.invokeCallback
  cases notifying : client.notifying with
  | none => exact sound
  | some request =>
  have taken_eq : client.taken = client.invoked ++ [request] := by
    simp [taken, notifying]
  -- the response in its hands is the last one received
  have answered : ∃ response, (request, response) ∈ client.taken.zip client.received := by
    have inside : request ∈ (client.taken.zip client.received).map Prod.fst := by
      rw [map_fst_zip (Nat.le_of_eq sound.paired.symm), taken_eq]
      exact mem_append_right _ (mem_singleton_self _)
    obtain ⟨pair, member, same⟩ := mem_map.mp inside
    exact ⟨pair.2, same ▸ member⟩
  refine ⟨sound.undone, ?_, ?_, sound.once, sound.known, ?_, ?_⟩
  · simpa [taken, notifying] using sound.waiting
  · simpa [taken, notifying] using sound.paired
  · simpa [taken, notifying] using sound.stored
  · intro call member
    simp only [taken, Option.toList_none, append_nil]
    rw [← taken_eq]
    rcases mem_append.mp member with older | newest
    · obtain ⟨ended, rest⟩ := sound.called call older
      exact ⟨taken_eq ▸ mem_append_left _ ended, rest⟩
    · obtain ⟨response, pair⟩ := answered
      obtain ⟨callback, -, same⟩ := Option.map_eq_some_iff.mp (Option.mem_toList.mp newest)
      rw [← same]
      exact ⟨taken_eq ▸ mem_append_right _ (mem_singleton_self _), response,
        sound.stored request response pair, pair⟩

theorem step (event : Event β γ) : (client.step event).Sound := by
  cases event with
  | queueRequest kind => exact sound.queueRequest kind
  | setCallback request callback => exact sound.setCallback request callback
  | setResponseCallback =>
    rw [SocketClient.step]
    split
    · exact ⟨sound.undone, sound.waiting, sound.paired, sound.once, sound.known, sound.stored,
        sound.called⟩
    · exact sound
  | dropRequest =>
    rw [SocketClient.step]
    split
    · exact sound.dropRequest
    · exact sound
  | willSendReq =>
    rw [SocketClient.step]
    split
    · exact sound.willSendReq
    · exact sound
  | didRecvResponse response =>
    rw [SocketClient.step]
    split
    · rename_i free
      exact sound.didRecvResponse (by simpa using (Bool.and_eq_true_iff.mp free).2) response
    · exact sound
  | invokeCallback => exact sound.invokeCallback
  | stopForError text =>
    rw [SocketClient.step]
    split
    · exact sound.stopForError text
    · exact sound

theorem run (events : List (Event β γ)) : (client.run events).Sound := by
  induction events generalizing client with
  | nil => exact sound
  | cons event rest ih => exact ih (sound.step event)

theorem answered_unique {first second : Response β} (one : (request, first) ∈ client.answered)
    (two : (request, second) ∈ client.answered) :
    first = second := by
  rw [sound.answered_eq] at one two
  exact Option.some.inj ((sound.stored _ _ one).symm.trans (sound.stored _ _ two))

theorem notifying_fresh (notifying : client.notifying = some request) :
    request ∉ client.invoked := by
  have apart := (nodup_append'.mp sound.once).1
  rw [sound.waiting, taken, notifying] at apart
  intro member
  exact (nodup_append'.mp (nodup_append'.mp apart).1).2.2 member (mem_singleton_self request)

end

end Sound

structure Keeps (request : Nat) (client next : SocketClient β γ) : Prop where
  calls : next.calls = client.calls
  invoked : next.invoked = client.invoked
  created : client.created ≤ next.created
  cb : (next.reqRes request).cb = (client.reqRes request).cb ∨
    client.created ≤ request ∧ (next.reqRes request).cb = none

section Steps

variable {client : SocketClient β γ} {request : Nat}

theorem keeps_refl : Keeps request client client :=
  ⟨rfl, rfl, Nat.le_refl _, .inl rfl⟩

theorem keeps_queueRequest (kind : Kind) : Keeps request client (client.queueRequest kind) := by
  refine ⟨rfl, rfl, Nat.le_succ _, ?_⟩
  by_cases fresh : request = client.created
  · subst fresh
    exact .inr ⟨Nat.le_refl _, by simp [queueRequest, newReqRes]⟩
  · exact .inl (by simp [queueRequest, fresh])

theorem setCallback_eq (sound : client.Sound) (known : request < client.created) (callback : γ) :
    client.setCallback request callback =
      { client with
        reqRes := Function.update client.reqRes request
          { client.reqRes request with cb := some callback } } := by
  simp [setCallback, known, sound.undone request]

theorem keeps_setCallback (sound : client.Sound) {changed : Nat} (apart : request ≠ changed)
    (callback : γ) : Keeps request client (client.setCallback changed callback) := by
  by_cases known : changed < client.created
  · rw [setCallback_eq sound known]
    exact ⟨rfl, rfl, Nat.le_refl _, .inl (by simp [apart])⟩
  · rw [setCallback, if_neg known]
    exact keeps_refl

theorem keeps_willSendReq : Keeps request client client.willSendReq := by
  unfold willSendReq
  split <;> exact ⟨rfl, rfl, Nat.le_refl _, .inl rfl⟩

theorem keeps_stopForError (text : String) :
    Keeps request client (client.stopForError text) := by
  unfold stopForError
  split <;> exact ⟨rfl, rfl, Nat.le_refl _, .inl rfl⟩

theorem keeps_takeResponse {taken : Nat} {rest : List Nat} {response : Response β} :
    Keeps request client (client.takeResponse taken rest response) := by
  refine ⟨rfl, rfl, Nat.le_refl _, .inl ?_⟩
  by_cases same : request = taken
  · subst same
    simp [takeResponse]
  · simp [takeResponse, same]

theorem keeps_didRecvResponse (response : Response β) :
    Keeps request client (client.didRecvResponse response) := by
  unfold didRecvResponse
  split
  · exact keeps_stopForError _
  · split
    · exact keeps_stopForError _
    · dsimp only
      split
      · exact keeps_takeResponse
      · exact keeps_stopForError _

/-- Only InvokeCallback calls a callback, as no ReqRes is ever done. -/
theorem step_keeps (sound : client.Sound) {event : Event β γ} (quiet : event ≠ .invokeCallback)
    (unset : ∀ callback, event ≠ .setCallback request callback) :
    Keeps request client (client.step event) := by
  cases event with
  | queueRequest kind => exact keeps_queueRequest kind
  | setCallback changed callback =>
    exact keeps_setCallback sound (fun same => unset callback (by rw [same])) callback
  | setResponseCallback =>
    rw [step]
    split <;> exact ⟨rfl, rfl, Nat.le_refl _, .inl rfl⟩
  | dropRequest =>
    rw [step]
    split <;> exact ⟨rfl, rfl, Nat.le_refl _, .inl rfl⟩
  | willSendReq =>
    rw [step]
    split
    · exact keeps_willSendReq
    · exact keeps_refl
  | didRecvResponse response =>
    rw [step]
    split
    · exact keeps_didRecvResponse response
    · exact keeps_refl
  | invokeCallback => exact absurd rfl quiet
  | stopForError text =>
    rw [step]
    split
    · exact keeps_stopForError text
    · exact keeps_refl

theorem Keeps.callsOf {next : SocketClient β γ} (keeps : Keeps request client next) :
    next.callsOf request = client.callsOf request := by
  rw [SocketClient.callsOf, keeps.calls, SocketClient.callsOf]

def added (client : SocketClient β γ) (request : Nat) : List (Call β γ) :=
  if client.notifying = some request then
    ((client.reqRes request).cb.map fun callback =>
      ⟨request, callback, (client.reqRes request).response⟩).toList
  else []

theorem invokeCallback_callsOf :
    client.invokeCallback.callsOf request = client.callsOf request ++ client.added request := by
  cases notifying : client.notifying with
  | none => simp [invokeCallback, added, notifying]
  | some taken =>
  simp only [invokeCallback, added, notifying, callsOf, filter_append]
  by_cases same : taken = request
  · subst same
    cases (client.reqRes taken).cb <;> simp
  · cases (client.reqRes taken).cb <;> simp [same]

theorem invokeCallback_invoked :
    client.invokeCallback.invoked = client.invoked ++ client.notifying.toList := by
  cases notifying : client.notifying with
  | none => simp [invokeCallback, notifying]
  | some taken => simp [invokeCallback, notifying]

theorem invokeCallback_reqRes : client.invokeCallback.reqRes = client.reqRes := by
  unfold invokeCallback
  split <;> rfl

theorem invokeCallback_created : client.invokeCallback.created = client.created := by
  unfold invokeCallback
  split <;> rfl

end Steps

def Unset (request : Nat) (client : SocketClient β γ) : Prop :=
  (client.reqRes request).cb = none ∧ client.callsOf request = []

def Closed (request : Nat) (calls : List (Call β γ)) (client : SocketClient β γ) : Prop :=
  request ∈ client.invoked ∧ client.callsOf request = calls

/-- The callback is stored; it is called as soon as InvokeCallback runs, and then once. -/
structure Armed (request : Nat) (callback : γ) (client : SocketClient β γ) : Prop where
  known : request < client.created
  cb : (client.reqRes request).cb = some callback
  calls : (client.callsOf request).map (·.callback) =
    if request ∈ client.invoked then [callback] else []

section Watch

variable {client : SocketClient β γ} {request : Nat}

theorem Unset.step (unset : Unset request client) (sound : client.Sound) (event : Event β γ)
    (other : ∀ callback, event ≠ .setCallback request callback) :
    Unset request (client.step event) := by
  by_cases invoke : event = .invokeCallback
  · subst invoke
    refine ⟨?_, ?_⟩
    · rw [SocketClient.step, invokeCallback_reqRes]
      exact unset.1
    · rw [SocketClient.step, invokeCallback_callsOf, unset.2]
      simp [added, unset.1]
  · have keeps := step_keeps sound invoke other
    refine ⟨?_, keeps.callsOf.trans unset.2⟩
    rcases keeps.cb with same | ⟨-, none⟩
    · exact same.trans unset.1
    · exact none

theorem Closed.step {calls : List (Call β γ)} (closed : Closed request calls client)
    (sound : client.Sound) (event : Event β γ) : Closed request calls (client.step event) := by
  by_cases invoke : event = .invokeCallback
  · subst invoke
    refine ⟨?_, ?_⟩
    · rw [SocketClient.step, invokeCallback_invoked]
      exact mem_append_left _ closed.1
    · have elsewhere : client.notifying ≠ some request :=
        fun notifying => sound.notifying_fresh notifying closed.1
      rw [SocketClient.step, invokeCallback_callsOf, closed.2, added, if_neg elsewhere, append_nil]
  · by_cases set : ∃ callback, event = .setCallback request callback
    · obtain ⟨callback, rfl⟩ := set
      rw [SocketClient.step]
      by_cases known : request < client.created
      · rw [setCallback_eq sound known]
        exact closed
      · rw [setCallback, if_neg known]
        exact closed
    · have keeps := step_keeps sound invoke (fun callback same => set ⟨callback, same⟩)
      exact ⟨keeps.invoked ▸ closed.1, keeps.callsOf.trans closed.2⟩

variable {callback : γ}

theorem Armed.step (armed : Armed request callback client) (sound : client.Sound)
    (event : Event β γ) (other : ∀ callback, event ≠ .setCallback request callback) :
    Armed request callback (client.step event) := by
  by_cases invoke : event = .invokeCallback
  · subst invoke
    rw [SocketClient.step]
    refine ⟨invokeCallback_created.symm ▸ armed.known, invokeCallback_reqRes.symm ▸ armed.cb, ?_⟩
    rw [invokeCallback_callsOf, invokeCallback_invoked, map_append, armed.calls]
    by_cases mine : client.notifying = some request
    · have fresh := sound.notifying_fresh mine
      simp [added, mine, fresh, armed.cb]
    · have apart : request ∉ client.notifying.toList :=
        fun member => mine (Option.mem_toList.mp member)
      simp [added, mine, apart]
  · have keeps := step_keeps sound invoke other
    refine ⟨Nat.lt_of_lt_of_le armed.known keeps.created, ?_, ?_⟩
    · rcases keeps.cb with same | ⟨fresh, -⟩
      · exact same.trans armed.cb
      · exact absurd armed.known (Nat.not_lt.mpr fresh)
    · rw [keeps.callsOf, keeps.invoked]
      exact armed.calls

theorem Unset.run (events : List (Event β γ)) (unset : Unset request client)
    (sound : client.Sound) (other : ∀ callback, .setCallback request callback ∉ events) :
    Unset request (client.run events) := by
  induction events generalizing client with
  | nil => exact unset
  | cons event rest ih =>
  have first : ∀ callback, event ≠ .setCallback request callback :=
    fun callback same => other callback (same ▸ mem_cons_self)
  exact ih (unset.step sound event first) (sound.step event)
    fun callback member => other callback (mem_cons_of_mem _ member)

theorem Closed.run {calls : List (Call β γ)} (events : List (Event β γ))
    (closed : Closed request calls client) (sound : client.Sound) :
    Closed request calls (client.run events) := by
  induction events generalizing client with
  | nil => exact closed
  | cons event rest ih => exact ih (closed.step sound event) (sound.step event)

theorem Armed.run (events : List (Event β γ)) (armed : Armed request callback client)
    (sound : client.Sound) (other : ∀ callback, .setCallback request callback ∉ events) :
    Armed request callback (client.run events) := by
  induction events generalizing client with
  | nil => exact armed
  | cons event rest ih =>
  have first : ∀ callback, event ≠ .setCallback request callback :=
    fun callback same => other callback (same ▸ mem_cons_self)
  exact ih (armed.step sound event first) (sound.step event)
    fun callback member => other callback (mem_cons_of_mem _ member)

theorem Armed.called {response : Response β} (armed : Armed request callback client)
    (sound : client.Sound) (invoked : request ∈ client.invoked)
    (answered : (request, response) ∈ client.answered) :
    client.callsOf request = [⟨request, callback, some response⟩] := by
  have calls := armed.calls
  rw [if_pos invoked] at calls
  obtain ⟨call, listed, same⟩ := map_eq_singleton_iff.mp calls
  have member : call ∈ client.callsOf request := by
    rw [listed]
    exact mem_singleton_self call
  obtain ⟨inside, about⟩ := mem_filter.mp member
  have about : call.request = request := of_decide_eq_true about
  obtain ⟨-, other, text, pair⟩ := sound.called call inside
  rw [about, ← sound.answered_eq] at pair
  rw [listed, sound.answered_unique answered pair, ← text, ← same, ← about]

end Watch

/-- A callback that is set once is called exactly once with the response of its request, in
the interleavings in which SetCallback comes before InvokeCallback, and in no other. -/
theorem callback_called_once_iff (before after : List (Event β γ)) (request : Nat) (callback : γ)
    (response : Response β) (created : request < (new.run before : SocketClient β γ).created)
    (first : ∀ other, .setCallback request other ∉ before)
    (last : ∀ other, .setCallback request other ∉ after)
    (answered : (request, response) ∈
      (new.run (before ++ .setCallback request callback :: after)).answered)
    (returned : request ∈ (new.run (before ++ .setCallback request callback :: after)).invoked) :
    (new.run (before ++ .setCallback request callback :: after)).callsOf request =
        [⟨request, callback, some response⟩] ↔
      request ∉ (new.run before).invoked := by
  have sound : (new.run before : SocketClient β γ).Sound := sound_new.run before
  have unset : Unset request (new.run before : SocketClient β γ) :=
    Unset.run before ⟨rfl, rfl⟩ sound_new first
  have split : new.run (before ++ .setCallback request callback :: after) =
      ((new.run before).step (.setCallback request callback)).run after := by
    simp [run, foldl_append]
  rw [split] at answered returned ⊢
  have next := sound.step (.setCallback request callback)
  constructor
  · intro called already
    -- the callback is stored after the only place that reads it
    have closed : Closed request [] (new.run before : SocketClient β γ) := ⟨already, unset.2⟩
    have none := (Closed.run after (closed.step sound _) next).2
    rw [called] at none
    cases none
  · intro early
    have armed : Armed request callback
        ((new.run before).step (.setCallback request callback)) := by
      rw [step, setCallback_eq sound created]
      refine ⟨created, by simp, ?_⟩
      have empty : ((new.run before : SocketClient β γ).callsOf request).map (·.callback) = [] := by
        rw [unset.2, map_nil]
      exact empty.trans (if_neg early).symm
    exact (armed.run after next last).called (next.run after) returned answered

theorem prompt_callback_called :
    (new.run ([.queueRequest .checkTx, .willSendReq] ++ .setCallback 0 7 ::
        [.didRecvResponse (.value .checkTx 5), .invokeCallback]) :
          SocketClient Nat Nat).callsOf 0 = [⟨0, 7, some (.value .checkTx 5)⟩] :=
  (callback_called_once_iff _ _ 0 7 _ (by decide) (by simp) (by simp) (by decide)
    (by decide)).mpr (by decide)

/-- The response comes while CheckTx has not set the callback yet: it is never called. -/
theorem late_callback_lost :
    let events : List (Event Nat Nat) := [.queueRequest .checkTx, .willSendReq,
      .didRecvResponse (.value .checkTx 5), .invokeCallback, .setCallback 0 7]
    (0, Response.value .checkTx 5) ∈ (new.run events).answered ∧
      ∀ later, (new.run (events ++ later)).callsOf 0 = [] := by
  intro events
  refine ⟨by decide, fun later => ?_⟩
  have sound : (new.run events : SocketClient Nat Nat).Sound := sound_new.run events
  have closed : Closed 0 [] (new.run events : SocketClient Nat Nat) := ⟨by decide, by decide⟩
  have split : (new.run (events ++ later) : SocketClient Nat Nat) = (new.run events).run later :=
    foldl_append
  rw [split]
  exact (Closed.run later closed sound).2

end SocketClient

end Tendermint.ABCI
