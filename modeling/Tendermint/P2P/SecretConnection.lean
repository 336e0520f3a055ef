import Tendermint.Types.Canonical

/-!
internal/p2p/conn/secret_connection.go after the handshake: the two ends of a
connection and the bytes between them. The AEAD is ideal: a ciphertext opens if it is
in the table of what was sealed under the same key and nonce. Whoever controls the
connection hands any bytes to a Read. A Write is a sequence of sealed chunks, so the
other end may read between two of them.
-/

namespace Tendermint.P2P

open Types List
open Wire (putFixed getFixed)

def dataLenSize : Nat := 4
def dataMaxSize : Nat := 1024
def totalFrameSize : Nat := dataMaxSize + dataLenSize
def aeadSizeOverhead : Nat := 16
def aeadKeySize : Nat := 32

structure Aead where
  sealWith : Bytes → Bytes → Bytes → Bytes
  overhead : ∀ key nonce plaintext,
    (sealWith key nonce plaintext).length = aeadSizeOverhead + plaintext.length

structure Sealed where
  key : Bytes
  nonce : Bytes
  plaintext : Bytes
  ciphertext : Bytes
  deriving DecidableEq

def openSealed (table : List Sealed) (key nonce ciphertext : Bytes) : Option Bytes :=
  (table.find? fun entry =>
    entry.key = key ∧ entry.nonce = nonce ∧ entry.ciphertext = ciphertext).map (·.plaintext)

/-- The receiving and the sending key, from what HKDF expands the shared secret to. -/
def deriveSecrets (res : Bytes) (locIsLeast : Bool) : Bytes × Bytes :=
  if locIsLeast then (res.take aeadKeySize, (res.drop aeadKeySize).take aeadKeySize)
  else ((res.drop aeadKeySize).take aeadKeySize, res.take aeadKeySize)

def incrNonce (nonce : Bytes) : Panics Bytes :=
  match getFixed 8 (nonce.drop 4) with
  | none => .error "index out of range"
  | some (counter, _) =>
    if counter = 2 ^ 64 - 1 then .error "can't increase nonce without overflow"
    else .ok (nonce.take 4 ++ putFixed 8 (counter + 1))

structure SecretConnection where
  recvKey : Bytes
  sendKey : Bytes
  recvBuffer : Bytes
  recvNonce : Bytes
  sendNonce : Bytes

/-- Data of a Write that its loop still has to send. -/
abbrev Unsent := { data : Bytes // data ≠ [] }

def unsent (data : Bytes) : List Unsent := if some : data ≠ [] then [⟨data, some⟩] else []

structure Endpoint where
  conn : SecretConnection
  /-- What is left of the data of the Writes, in the order in which they get the lock. -/
  outgoing : List Unsent
  written : Bytes
  read : Bytes
  wire : Bytes
  sendPanicked : Bool
  recvPanicked : Bool

/-- The frame of a chunk; the rest of the pooled buffer is as it was. -/
def frameOf (stale : Nat → UInt8) (chunk : Bytes) : Bytes :=
  putFixed 4 chunk.length ++ (chunk ++
    (List.range (dataMaxSize - chunk.length)).map fun index =>
      stale (dataLenSize + chunk.length + index))

/-- What the connection below gives to a Read. -/
inductive Delivery where
  | undisturbed
  /-- An error, or a frame of any bytes. -/
  | adversary (sealedFrame : Option Bytes)

inductive ConnEvent where
  | write (data : Bytes)
  /-- The loop of Write seals its next chunk and may fail to send it. -/
  | sealNext (stale : Nat → UInt8) (connErr : Bool)
  | read (size : Nat) (delivery : Delivery)

namespace Endpoint

def write (endpoint : Endpoint) (data : Bytes) : Endpoint :=
  { endpoint with outgoing := endpoint.outgoing ++ unsent data }

def nextChunk (endpoint : Endpoint) : Bytes :=
  match endpoint.outgoing with
  | [] => []
  | data :: _ => data.1.take dataMaxSize

/-- What is left once a chunk is sealed. A Write whose connection fails returns. -/
def afterSeal (connErr : Bool) : List Unsent → List Unsent
  | [] => []
  | data :: later => (if connErr then [] else unsent (data.1.drop dataMaxSize)) ++ later

def nextSealed (aead : Aead) (endpoint : Endpoint) (stale : Nat → UInt8) : Sealed where
  key := endpoint.conn.sendKey
  nonce := endpoint.conn.sendNonce
  plaintext := frameOf stale endpoint.nextChunk
  ciphertext := aead.sealWith endpoint.conn.sendKey endpoint.conn.sendNonce
    (frameOf stale endpoint.nextChunk)

def afterChunk (aead : Aead) (endpoint : Endpoint) (stale : Nat → UInt8) (connErr : Bool)
    (sendNonce : Bytes) : Endpoint :=
  { endpoint with
    conn := { endpoint.conn with sendNonce }
    outgoing := afterSeal connErr endpoint.outgoing
    written := endpoint.written ++ endpoint.nextChunk
    wire := if connErr then endpoint.wire
      else endpoint.wire ++ (endpoint.nextSealed aead stale).ciphertext }

def sealChunk (aead : Aead) (endpoint : Endpoint) (stale : Nat → UInt8) (connErr : Bool) :
    Endpoint × List Sealed :=
  if endpoint.outgoing = [] ∨ endpoint.sendPanicked then (endpoint, [])
  else match incrNonce endpoint.conn.sendNonce with
    | .error _ => ({ endpoint with sendPanicked := true }, [endpoint.nextSealed aead stale])
    | .ok sendNonce =>
      (endpoint.afterChunk aead stale connErr sendNonce, [endpoint.nextSealed aead stale])

def readBuffer (endpoint : Endpoint) (size : Nat) : Endpoint :=
  { endpoint with
    conn := { endpoint.conn with recvBuffer := endpoint.conn.recvBuffer.drop size }
    read := endpoint.read ++ endpoint.conn.recvBuffer.take size }

def readFrame (endpoint : Endpoint) (table : List Sealed) (size : Nat) (sealedFrame : Bytes) :
    Endpoint :=
  match openSealed table endpoint.conn.recvKey endpoint.conn.recvNonce sealedFrame with
  | none => endpoint
  | some frame =>
    match incrNonce endpoint.conn.recvNonce with
    | .error _ => { endpoint with recvPanicked := true }
    | .ok recvNonce =>
      let endpoint := { endpoint with conn := { endpoint.conn with recvNonce } }
      match getFixed 4 frame with
      | none => { endpoint with recvPanicked := true }
      | some (chunkLength, rest) =>
        if dataMaxSize < chunkLength then endpoint
        else
          let chunk := rest.take chunkLength
          { endpoint with
            conn := { endpoint.conn with recvBuffer := chunk.drop size }
            read := endpoint.read ++ chunk.take size }

end Endpoint

/-- The end whose ephemeral key is the least is `true`. -/
structure Connection where
  ends : Bool → Endpoint
  table : List Sealed

namespace Connection

def new (res : Bytes) : Connection where
  ends locIsLeast :=
    { conn :=
        { recvKey := (deriveSecrets res locIsLeast).1
          sendKey := (deriveSecrets res locIsLeast).2
          recvBuffer := []
          recvNonce := List.replicate 12 0
          sendNonce := List.replicate 12 0 }
      outgoing := []
      written := []
      read := []
      wire := []
      sendPanicked := false
      recvPanicked := false }
  table := []

def set (connection : Connection) (side : Bool) (endpoint : Endpoint) : Connection :=
  { connection with ends := Function.update connection.ends side endpoint }

def sealNext (aead : Aead) (connection : Connection) (side : Bool) (stale : Nat → UInt8)
    (connErr : Bool) : Connection :=
  let done := (connection.ends side).sealChunk aead stale connErr
  { connection.set side done.1 with table := connection.table ++ done.2 }

def read (connection : Connection) (side : Bool) (size : Nat) (delivery : Delivery) : Connection :=
  let endpoint := connection.ends side
  let other := connection.ends !side
  if endpoint.recvPanicked then connection
  else if endpoint.conn.recvBuffer ≠ [] then connection.set side (endpoint.readBuffer size)
  else match delivery with
    | .adversary none => connection
    | .adversary (some sealedFrame) =>
      connection.set side (endpoint.readFrame connection.table size sealedFrame)
    | .undisturbed =>
      -- ReadFull waits for a whole frame
      if other.wire.length < aeadSizeOverhead + totalFrameSize then connection
      else
        let sealedFrame := other.wire.take (aeadSizeOverhead + totalFrameSize)
        let other := { other with wire := other.wire.drop (aeadSizeOverhead + totalFrameSize) }
        (connection.set (!side) other).set side
          (endpoint.readFrame connection.table size sealedFrame)

def step (aead : Aead) (connection : Connection) : Bool × ConnEvent → Connection
  | (side, .write data) => connection.set side ((connection.ends side).write data)
  | (side, .sealNext stale connErr) => connection.sealNext aead side stale connErr
  | (side, .read size delivery) => connection.read side size delivery

def run (aead : Aead) (connection : Connection) (events : List (Bool × ConnEvent)) : Connection :=
  events.foldl (step aead) connection

end Connection

theorem Endpoint.next_chunk_le (endpoint : Endpoint) :
    endpoint.nextChunk.length ≤ dataMaxSize := by
  unfold nextChunk
  split
  · exact Nat.zero_le _
  · exact length_take_le ..

/-! ### Frames and nonces -/

def nonceOf (counter : Nat) : Bytes := List.replicate 4 0 ++ putFixed 8 counter

theorem incr_nonce_of (counter : Nat) (small : counter < 2 ^ 64) :
    incrNonce (nonceOf counter) =
      if counter = 2 ^ 64 - 1 then .error "can't increase nonce without overflow"
      else .ok (nonceOf (counter + 1)) := by
  have read : getFixed 8 ((nonceOf counter).drop 4) = some (counter, []) := by
    have found := Wire.get_put_fixed 8 counter [] (by omega)
    exact found
  unfold incrNonce
  rw [read]
  rfl

theorem nonce_of_injective {first second : Nat} (firstSmall : first < 2 ^ 64)
    (secondSmall : second < 2 ^ 64) (same : nonceOf first = nonceOf second) : first = second := by
  have words := append_cancel_left same
  have left := Wire.get_put_fixed 8 first [] (by omega)
  rw [words, Wire.get_put_fixed 8 second [] (by omega)] at left
  exact (congrArg Prod.fst (Option.some.inj left)).symm

theorem get_frame_of (stale : Nat → UInt8) {chunk : Bytes} (small : chunk.length ≤ dataMaxSize) :
    ∃ rest, getFixed 4 (frameOf stale chunk) = some (chunk.length, rest) ∧
      rest.take chunk.length = chunk := by
  refine ⟨_, Wire.get_put_fixed 4 chunk.length _ (by unfold dataMaxSize at small; omega), ?_⟩
  exact take_left

theorem frame_of_length (stale : Nat → UInt8) (chunk : Bytes)
    (small : chunk.length ≤ dataMaxSize) : (frameOf stale chunk).length = totalFrameSize := by
  unfold frameOf totalFrameSize dataLenSize
  rw [length_append, length_append, length_map, length_range, Wire.put_fixed_length]
  omega

/-! ### One direction -/

/-- The frames from a sender to a receiver: `chunks` are what was sealed, of which the
receiver has opened the first `count`. -/
structure Flow (sender receiver : Endpoint) (table : List Sealed) (chunks : List Bytes)
    (count : Nat) : Prop where
  keys : receiver.conn.recvKey = sender.conn.sendKey
  sendNonce : sender.conn.sendNonce = nonceOf chunks.length
  small : chunks.length < 2 ^ 64
  sizes : ∀ chunk ∈ chunks, chunk ≠ [] ∧ chunk.length ≤ dataMaxSize
  written : sender.written = chunks.flatten
  sealed : ∀ entry ∈ table, entry.key = sender.conn.sendKey → ∃ index,
    entry.nonce = nonceOf index ∧
      ((∃ stale chunk, chunks[index]? = some chunk ∧ entry.plaintext = frameOf stale chunk) ∨
        (index = chunks.length ∧ index = 2 ^ 64 - 1 ∧ sender.sendPanicked = true))
  recvNonce : receiver.conn.recvNonce = nonceOf count
  opened : count ≤ chunks.length
  read : receiver.read ++ receiver.conn.recvBuffer = (chunks.take count).flatten

namespace Flow

variable {sender receiver : Endpoint} {table : List Sealed} {chunks : List Bytes} {count : Nat}

section

variable (flow : Flow sender receiver table chunks count)

include flow

theorem read_prefix : receiver.read <+: sender.written := by
  have opened : (chunks.take count).flatten <+: chunks.flatten := by
    refine ⟨(chunks.drop count).flatten, ?_⟩
    rw [← flatten_append, take_append_drop]
  rw [flow.written]
  exact (flow.read ▸ prefix_append _ _).trans opened

theorem congr {sender' receiver' : Endpoint}
    (sendKey : sender'.conn.sendKey = sender.conn.sendKey)
    (sendNonce : sender'.conn.sendNonce = sender.conn.sendNonce)
    (written : sender'.written = sender.written)
    (panicked : sender'.sendPanicked = sender.sendPanicked)
    (recvKey : receiver'.conn.recvKey = receiver.conn.recvKey)
    (recvNonce : receiver'.conn.recvNonce = receiver.conn.recvNonce)
    (recvBuffer : receiver'.conn.recvBuffer = receiver.conn.recvBuffer)
    (read : receiver'.read = receiver.read) : Flow sender' receiver' table chunks count where
  keys := by rw [recvKey, sendKey, flow.keys]
  sendNonce := sendNonce.trans flow.sendNonce
  small := flow.small
  sizes := flow.sizes
  written := written.trans flow.written
  sealed := by
    rw [sendKey, panicked]
    exact flow.sealed
  recvNonce := recvNonce.trans flow.recvNonce
  opened := flow.opened
  read := by rw [read, recvBuffer, flow.read]

theorem other_key (entries : List Sealed)
    (other : ∀ entry ∈ entries, entry.key ≠ sender.conn.sendKey) :
    Flow sender receiver (table ++ entries) chunks count :=
  { flow with
    sealed := fun entry member same => by
      rcases mem_append.mp member with before | added
      · exact flow.sealed entry before same
      · exact absurd same (other entry added) }

theorem nonce_fresh (running : sender.sendPanicked = false) (entry : Sealed)
    (member : entry ∈ table) (same : entry.key = sender.conn.sendKey) :
    entry.nonce ≠ sender.conn.sendNonce := by
  intro reused
  obtain ⟨index, nonce, chunk | ⟨_, _, panicked⟩⟩ := flow.sealed entry member same
  · obtain ⟨stale, chunk, found, _⟩ := chunk
    have inside : index < chunks.length := (List.getElem?_eq_some_iff.mp found).1
    rw [nonce, flow.sendNonce] at reused
    have := nonce_of_injective (by have := flow.small; omega) flow.small reused
    omega
  · rw [running] at panicked
    cases panicked

end

section

variable (aead : Aead) (flow : Flow sender receiver table chunks count)

include aead flow

/-- What a round of Write comes to: nothing is left to write, the last nonce is used up and
the session ends, or a chunk is sealed. -/
theorem seal_chunk_cases (stale : Nat → UInt8) (connErr : Bool) :
    sender.sealChunk aead stale connErr = (sender, []) ∨
      (sender.sendPanicked = false ∧
        ((chunks.length = 2 ^ 64 - 1 ∧ sender.sealChunk aead stale connErr =
          ({ sender with sendPanicked := true }, [sender.nextSealed aead stale])) ∨
        (chunks.length < 2 ^ 64 - 1 ∧ sender.nextChunk ≠ [] ∧ sender.sealChunk aead stale connErr =
          (sender.afterChunk aead stale connErr (nonceOf (chunks.length + 1)),
            [sender.nextSealed aead stale])))) := by
  unfold Endpoint.sealChunk
  split
  · exact .inl rfl
  rename_i active
  rw [not_or, Bool.not_eq_true] at active
  have nonempty : sender.nextChunk ≠ [] := by
    obtain ⟨data, later, pending⟩ := exists_cons_of_ne_nil active.1
    rw [Endpoint.nextChunk, pending]
    intro empty
    exact (take_eq_nil_iff.mp empty).elim (by decide) data.2
  have few := flow.small
  rw [flow.sendNonce, incr_nonce_of chunks.length few]
  by_cases last : chunks.length = 2 ^ 64 - 1
  · rw [if_pos last]
    exact .inr ⟨active.2, .inl ⟨last, rfl⟩⟩
  · rw [if_neg last]
    exact .inr ⟨active.2, .inr ⟨by omega, nonempty, rfl⟩⟩

theorem seal_last (running : sender.sendPanicked = false) (last : chunks.length = 2 ^ 64 - 1)
    (stale : Nat → UInt8) :
    Flow { sender with sendPanicked := true } receiver
      (table ++ [sender.nextSealed aead stale]) chunks count :=
  { flow with
    sealed := fun entry member same => by
      rcases mem_append.mp member with before | added
      · obtain ⟨index, nonce, chunk | ⟨_, _, panicked⟩⟩ := flow.sealed entry before same
        · exact ⟨index, nonce, .inl chunk⟩
        · rw [running] at panicked
          cases panicked
      · rw [mem_singleton] at added
        subst added
        exact ⟨chunks.length, flow.sendNonce, .inr ⟨rfl, last, rfl⟩⟩ }

theorem seal_next (running : sender.sendPanicked = false) (room : chunks.length < 2 ^ 64 - 1)
    (nonempty : sender.nextChunk ≠ []) (stale : Nat → UInt8) (connErr : Bool) :
    Flow (sender.afterChunk aead stale connErr (nonceOf (chunks.length + 1))) receiver
      (table ++ [sender.nextSealed aead stale]) (chunks ++ [sender.nextChunk]) count where
  keys := flow.keys
  sendNonce := by
    rw [length_append, length_singleton]
    rfl
  small := by
    rw [length_append, length_singleton]
    omega
  sizes chunk member := by
    rcases mem_append.mp member with before | added
    · exact flow.sizes chunk before
    · rw [mem_singleton] at added
      subst added
      exact ⟨nonempty, sender.next_chunk_le⟩
  written := by simp [Endpoint.afterChunk, flow.written]
  sealed entry member same := by
    rcases mem_append.mp member with before | added
    · obtain ⟨index, nonce, ⟨stale, chunk, found, plaintext⟩ | ⟨_, _, panicked⟩⟩ :=
        flow.sealed entry before same
      · have inside := (List.getElem?_eq_some_iff.mp found).1
        exact ⟨index, nonce, .inl ⟨stale, chunk,
          (getElem?_append_left inside).trans found, plaintext⟩⟩
      · rw [running] at panicked
        cases panicked
    · rw [mem_singleton] at added
      subst added
      exact ⟨chunks.length, flow.sendNonce, .inl ⟨stale, _, getElem?_concat_length, rfl⟩⟩
  recvNonce := flow.recvNonce
  opened := by
    rw [length_append]
    exact flow.opened.trans (Nat.le_add_right ..)
  read := by rw [take_append_of_le_length flow.opened, flow.read]

theorem seal_chunk (stale : Nat → UInt8) (connErr : Bool) :
    ∃ chunks', Flow (sender.sealChunk aead stale connErr).1 receiver
      (table ++ (sender.sealChunk aead stale connErr).2) chunks' count := by
  rcases flow.seal_chunk_cases aead stale connErr with
    same | ⟨running, ⟨last, same⟩ | ⟨room, nonempty, same⟩⟩
  · rw [same, append_nil]
    exact ⟨chunks, flow⟩
  · rw [same]
    exact ⟨chunks, flow.seal_last aead running last stale⟩
  · rw [same]
    exact ⟨_, flow.seal_next aead running room nonempty stale connErr⟩

end

theorem read_buffer (flow : Flow sender receiver table chunks count) (size : Nat) :
    Flow sender (receiver.readBuffer size) table chunks count :=
  { flow with
    read := by
      show (receiver.read ++ receiver.conn.recvBuffer.take size) ++
        receiver.conn.recvBuffer.drop size = _
      rw [append_assoc, take_append_drop, flow.read] }

/-- What opens under the next nonce is the frame of the next chunk, or of the last nonce. -/
theorem opens (flow : Flow sender receiver table chunks count) {sealedFrame frame : Bytes}
    (opened : openSealed table receiver.conn.recvKey receiver.conn.recvNonce sealedFrame =
      some frame) :
    (∃ stale chunk, chunks[count]? = some chunk ∧ frame = frameOf stale chunk) ∨
      count = 2 ^ 64 - 1 := by
  obtain ⟨entry, found, plaintext⟩ := Option.map_eq_some_iff.mp opened
  have member := mem_of_find?_eq_some found
  have hit := find?_some found
  simp only [Bool.decide_and, Bool.and_eq_true, decide_eq_true_eq] at hit
  obtain ⟨index, nonce, cases⟩ := flow.sealed entry member (hit.1.trans flow.keys)
  have bound := flow.opened
  have few := flow.small
  have same : index = count := by
    refine nonce_of_injective ?_ (by omega) ?_
    · rcases cases with ⟨_, _, inside, _⟩ | ⟨_, last, _⟩
      · have := (List.getElem?_eq_some_iff.mp inside).1
        omega
      · omega
    · rw [← nonce, hit.2.1, flow.recvNonce]
  subst same
  rcases cases with ⟨stale, chunk, inside, frame⟩ | ⟨_, last, _⟩
  · exact .inl ⟨stale, chunk, inside, plaintext.symm.trans frame⟩
  · exact .inr last

def received (receiver : Endpoint) (size : Nat) (chunk recvNonce : Bytes) : Endpoint :=
  { receiver with
    conn := { receiver.conn with recvNonce, recvBuffer := chunk.drop size }
    read := receiver.read ++ chunk.take size }

theorem read_next (flow : Flow sender receiver table chunks count)
    (empty : receiver.conn.recvBuffer = []) (size : Nat) {sealedFrame chunk : Bytes}
    {stale : Nat → UInt8} (next : chunks[count]? = some chunk)
    (opened : openSealed table receiver.conn.recvKey receiver.conn.recvNonce sealedFrame =
      some (frameOf stale chunk)) :
    receiver.readFrame table size sealedFrame = received receiver size chunk (nonceOf (count + 1)) ∧
      Flow sender (received receiver size chunk (nonceOf (count + 1))) table chunks
        (count + 1) := by
  have inside := (List.getElem?_eq_some_iff.mp next).1
  have few := flow.small
  have small := (flow.sizes chunk (mem_of_getElem? next)).2
  obtain ⟨rest, read, taken⟩ := get_frame_of stale small
  constructor
  · unfold Endpoint.readFrame
    rw [opened]
    dsimp only
    rw [flow.recvNonce, incr_nonce_of count (by omega), if_neg (by omega)]
    rw [read]
    dsimp only
    rw [if_neg (not_lt.mpr small), taken]
    rfl
  · refine { flow with recvNonce := rfl, opened := inside, read := ?_ }
    have before := flow.read
    rw [empty, append_nil] at before
    show (receiver.read ++ chunk.take size) ++ chunk.drop size = _
    rw [append_assoc, take_append_drop, before, take_add_one, next]
    simp

theorem read_frame (flow : Flow sender receiver table chunks count)
    (empty : receiver.conn.recvBuffer = []) (size : Nat) (sealedFrame : Bytes) :
    ∃ count', Flow sender (receiver.readFrame table size sealedFrame) table chunks count' := by
  cases opened : openSealed table receiver.conn.recvKey receiver.conn.recvNonce sealedFrame with
  | none =>
    refine ⟨count, ?_⟩
    unfold Endpoint.readFrame
    rw [opened]
    exact flow
  | some frame =>
    rcases flow.opens opened with ⟨stale, chunk, next, rfl⟩ | last
    · have read := flow.read_next empty size next opened
      exact ⟨count + 1, read.1 ▸ read.2⟩
    · refine ⟨count, ?_⟩
      unfold Endpoint.readFrame
      rw [opened]
      rw [flow.recvNonce, incr_nonce_of count (by omega), if_pos last]
      exact flow.congr rfl rfl rfl rfl rfl rfl rfl rfl

end Flow

end Tendermint.P2P
