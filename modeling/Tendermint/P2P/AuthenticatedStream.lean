import Tendermint.P2P.SecretConnection

/-!
A secret connection as a byte stream: both directions under any adversary, and the
bytes on the wire when nobody interferes.
-/

namespace Tendermint.P2P

open Types List

namespace Connection

theorem set_same (connection : Connection) (side : Bool) (endpoint : Endpoint) :
    (connection.set side endpoint).ends side = endpoint := Function.update_self ..

theorem set_other (connection : Connection) (side : Bool) (endpoint : Endpoint) :
    (connection.set side endpoint).ends (!side) = connection.ends (!side) :=
  Function.update_of_ne (by cases side <;> decide) ..

structure Sound (connection : Connection) : Prop where
  flows : ∀ side, ∃ chunks count,
    Flow (connection.ends side) (connection.ends !side) connection.table chunks count
  keys : ∀ side, (connection.ends side).conn.sendKey ≠ (connection.ends !side).conn.sendKey
  nonces : (connection.table.map fun entry => (entry.key, entry.nonce)).Nodup

theorem both_sides {P : Bool → Prop} (side : Bool) (here : P side) (there : P !side) :
    ∀ other, P other := by
  intro other
  rcases Bool.eq_or_eq_not other side with rfl | rfl
  · exact here
  · exact there

variable {endpoint : Endpoint}

theorem both_ways {P : Endpoint → Endpoint → Prop} (connection : Connection) (side : Bool)
    (forward : P endpoint (connection.ends !side)) (backward : P (connection.ends !side) endpoint)
    (other : Bool) :
    P ((connection.set side endpoint).ends other) ((connection.set side endpoint).ends !other) := by
  refine both_sides (P := fun other => P ((connection.set side endpoint).ends other)
    ((connection.set side endpoint).ends !other)) side ?_ ?_ other
  · rwa [set_same, set_other]
  · rwa [Bool.not_not, set_same, set_other]

variable {connection : Connection}

theorem Sound.back (sound : connection.Sound) (side : Bool) : ∃ chunks count,
    Flow (connection.ends !side) (connection.ends side) connection.table chunks count := by
  have flows := sound.flows !side
  rwa [Bool.not_not] at flows

theorem Sound.set (sound : connection.Sound) (side : Bool) {table : List Sealed}
    (sendKey : endpoint.conn.sendKey = (connection.ends side).conn.sendKey)
    (forward : ∃ chunks count, Flow endpoint (connection.ends !side) table chunks count)
    (backward : ∃ chunks count, Flow (connection.ends !side) endpoint table chunks count)
    (nonces : (table.map fun entry => (entry.key, entry.nonce)).Nodup) :
    ({ connection.set side endpoint with table } : Connection).Sound where
  flows := both_ways (P := fun sender receiver => ∃ chunks count,
    Flow sender receiver table chunks count) connection side forward backward
  keys := both_ways (P := fun sender receiver => sender.conn.sendKey ≠ receiver.conn.sendKey)
    connection side (sendKey ▸ sound.keys side) (sendKey ▸ (sound.keys side).symm)
  nonces := nonces

theorem Sound.write (sound : connection.Sound) (side : Bool) (data : Bytes) :
    (connection.set side ((connection.ends side).write data)).Sound := by
  obtain ⟨chunks, count, forward⟩ := sound.flows side
  obtain ⟨others, opened, backward⟩ := sound.back side
  exact sound.set side rfl ⟨chunks, count, { forward with }⟩ ⟨others, opened, { backward with }⟩
    sound.nonces

theorem seal_chunk_frame (aead : Aead) (endpoint : Endpoint) (stale : Nat → UInt8)
    (connErr : Bool) :
    (endpoint.sealChunk aead stale connErr).1.conn.sendKey = endpoint.conn.sendKey ∧
      (endpoint.sealChunk aead stale connErr).1.conn.recvKey = endpoint.conn.recvKey ∧
      (endpoint.sealChunk aead stale connErr).1.conn.recvNonce = endpoint.conn.recvNonce ∧
      (endpoint.sealChunk aead stale connErr).1.conn.recvBuffer = endpoint.conn.recvBuffer ∧
      (endpoint.sealChunk aead stale connErr).1.read = endpoint.read ∧
      (endpoint.sealChunk aead stale connErr).1.recvPanicked = endpoint.recvPanicked ∧
      ∀ entry ∈ (endpoint.sealChunk aead stale connErr).2, entry.key = endpoint.conn.sendKey := by
  unfold Endpoint.sealChunk
  split
  · simp
  split
  · simp [Endpoint.nextSealed]
  · simp [Endpoint.nextSealed, Endpoint.afterChunk]

theorem Sound.seal_next (aead : Aead) (sound : connection.Sound) (side : Bool)
    (stale : Nat → UInt8) (connErr : Bool) :
    (connection.sealNext aead side stale connErr).Sound := by
  obtain ⟨chunks, count, forward⟩ := sound.flows side
  obtain ⟨others, opened, backward⟩ := sound.back side
  obtain ⟨sendKey, recvKey, recvNonce, recvBuffer, read, _, entries⟩ :=
    seal_chunk_frame aead (connection.ends side) stale connErr
  obtain ⟨longer, sent⟩ := forward.seal_chunk aead stale connErr
  refine sound.set side sendKey ⟨longer, count, sent⟩ ⟨others, opened, (backward.congr rfl rfl rfl
    rfl recvKey recvNonce recvBuffer read).other_key _ fun entry member same =>
      sound.keys side ((entries entry member).symm.trans same)⟩ ?_
  rcases forward.seal_chunk_cases aead stale connErr with
    same | ⟨running, ⟨_, same⟩ | ⟨_, _, same⟩⟩
  · rw [same, append_nil]
    exact sound.nonces
  all_goals
    rw [same, map_append, nodup_append]
    refine ⟨sound.nonces, nodup_singleton _, fun used member fresh added => ?_⟩
    obtain ⟨entry, present, rfl⟩ := mem_map.mp member
    rw [map_singleton, mem_singleton] at added
    subst added
    intro reused
    exact forward.nonce_fresh running entry present (congrArg Prod.fst reused)
      (congrArg Prod.snd reused)

theorem read_frame_frame (endpoint : Endpoint) (table : List Sealed) (size : Nat)
    (sealedFrame : Bytes) :
    (endpoint.readFrame table size sealedFrame).conn.sendKey = endpoint.conn.sendKey ∧
      (endpoint.readFrame table size sealedFrame).conn.sendNonce = endpoint.conn.sendNonce ∧
      (endpoint.readFrame table size sealedFrame).written = endpoint.written ∧
      (endpoint.readFrame table size sealedFrame).outgoing = endpoint.outgoing ∧
      (endpoint.readFrame table size sealedFrame).sendPanicked = endpoint.sendPanicked ∧
      (endpoint.readFrame table size sealedFrame).wire = endpoint.wire := by
  unfold Endpoint.readFrame
  split
  · simp
  split
  · simp
  split
  · simp
  split
  · simp
  · simp

theorem set_sends_nothing (connection : Connection) (place : Bool) (endpoint : Endpoint)
    (outgoing : endpoint.outgoing = (connection.ends place).outgoing)
    (written : endpoint.written = (connection.ends place).written) :
    ∀ side, ((connection.set place endpoint).ends side).outgoing = (connection.ends side).outgoing ∧
      ((connection.set place endpoint).ends side).written = (connection.ends side).written := by
  refine both_sides place ?_ ?_
  · rw [set_same]
    exact ⟨outgoing, written⟩
  · rw [set_other]
    exact ⟨rfl, rfl⟩

theorem read_sends_nothing (connection : Connection) (place : Bool) (size : Nat)
    (delivery : Delivery) (side : Bool) :
    ((connection.read place size delivery).ends side).outgoing = (connection.ends side).outgoing ∧
      ((connection.read place size delivery).ends side).written =
        (connection.ends side).written := by
  have framed := fun sealedFrame =>
    read_frame_frame (connection.ends place) connection.table size sealedFrame
  unfold Connection.read
  dsimp only
  split
  · exact ⟨rfl, rfl⟩
  split
  · exact set_sends_nothing connection place ((connection.ends place).readBuffer size) rfl rfl side
  split
  · exact ⟨rfl, rfl⟩
  · exact set_sends_nothing connection place _ (framed _).2.2.2.1 (framed _).2.2.1 side
  split
  · exact ⟨rfl, rfl⟩
  · have wired := set_sends_nothing connection (!place) { connection.ends !place with
      wire := (connection.ends !place).wire.drop (aeadSizeOverhead + totalFrameSize) } rfl rfl
    have frame := framed ((connection.ends !place).wire.take (aeadSizeOverhead + totalFrameSize))
    have here := set_sends_nothing (connection.set (!place) _) place _
      (frame.2.2.2.1.trans (wired place).1.symm) (frame.2.2.1.trans (wired place).2.symm) side
    exact ⟨here.1.trans (wired side).1, here.2.trans (wired side).2⟩

theorem Sound.read_frame (sound : connection.Sound) (side : Bool)
    (empty : (connection.ends side).conn.recvBuffer = []) (size : Nat) (sealedFrame : Bytes) :
    (connection.set side
      ((connection.ends side).readFrame connection.table size sealedFrame)).Sound := by
  obtain ⟨chunks, count, forward⟩ := sound.flows side
  obtain ⟨others, opened, backward⟩ := sound.back side
  obtain ⟨sendKey, sendNonce, written, _, panicked, _⟩ :=
    read_frame_frame (connection.ends side) connection.table size sealedFrame
  obtain ⟨more, read⟩ := backward.read_frame empty size sealedFrame
  exact sound.set side sendKey
    ⟨chunks, count, forward.congr sendKey sendNonce written panicked rfl rfl rfl rfl⟩
    ⟨others, more, read⟩ sound.nonces

theorem Sound.read (sound : connection.Sound) (side : Bool) (size : Nat) (delivery : Delivery) :
    (connection.read side size delivery).Sound := by
  obtain ⟨chunks, count, forward⟩ := sound.flows side
  obtain ⟨others, opened, backward⟩ := sound.back side
  unfold Connection.read
  dsimp only
  split
  · exact sound
  split
  · exact sound.set side rfl ⟨chunks, count, { forward with }⟩
      ⟨others, opened, backward.read_buffer size⟩ sound.nonces
  rename_i empty
  rw [not_not] at empty
  split
  · exact sound
  · exact sound.read_frame side empty size _
  split
  · exact sound
  · have here : ∀ endpoint, (connection.set (!side) endpoint).ends side = connection.ends side := by
      intro endpoint
      have other := set_other connection (!side) endpoint
      rwa [Bool.not_not] at other
    have wired : (connection.set (!side) { connection.ends !side with
        wire := (connection.ends !side).wire.drop (aeadSizeOverhead + totalFrameSize) }).Sound :=
      sound.set (!side) rfl ⟨others, opened, (Bool.not_not side).symm ▸ { backward with }⟩
        ⟨chunks, count, (Bool.not_not side).symm ▸ { forward with }⟩ sound.nonces
    have read := wired.read_frame side (by rw [here]; exact empty) size
      ((connection.ends !side).wire.take (aeadSizeOverhead + totalFrameSize))
    rw [here] at read
    exact read

theorem Sound.step (aead : Aead) (sound : connection.Sound) (event : Bool × ConnEvent) :
    (connection.step aead event).Sound := by
  obtain ⟨side, event⟩ := event
  cases event with
  | write data => exact sound.write side data
  | sealNext stale connErr => exact sound.seal_next aead side stale connErr
  | read size delivery => exact sound.read side size delivery

theorem Sound.run (aead : Aead) (sound : connection.Sound) (events : List (Bool × ConnEvent)) :
    (connection.run aead events).Sound := by
  induction events generalizing connection with
  | nil => exact sound
  | cons event rest ih => exact ih (sound.step aead event)

/-- The two halves of what HKDF gives, which `deriveSecrets` uses as the keys. -/
def KeysDiffer (res : Bytes) : Prop := (deriveSecrets res true).1 ≠ (deriveSecrets res true).2

theorem new_flow (res : Bytes) (side : Bool) :
    Flow ((new res).ends side) ((new res).ends !side) [] [] 0 where
  keys := by cases side <;> rfl
  sendNonce := rfl
  small := by decide
  sizes := by simp
  written := rfl
  sealed := by simp
  recvNonce := rfl
  opened := le_rfl
  read := rfl

theorem new_sound {res : Bytes} (differ : KeysDiffer res) : (new res).Sound where
  flows side := ⟨[], 0, new_flow res side⟩
  keys side := by
    cases side
    · exact differ
    · exact differ.symm
  nonces := nodup_nil

end Connection

/-! ### Without interference -/

/-- The bytes on the wire are the frames that are sealed and not yet opened. -/
structure Pipe (sender receiver : Endpoint) (table : List Sealed) (chunks : List Bytes)
    (count : Nat) (frames : List Bytes) : Prop where
  flow : Flow sender receiver table chunks count
  length : frames.length = chunks.length
  held : ∀ (index : Nat) (frame : Bytes), frames[index]? = some frame →
    frame.length = aeadSizeOverhead + totalFrameSize ∧ ∃ entry ∈ table,
      entry.key = sender.conn.sendKey ∧ entry.nonce = nonceOf index ∧ entry.ciphertext = frame
  wire : sender.wire = (frames.drop count).flatten
  running : receiver.recvPanicked = false

namespace Pipe

variable {sender receiver : Endpoint} {table : List Sealed} {chunks : List Bytes} {count : Nat}
  {frames : List Bytes}

theorem congr (pipe : Pipe sender receiver table chunks count frames) {sender' receiver' : Endpoint}
    {table' : List Sealed} (flow : Flow sender' receiver' table' chunks count)
    (grown : ∀ entry ∈ table, entry ∈ table')
    (sendKey : sender'.conn.sendKey = sender.conn.sendKey) (wire : sender'.wire = sender.wire)
    (panicked : receiver'.recvPanicked = receiver.recvPanicked) :
    Pipe sender' receiver' table' chunks count frames where
  flow := flow
  length := pipe.length
  held index frame found := by
    obtain ⟨length, entry, member, key, rest⟩ := pipe.held index frame found
    exact ⟨length, entry, grown entry member, key.trans sendKey.symm, rest⟩
  wire := wire.trans pipe.wire
  running := panicked.trans pipe.running

theorem seal_chunk (aead : Aead) (pipe : Pipe sender receiver table chunks count frames)
    (stale : Nat → UInt8) :
    ∃ chunks' frames', Pipe (sender.sealChunk aead stale false).1 receiver
      (table ++ (sender.sealChunk aead stale false).2) chunks' count frames' := by
  rcases pipe.flow.seal_chunk_cases aead stale false with
    same | ⟨running, ⟨last, same⟩ | ⟨room, nonempty, same⟩⟩
  · rw [same, append_nil]
    exact ⟨chunks, frames, pipe⟩
  · rw [same]
    exact ⟨chunks, frames, pipe.congr (pipe.flow.seal_last aead running last stale)
      (fun entry member => mem_append_left _ member) rfl rfl rfl⟩
  · rw [same]
    have opened := pipe.flow.opened
    refine ⟨_, frames ++ [(sender.nextSealed aead stale).ciphertext],
      pipe.flow.seal_next aead running room nonempty stale false, ?_, ?_, ?_, pipe.running⟩
    · rw [length_append, length_append, pipe.length]
      rfl
    · intro index frame found
      rcases lt_or_ge index frames.length with inside | beyond
      · rw [getElem?_append_left inside] at found
        obtain ⟨length, entry, member, rest⟩ := pipe.held index frame found
        exact ⟨length, entry, mem_append_left _ member, rest⟩
      · rw [getElem?_append_right beyond, getElem?_singleton] at found
        split at found
        · rename_i here
          cases found
          have position : index = chunks.length := by
            have := pipe.length
            omega
          refine ⟨?_, sender.nextSealed aead stale,
            mem_append_right _ (mem_singleton_self _), rfl, ?_, rfl⟩
          · exact (aead.overhead ..).trans
              (congrArg _ (frame_of_length stale _ sender.next_chunk_le))
          · rw [position]
            exact pipe.flow.sendNonce
        · cases found
    · show sender.wire ++ (sender.nextSealed aead stale).ciphertext = _
      rw [drop_append_of_le_length (pipe.length ▸ opened), flatten_append, pipe.wire]
      simp

section

variable (pipe : Pipe sender receiver table chunks count frames)

include pipe

theorem read_buffer (size : Nat) :
    Pipe sender (receiver.readBuffer size) table chunks count frames :=
  pipe.congr (pipe.flow.read_buffer size) (fun _ member => member) rfl rfl rfl

theorem wire_short (short : sender.wire.length < aeadSizeOverhead + totalFrameSize) :
    count = chunks.length := by
  by_contra unequal
  have opened := pipe.flow.opened
  have inside : count < frames.length := by
    have := pipe.length
    omega
  have head := drop_eq_getElem_cons inside
  have long := (pipe.held count frames[count] (getElem?_eq_getElem inside)).1
  rw [pipe.wire, head, flatten_cons, length_append, long] at short
  omega

theorem read_wire (empty : receiver.conn.recvBuffer = []) (size : Nat)
    (long : aeadSizeOverhead + totalFrameSize ≤ sender.wire.length) :
    ∃ chunk, chunk ≠ [] ∧
      receiver.readFrame table size (sender.wire.take (aeadSizeOverhead + totalFrameSize)) =
        Flow.received receiver size chunk (nonceOf (count + 1)) ∧
      Pipe { sender with wire := sender.wire.drop (aeadSizeOverhead + totalFrameSize) }
        (Flow.received receiver size chunk (nonceOf (count + 1)))
          table chunks (count + 1) frames := by
  have inside : count < frames.length := by
    by_contra beyond
    rw [pipe.wire, drop_eq_nil_iff.mpr (not_lt.mp beyond)] at long
    exact absurd long (by decide)
  have within : count < chunks.length := pipe.length ▸ inside
  have few := pipe.flow.small
  obtain ⟨length, entry, member, key, nonce, ciphertext⟩ :=
    pipe.held count frames[count] (getElem?_eq_getElem inside)
  have wire : sender.wire = frames[count] ++ (frames.drop (count + 1)).flatten := by
    rw [pipe.wire, drop_eq_getElem_cons inside, flatten_cons]
  have front : sender.wire.take (aeadSizeOverhead + totalFrameSize) = frames[count] := by
    rw [wire, ← length]
    exact take_left
  have rest : sender.wire.drop (aeadSizeOverhead + totalFrameSize) =
      (frames.drop (count + 1)).flatten := by
    rw [wire, ← length]
    exact drop_left
  obtain ⟨frame, opened⟩ : ∃ frame, openSealed table receiver.conn.recvKey receiver.conn.recvNonce
      frames[count] = some frame := by
    unfold openSealed
    cases found : table.find? fun entry => entry.key = receiver.conn.recvKey ∧
        entry.nonce = receiver.conn.recvNonce ∧ entry.ciphertext = frames[count] with
    | some hit => exact ⟨_, rfl⟩
    | none =>
      refine absurd (find?_eq_none.mp found entry member) ?_
      rw [not_not, decide_eq_true_iff]
      exact ⟨key.trans pipe.flow.keys.symm, nonce.trans pipe.flow.recvNonce.symm, ciphertext⟩
  obtain ⟨stale, chunk, next, rfl⟩ := (pipe.flow.opens opened).resolve_right (by omega)
  obtain ⟨read, flow⟩ := pipe.flow.read_next empty size next opened
  refine ⟨chunk, (pipe.flow.sizes chunk (mem_of_getElem? next)).1, front ▸ read, ?_⟩
  exact
    { flow := { flow with }
      length := pipe.length
      held := pipe.held
      wire := rest
      running := pipe.running }

end

end Pipe

namespace Connection

/-- Nobody interferes: every frame is sent, and a Read gets what is next on the wire. -/
def Undisturbed : ConnEvent → Prop
  | .write _ => True
  | .sealNext _ connErr => connErr = false
  | .read _ delivery => delivery = .undisturbed

def Calm (connection : Connection) : Prop :=
  ∀ side, ∃ chunks count frames,
    Pipe (connection.ends side) (connection.ends !side) connection.table chunks count frames

variable {connection : Connection}

theorem Calm.back (calm : connection.Calm) (side : Bool) : ∃ chunks count frames,
    Pipe (connection.ends !side) (connection.ends side) connection.table chunks count frames := by
  have pipes := calm !side
  rwa [Bool.not_not] at pipes

theorem calm_set (connection : Connection) (side : Bool) {endpoint : Endpoint}
    {table : List Sealed}
    (forward : ∃ chunks count frames,
      Pipe endpoint (connection.ends !side) table chunks count frames)
    (backward : ∃ chunks count frames,
      Pipe (connection.ends !side) endpoint table chunks count frames) :
    ({ connection.set side endpoint with table } : Connection).Calm :=
  both_ways (P := fun sender receiver => ∃ chunks count frames,
    Pipe sender receiver table chunks count frames) connection side forward backward

theorem Calm.write (calm : connection.Calm) (side : Bool) (data : Bytes) :
    (connection.set side ((connection.ends side).write data)).Calm := by
  obtain ⟨chunks, count, frames, forward⟩ := calm side
  obtain ⟨others, opened, back, backward⟩ := calm.back side
  exact calm_set connection side
    ⟨chunks, count, frames, { forward with flow := { forward.flow with } }⟩
    ⟨others, opened, back, { backward with flow := { backward.flow with } }⟩

theorem Calm.seal_next (aead : Aead) (sound : connection.Sound) (calm : connection.Calm)
    (side : Bool) (stale : Nat → UInt8) : (connection.sealNext aead side stale false).Calm := by
  obtain ⟨chunks, count, frames, forward⟩ := calm side
  obtain ⟨others, opened, back, backward⟩ := calm.back side
  obtain ⟨sendKey, recvKey, recvNonce, recvBuffer, read, panicked, entries⟩ :=
    seal_chunk_frame aead (connection.ends side) stale false
  obtain ⟨longer, more, sent⟩ := forward.seal_chunk aead stale
  refine calm_set connection side ⟨longer, count, more, sent⟩ ⟨others, opened, back,
    backward.congr ?_ (fun entry member => mem_append_left _ member) rfl rfl panicked⟩
  refine (backward.flow.congr rfl rfl rfl rfl recvKey recvNonce recvBuffer read).other_key _
    fun entry member same => ?_
  exact sound.keys side ((entries entry member).symm.trans same)

/-- A Read on a calm connection: the connection stays calm, and a byte more is read unless
everything was. -/
theorem Calm.read (calm : connection.Calm) (side : Bool) (size : Nat) :
    (connection.read side size .undisturbed).Calm ∧
      (0 < size → (connection.ends !side).written.length ≤
          ((connection.read side size .undisturbed).ends side).read.length ∨
        (connection.ends side).read.length + 1 ≤
          ((connection.read side size .undisturbed).ends side).read.length) := by
  obtain ⟨chunks, count, frames, forward⟩ := calm side
  obtain ⟨others, opened, back, backward⟩ := calm.back side
  have longer : ∀ bytes : Bytes, bytes ≠ [] → 0 < size → (connection.ends side).read.length + 1 ≤
      ((connection.ends side).read ++ bytes.take size).length := by
    intro bytes filled positive
    have some := length_pos_iff.mpr filled
    rw [length_append, length_take]
    omega
  unfold Connection.read
  dsimp only
  rw [if_neg (by rw [backward.running]; decide)]
  split
  · -- the buffer holds the rest of a frame
    rename_i filled
    refine ⟨calm_set connection side
      ⟨chunks, count, frames, { forward with flow := { forward.flow with } }⟩
      ⟨others, opened, back, backward.read_buffer size⟩, fun positive => .inr ?_⟩
    rw [set_same]
    exact longer _ filled positive
  rename_i empty
  rw [not_not] at empty
  split
  · rename_i short
    refine ⟨calm, fun _ => .inl ?_⟩
    have all := backward.flow.read
    rw [empty, append_nil, backward.wire_short short, take_length] at all
    rw [backward.flow.written, all]
  · rename_i long
    obtain ⟨chunk, nonempty, received, piped⟩ := backward.read_wire empty size (not_lt.mp long)
    rw [received]
    refine ⟨calm_set (connection.set (!side) _) side ?_ ?_, fun positive => .inr ?_⟩
    · rw [set_same]
      exact ⟨chunks, count, frames, { forward with flow := { forward.flow with } }⟩
    · rw [set_same]
      exact ⟨others, opened + 1, back, piped⟩
    · rw [set_same]
      exact longer _ nonempty positive

section

variable (aead : Aead) (sound : connection.Sound) (calm : connection.Calm)

include sound calm

theorem Calm.step (event : Bool × ConnEvent) (undisturbed : Undisturbed event.2) :
    (connection.step aead event).Calm := by
  obtain ⟨side, event⟩ := event
  cases event with
  | write data => exact calm.write side data
  | sealNext stale connErr =>
    have sent : connErr = false := undisturbed
    subst sent
    exact calm.seal_next aead sound side stale
  | read size delivery =>
    have direct : delivery = .undisturbed := undisturbed
    subst direct
    exact (calm.read side size).1

theorem Calm.run (events : List (Bool × ConnEvent))
    (undisturbed : ∀ event ∈ events, Undisturbed event.2) :
    (connection.run aead events).Calm := by
  induction events generalizing connection with
  | nil => exact calm
  | cons event rest ih =>
    exact ih (sound.step aead event)
      (calm.step aead sound event (undisturbed event mem_cons_self))
      fun other member => undisturbed other (mem_cons_of_mem _ member)

theorem Calm.reads (side : Bool) (sizes : List Nat) (positive : ∀ size ∈ sizes, 0 < size)
    (enough : (connection.ends !side).written.length ≤
      (connection.ends side).read.length + sizes.length) :
    ((connection.run aead
        (sizes.map fun size => (side, .read size .undisturbed))).ends side).read =
      (connection.ends !side).written := by
  induction sizes generalizing connection with
  | nil =>
    obtain ⟨chunks, count, frames, pipe⟩ := calm !side
    have start := pipe.flow.read_prefix
    rw [Bool.not_not] at start
    exact start.eq_of_length (le_antisymm start.length_le enough)
  | cons size rest ih =>
    obtain ⟨stays, more⟩ := calm.read side size
    have written := (read_sends_nothing connection side size .undisturbed !side).2
    have next := sound.read side size .undisturbed
    have later := ih next stays (fun other member => positive other (mem_cons_of_mem _ member)) (by
      rw [written]
      rw [length_cons] at enough
      rcases more (positive size mem_cons_self) with all | one
      · omega
      · omega)
    rw [written] at later
    exact later

end

theorem new_calm (res : Bytes) : (new res).Calm := fun side =>
  ⟨[], 0, [], new_flow res side, rfl, by simp, rfl, rfl⟩

end Connection

/-! ### What was given to Write -/

/-- The Writes of which something is left, the first of them with what was sealed of it. -/
def resumed (sealedPart : Bytes) : List Unsent → List Bytes
  | [] => []
  | data :: later => (sealedPart ++ data.1) :: later.map (·.1)

/-- The Writes that are done are `done`, of which `parts` were sealed. A Write that has not
failed has sealed all its data. -/
structure Accounts (endpoint : Endpoint) (writes : List Bytes) (failed : Prop)
    (done parts : List Bytes) (sealedPart : Bytes) : Prop where
  initial : List.Forall₂ (· <+: ·) parts done
  split : writes = done ++ resumed sealedPart endpoint.outgoing
  written : endpoint.written = parts.flatten ++ sealedPart
  all : ¬ failed → parts = done
  idle : endpoint.outgoing = [] → sealedPart = []

namespace Accounts

variable {endpoint : Endpoint} {writes : List Bytes} {failed : Prop} {done parts : List Bytes}
  {sealedPart : Bytes} (accounts : Accounts endpoint writes failed done parts sealedPart)

include accounts

theorem write (data : Bytes) :
    Accounts (endpoint.write data) (writes ++ (unsent data).map (·.1)) failed done parts
      sealedPart where
  initial := accounts.initial
  split := by
    rw [accounts.split, append_assoc]
    congr 1
    have idle := accounts.idle
    show _ = resumed sealedPart (endpoint.outgoing ++ unsent data)
    cases pending : endpoint.outgoing with
    | nil =>
      rw [idle pending]
      unfold unsent
      split <;> simp [resumed]
    | cons first later => simp [resumed]
  written := accounts.written
  all := accounts.all
  idle nothing := accounts.idle (append_eq_nil_iff.mp nothing).1

theorem after_chunk (aead : Aead) (pending : endpoint.outgoing ≠ []) (stale : Nat → UInt8)
    (connErr : Bool) (sendNonce : Bytes) :
    ∃ done parts sealedPart, Accounts (endpoint.afterChunk aead stale connErr sendNonce) writes
      (failed ∨ connErr = true) done parts sealedPart := by
  obtain ⟨data, later, isNext⟩ := exists_cons_of_ne_nil pending
  have chunk : endpoint.nextChunk = data.1.take dataMaxSize := by
    rw [Endpoint.nextChunk, isNext]
  have outgoing : (endpoint.afterChunk aead stale connErr sendNonce).outgoing =
      (if connErr then [] else unsent (data.1.drop dataMaxSize)) ++ later := by
    show Endpoint.afterSeal connErr endpoint.outgoing = _
    rw [isNext]
    rfl
  have written : (endpoint.afterChunk aead stale connErr sendNonce).written =
      parts.flatten ++ (sealedPart ++ data.1.take dataMaxSize) := by
    show endpoint.written ++ endpoint.nextChunk = _
    rw [accounts.written, chunk, append_assoc]
  have split := accounts.split
  rw [isNext] at split
  by_cases ends : connErr = true ∨ data.1.drop dataMaxSize = []
  · have rest : (endpoint.afterChunk aead stale connErr sendNonce).outgoing = later := by
      rw [outgoing]
      rcases ends with error | nothing
      · rw [if_pos error, nil_append]
      · rw [nothing]
        cases connErr <;> rfl
    refine ⟨done ++ [sealedPart ++ data.1], parts ++ [sealedPart ++ data.1.take dataMaxSize], [],
      ?_, ?_, ?_, fun none => ?_, fun _ => rfl⟩
    · exact rel_append accounts.initial
        (.cons ((prefix_append_right_inj _).mpr <| take_prefix ..) .nil)
    · rw [split, rest, append_assoc]
      congr 1
      cases later <;> simp [resumed]
    · rw [written, flatten_append, flatten_singleton, append_nil]
    · rw [not_or] at none
      have whole := ends.resolve_left none.2
      rw [accounts.all none.1, take_of_length_le (drop_eq_nil_iff.mp whole)]
  · rw [not_or] at ends
    have rest : (endpoint.afterChunk aead stale connErr sendNonce).outgoing =
        ⟨data.1.drop dataMaxSize, ends.2⟩ :: later := by
      rw [outgoing, if_neg ends.1, unsent, dif_pos ends.2]
      rfl
    refine ⟨done, parts, sealedPart ++ data.1.take dataMaxSize, accounts.initial, ?_, written,
      fun none => accounts.all (not_or.mp none).1, fun nothing => ?_⟩
    · rw [split, rest]
      simp [resumed]
    · rw [rest] at nothing
      cases nothing

theorem seal_chunk (aead : Aead) (stale : Nat → UInt8) (connErr : Bool) :
    ∃ done parts sealedPart, Accounts (endpoint.sealChunk aead stale connErr).1 writes
      (failed ∨ connErr = true) done parts sealedPart := by
  have weaker : Accounts endpoint writes (failed ∨ connErr = true) done parts sealedPart :=
    { accounts with all := fun none => accounts.all (not_or.mp none).1 }
  unfold Endpoint.sealChunk
  split
  · exact ⟨done, parts, sealedPart, weaker⟩
  rename_i active
  split
  · exact ⟨done, parts, sealedPart, { weaker with }⟩
  · exact accounts.after_chunk aead (not_or.mp active).1 stale connErr _

theorem congr {other : Endpoint} (outgoing : other.outgoing = endpoint.outgoing)
    (written : other.written = endpoint.written) :
    Accounts other writes failed done parts sealedPart where
  initial := accounts.initial
  split := outgoing ▸ accounts.split
  written := written.trans accounts.written
  all := accounts.all
  idle := outgoing ▸ accounts.idle

theorem sent : ∃ sent, List.Forall₂ (· <+: ·) sent writes ∧ endpoint.written = sent.flatten := by
  rw [accounts.split]
  cases pending : endpoint.outgoing with
  | nil =>
    refine ⟨parts, by simpa [resumed] using accounts.initial, ?_⟩
    rw [accounts.written, accounts.idle pending, append_nil]
  | cons data later =>
    have unstarted : List.Forall₂ (· <+: ·) (later.map fun _ => ([] : Bytes))
        (later.map (·.1)) := by
      rw [forall₂_map_left_iff, forall₂_map_right_iff, forall₂_same]
      exact fun _ _ => nil_prefix
    refine ⟨parts ++ sealedPart :: later.map fun _ => [],
      rel_append accounts.initial (.cons (prefix_append ..) unstarted), ?_⟩
    rw [accounts.written, flatten_append, flatten_cons]
    simp

theorem written_all (none : ¬ failed) :
    endpoint.written ++ (endpoint.outgoing.map (·.1)).flatten = writes.flatten := by
  rw [accounts.split, accounts.written, accounts.all none]
  cases pending : endpoint.outgoing with
  | nil => simp [resumed, accounts.idle pending]
  | cons data later => simp [resumed]

end Accounts

namespace Connection

def writesAt (side : Bool) (events : List (Bool × ConnEvent)) : List Bytes :=
  events.flatMap fun event =>
    match event.2 with
    | .write data => if event.1 = side then (unsent data).map (·.1) else []
    | _ => []

def FailsAt (side : Bool) (events : List (Bool × ConnEvent)) : Prop :=
  ∃ stale, (side, .sealNext stale true) ∈ events

variable {sealedPart : Bytes} {done parts writes : List Bytes} {failed : Prop}

theorem step_accounts (aead : Aead) (connection : Connection) (event : Bool × ConnEvent)
    (side : Bool) (accounts : Accounts (connection.ends side) writes failed done parts sealedPart) :
    ∃ done parts sealedPart, Accounts ((connection.step aead event).ends side)
      (writes ++ writesAt side [event]) (failed ∨ FailsAt side [event]) done parts sealedPart := by
  have weaker : Accounts (connection.ends side) writes (failed ∨ FailsAt side [event]) done parts
      sealedPart :=
    { accounts with all := fun none => accounts.all (not_or.mp none).1 }
  obtain ⟨place, event⟩ := event
  rcases Bool.eq_or_eq_not side place with rfl | rfl
  · cases event with
    | write data =>
      refine ⟨done, parts, sealedPart, ?_⟩
      simp only [step, set_same, writesAt, flatMap_singleton, if_true]
      exact weaker.write data
    | sealNext stale connErr =>
      obtain ⟨done, parts, sealedPart, after⟩ := accounts.seal_chunk aead stale connErr
      refine ⟨done, parts, sealedPart, ?_⟩
      simp only [step, sealNext, set_same, writesAt, flatMap_singleton, append_nil]
      refine { after with all := fun none => after.all fun some => none ?_ }
      exact some.imp id fun error => ⟨stale, by rw [error]; exact mem_cons_self⟩
    | read size delivery =>
      obtain ⟨outgoing, written⟩ := read_sends_nothing connection side size delivery side
      simp only [writesAt, flatMap_singleton, append_nil]
      exact ⟨done, parts, sealedPart, weaker.congr outgoing written⟩
  · have elsewhere : writesAt (!place) [(place, event)] = [] := by
      cases event <;> simp [writesAt]
    rw [elsewhere, append_nil]
    refine ⟨done, parts, sealedPart, ?_⟩
    cases event with
    | write data =>
      simp only [step, set_other]
      exact weaker
    | sealNext stale connErr =>
      simp only [step, sealNext, set_other]
      exact weaker
    | read size delivery =>
      obtain ⟨outgoing, written⟩ := read_sends_nothing connection place size delivery (!place)
      exact weaker.congr outgoing written

theorem run_accounts (aead : Aead) (connection : Connection) (events : List (Bool × ConnEvent))
    (side : Bool) (accounts : Accounts (connection.ends side) writes failed done parts sealedPart) :
    ∃ done parts sealedPart, Accounts ((connection.run aead events).ends side)
      (writes ++ writesAt side events) (failed ∨ FailsAt side events) done parts sealedPart := by
  induction events generalizing connection writes failed done parts sealedPart with
  | nil =>
    refine ⟨done, parts, sealedPart, ?_⟩
    rw [writesAt, flatMap_nil, append_nil]
    exact { accounts with all := fun none => accounts.all (not_or.mp none).1 }
  | cons event rest ih =>
    obtain ⟨_, _, _, here⟩ := step_accounts aead connection event side accounts
    obtain ⟨done, parts, sealedPart, later⟩ := ih _ here
    refine ⟨done, parts, sealedPart, { later with
      split := ?_, all := fun none => later.all fun some => none ?_ }⟩
    · have whole : writesAt side (event :: rest) = writesAt side [event] ++ writesAt side rest := by
        simp [writesAt]
      rw [whole, ← append_assoc]
      exact later.split
    · rcases some with (before | ⟨stale, first⟩) | ⟨stale, member⟩
      · exact .inl before
      · exact .inr ⟨stale, mem_cons.mpr (.inl (mem_singleton.mp first))⟩
      · exact .inr ⟨stale, mem_cons_of_mem _ member⟩

theorem new_accounts (res : Bytes) (side : Bool) :
    Accounts ((new res).ends side) [] False [] [] [] :=
  ⟨.nil, rfl, rfl, fun _ => rfl, fun _ => rfl⟩

def zeroTag : Aead where
  sealWith _ _ plaintext := List.replicate aeadSizeOverhead 0 ++ plaintext
  overhead _ _ plaintext := by rw [length_append, length_replicate]

def twoKeys : Bytes := List.replicate 32 0 ++ List.replicate 32 1

def threeBytes : List (Bool × ConnEvent) :=
  [(true, .write [1, 2]), (true, .write [3]), (true, .sealNext (fun _ => 0) false),
    (true, .sealNext (fun _ => 0) false)]

end Connection

end Tendermint.P2P
