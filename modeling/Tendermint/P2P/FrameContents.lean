import Tendermint.P2P.AuthenticatedStream

/-!
What the frames of a connection hold. The buffer of a frame comes from a pool that the
connections of the process share. Behind a short chunk it keeps its old bytes, and the
frame is sealed whole. Two runs that differ in the old bytes only are compared.
-/

namespace Tendermint.P2P

open Types List

theorem frame_of_full (stale other : Nat → UInt8) {chunk : Bytes}
    (full : chunk.length = dataMaxSize) : frameOf stale chunk = frameOf other chunk := by
  unfold frameOf
  rw [full, Nat.sub_self]
  rfl

namespace Connection

inductive SameButPool : Bool × ConnEvent → Bool × ConnEvent → Prop
  | write (side : Bool) (data : Bytes) : SameButPool (side, .write data) (side, .write data)
  | sealNext (side : Bool) (stale other : Nat → UInt8) (connErr : Bool) :
      SameButPool (side, .sealNext stale connErr) (side, .sealNext other connErr)
  | read (side : Bool) (size : Nat) (delivery : Delivery) :
      SameButPool (side, .read size delivery) (side, .read size delivery)

def WholeChunks : ConnEvent → Prop
  | .write data => dataMaxSize ∣ data.length
  | _ => True

def Aligned (endpoint : Endpoint) : Prop :=
  ∀ data ∈ endpoint.outgoing, dataMaxSize ∣ data.1.length

theorem aligned_unsent {data : Bytes} (whole : dataMaxSize ∣ data.length) :
    ∀ left ∈ unsent data, dataMaxSize ∣ left.1.length := by
  intro left member
  unfold unsent at member
  split at member
  · rw [mem_singleton.mp member]
    exact whole
  · cases member

variable {endpoint : Endpoint}

theorem Aligned.write (aligned : Aligned endpoint) {data : Bytes}
    (whole : dataMaxSize ∣ data.length) : Aligned (endpoint.write data) := by
  intro left member
  exact (mem_append.mp member).elim (aligned left) (aligned_unsent whole left)

theorem Aligned.seal_chunk (aead : Aead) (aligned : Aligned endpoint) (stale : Nat → UInt8)
    (connErr : Bool) :
    Aligned (endpoint.sealChunk aead stale connErr).1 := by
  unfold Endpoint.sealChunk
  split
  · exact aligned
  split
  · exact aligned
  unfold Aligned Endpoint.afterChunk
  dsimp only
  cases pending : endpoint.outgoing with
  | nil => simp [Endpoint.afterSeal]
  | cons data later =>
  rw [Aligned, pending, forall_mem_cons] at aligned
  intro left member
  rcases mem_append.mp member with rest | waiting
  · split at rest
    · cases rest
    · refine aligned_unsent ?_ left rest
      rw [length_drop]
      exact Nat.dvd_sub aligned.1 dvd_rfl
  · exact aligned.2 left waiting

theorem Aligned.read_frame (aligned : Aligned endpoint) (table : List Sealed) (size : Nat)
    (sealedFrame : Bytes) :
    Aligned (endpoint.readFrame table size sealedFrame) := by
  unfold Endpoint.readFrame
  repeat' split
  all_goals exact aligned

theorem Aligned.seal_chunk_eq (aead : Aead) (aligned : Aligned endpoint) (stale other : Nat → UInt8)
    (connErr : Bool) :
    endpoint.sealChunk aead stale connErr = endpoint.sealChunk aead other connErr := by
  cases pending : endpoint.outgoing with
  | nil =>
    -- nothing is left to seal
    simp only [Endpoint.sealChunk, pending, true_or, if_true]
  | cons data later =>
  have full : endpoint.nextChunk.length = dataMaxSize := by
    rw [Endpoint.nextChunk, pending, length_take]
    exact min_eq_left (Nat.le_of_dvd (length_pos_iff.mpr data.2) (aligned data (by simp [pending])))
  have same : endpoint.nextSealed aead stale = endpoint.nextSealed aead other := by
    unfold Endpoint.nextSealed
    rw [frame_of_full stale other full]
  unfold Endpoint.sealChunk Endpoint.afterChunk
  rw [same]

section

variable {connection : Connection} (aligned : ∀ side, Aligned (connection.ends side))

include aligned

theorem aligned_set (side : Bool) {endpoint : Endpoint} (here : Aligned endpoint) :
    ∀ other, Aligned ((connection.set side endpoint).ends other) := by
  refine both_sides side ?_ ?_
  · rw [set_same]
    exact here
  · rw [set_other]
    exact aligned _

theorem aligned_read (side : Bool) (size : Nat) (delivery : Delivery) :
    ∀ other, Aligned ((connection.read side size delivery).ends other) := by
  unfold read
  dsimp only
  split
  · exact aligned
  split
  · exact aligned_set aligned side (aligned side)
  split
  · exact aligned
  · exact aligned_set aligned side ((aligned side).read_frame _ _ _)
  split
  · exact aligned
  · refine aligned_set ?_ side ((aligned side).read_frame _ _ _)
    refine aligned_set aligned (!side) ?_
    exact aligned !side

theorem aligned_step (aead : Aead) (event : Bool × ConnEvent) (whole : WholeChunks event.2) :
    ∀ other, Aligned ((connection.step aead event).ends other) := by
  rcases event with ⟨side, data | ⟨stale, connErr⟩ | ⟨size, delivery⟩⟩
  · exact aligned_set aligned side ((aligned side).write whole)
  · exact aligned_set aligned side ((aligned side).seal_chunk aead stale connErr)
  · exact aligned_read aligned side size delivery

theorem step_same_but_pool (aead : Aead) {event other : Bool × ConnEvent}
    (same : SameButPool event other) : connection.step aead event = connection.step aead other := by
  cases same with
  | write => rfl
  | read => rfl
  | sealNext side stale other connErr =>
    show connection.sealNext aead side stale connErr = connection.sealNext aead side other connErr
    unfold sealNext
    rw [(aligned side).seal_chunk_eq aead stale other connErr]

theorem run_same_but_pool (aead : Aead) {events others : List (Bool × ConnEvent)}
    (same : List.Forall₂ SameButPool events others)
    (whole : ∀ event ∈ events, WholeChunks event.2) :
    connection.run aead events = connection.run aead others := by
  induction same generalizing connection with
  | nil => rfl
  | cons first rest hypothesis =>
    unfold run
    rw [foldl_cons, foldl_cons, ← step_same_but_pool aligned aead first]
    exact hypothesis (aligned_step aligned aead _ (whole _ mem_cons_self))
      fun event member => whole event (mem_cons_of_mem _ member)

end

/-- When every Write is of whole chunks, the frames do not depend on what the pool held. -/
theorem frames_independent_of_pool (aead : Aead) (res : Bytes)
    (events others : List (Bool × ConnEvent)) (same : List.Forall₂ SameButPool events others)
    (whole : ∀ event ∈ events, WholeChunks event.2) :
    ((new res).run aead events).table.map (·.plaintext) =
      ((new res).run aead others).table.map (·.plaintext) := by
  have aligned : ∀ side, Aligned ((new res).ends side) := fun _ _ member => by cases member
  rw [run_same_but_pool aligned aead same whole]

def writeOver (old : UInt8) (data : Bytes) : List (Bool × ConnEvent) :=
  [(true, .write data), (true, .sealNext (fun _ => old) false)]

theorem full_frame_independent_of_pool :
    ((new twoKeys).run zeroTag (writeOver 0 (List.replicate 1024 7))).table.map (·.plaintext) =
      ((new twoKeys).run zeroTag (writeOver 1 (List.replicate 1024 7))).table.map
        (·.plaintext) := by
  refine frames_independent_of_pool zeroTag twoKeys _ _ ?_ ?_
  · exact .cons (.write ..) (.cons (.sealNext ..) .nil)
  · intro event member
    simp only [writeOver, mem_cons, not_mem_nil, or_false] at member
    rcases member with rfl | rfl
    · exact ⟨1, by rw [length_replicate]; rfl⟩
    · trivial

/-- The frame of one byte carries over a thousand bytes of the pooled buffer. -/
theorem short_frame_shows_pool :
    List.Forall₂ SameButPool (writeOver 0 [7]) (writeOver 1 [7]) ∧
      ((new twoKeys).run zeroTag (writeOver 1 [7])).table.map (·.plaintext) =
        [[1, 0, 0, 0, 7] ++ List.replicate 1023 1] ∧
      ((new twoKeys).run zeroTag (writeOver 0 [7])).table.map (·.plaintext) =
        [[1, 0, 0, 0, 7] ++ List.replicate 1023 0] :=
  ⟨.cons (.write ..) (.cons (.sealNext ..) .nil), by decide +kernel, by decide +kernel⟩

end Connection

end Tendermint.P2P
