import Tendermint.Types.Block

/-!
internal/p2p/conn/connection.go: the packets a channel cuts its messages into, and the
size that MConnection allows for a packet. The length of a varint grows with its value,
so the size of a packet is compared field by field with that of the sample packet.
-/

namespace Tendermint.Wire

variable {large small : Nat}

theorem put_uvarint_from_length_le (fuel : Nat) (below : small ≤ large) :
    (putUvarintFrom fuel small).length ≤ (putUvarintFrom fuel large).length := by
  induction fuel generalizing small large with
  | zero => exact le_rfl
  | succ fuel hypothesis =>
    unfold putUvarintFrom
    by_cases fits : large < 128
    · rw [if_pos fits, if_pos (below.trans_lt fits)]
      exact le_rfl
    rw [if_neg fits]
    split
    · exact Nat.le_add_left ..
    · exact Nat.succ_le_succ (hypothesis (Nat.div_le_div_right below))

theorem put_uvarint_length_le (below : small ≤ large) :
    (putUvarint small).length ≤ (putUvarint large).length :=
  put_uvarint_from_length_le 10 below

def delimitedLength (size : Nat) : Nat := (putUvarint size).length + size

theorem delimited_length_lt_iff :
    delimitedLength small < delimitedLength large ↔ small < large := by
  unfold delimitedLength
  constructor
  · intro shorter
    by_contra above
    have := put_uvarint_length_le (Nat.le_of_not_lt above)
    omega
  · intro below
    have := put_uvarint_length_le below.le
    omega

theorem delimited_length_le_iff :
    delimitedLength small ≤ delimitedLength large ↔ small ≤ large := by
  rw [← not_lt, delimited_length_lt_iff, not_lt]

end Tendermint.Wire

namespace Tendermint.P2P

open Types List
open Wire hiding Bytes

structure PacketMsg where
  channelID : Int
  eof : Bool
  data : Bytes
  deriving DecidableEq, Repr

def PacketMsg.marshal (packet : PacketMsg) : Bytes :=
  encodeFields (int64Field 1 packet.channelID ++ uintField 2 packet.eof.toNat ++
    bytesField 3 packet.data)

def mustWrapPacket (packet : PacketMsg) : Bytes := encodeFields [⟨3, .bytes packet.marshal⟩]

def maxPacketMsgSize (maxPacketMsgPayloadSize : Nat) : Nat :=
  (mustWrapPacket
    { channelID := 0x01
      eof := true
      data := List.replicate maxPacketMsgPayloadSize 0 }).length

structure Channel where
  id : UInt8
  sending : Bytes
  sendQueueSize : Int
  maxPacketMsgPayloadSize : Nat

def Channel.nextPacketMsg (ch : Channel) : PacketMsg × Channel :=
  let maxSize := ch.maxPacketMsgPayloadSize
  let data := ch.sending.take (min maxSize ch.sending.length)
  if ch.sending.length ≤ maxSize then
    ({ channelID := ch.id.toNat, eof := true, data },
      { ch with sending := [], sendQueueSize := ch.sendQueueSize - 1 })
  else
    ({ channelID := ch.id.toNat, eof := false, data },
      { ch with sending := ch.sending.drop (min maxSize ch.sending.length) })

/-! ### Sizes -/

theorem wrapped_length (packet : PacketMsg) :
    (mustWrapPacket packet).length = 1 + delimitedLength packet.marshal.length := by
  simp only [mustWrapPacket, encodeFields, flatMap_cons, flatMap_nil, append_nil,
    Field.encode, Value.wireType, Value.encode, length_append, delimitedLength]
  rfl

theorem marshal_length (packet : PacketMsg) :
    packet.marshal.length = (encodeFields (int64Field 1 packet.channelID)).length +
      2 * packet.eof.toNat + (encodeFields (bytesField 3 packet.data)).length := by
  simp only [PacketMsg.marshal, encodeFields, flatMap_append, length_append]
  cases packet.eof <;> rfl

theorem channel_field_length (id : UInt8) :
    (id.toNat < 128 ∧ (encodeFields (int64Field 1 id.toNat)).length ≤ 2) ∨
      (128 ≤ id.toNat ∧ (encodeFields (int64Field 1 id.toNat)).length = 3) := by
  revert id
  decide +kernel

theorem data_field_length {data : Bytes} (some : data ≠ []) :
    (encodeFields (bytesField 3 data)).length = 1 + delimitedLength data.length := by
  simp only [bytesField, if_neg some, encodeFields, flatMap_cons, flatMap_nil,
    append_nil, Field.encode, Value.wireType, Value.encode, length_append,
    delimitedLength]
  rfl

theorem data_field_length_le (data : Bytes) :
    (encodeFields (bytesField 3 data)).length ≤ 1 + delimitedLength data.length := by
  by_cases empty : data = []
  · subst empty
    exact Nat.zero_le _
  · exact (data_field_length empty).le

theorem sample_length {payload : Nat} (positive : 0 < payload) :
    maxPacketMsgSize payload = 1 + delimitedLength (5 + delimitedLength payload) := by
  unfold maxPacketMsgSize
  rw [wrapped_length, marshal_length, data_field_length (by simp; omega), length_replicate]
  rw [← Nat.add_assoc]
  rfl

theorem next_packet_data (ch : Channel) :
    ch.nextPacketMsg.1.channelID = ch.id.toNat ∧
      ch.nextPacketMsg.1.data.length ≤ ch.maxPacketMsgPayloadSize := by
  unfold Channel.nextPacketMsg
  dsimp only
  split
  · exact ⟨rfl, (length_take_le ..).trans (min_le_left ..)⟩
  · exact ⟨rfl, (length_take_le ..).trans (min_le_left ..)⟩

/-- The packets of a channel stay below the limit exactly if its ID takes one varint byte, as
the ID of the sample does. -/
theorem packets_within_limit_iff (id : UInt8) (payload : Nat) (positive : 0 < payload) :
    (∀ ch : Channel, ch.id = id → ch.maxPacketMsgPayloadSize = payload →
      (mustWrapPacket ch.nextPacketMsg.1).length ≤ maxPacketMsgSize payload) ↔ id.toNat < 128 := by
  rw [sample_length positive]
  constructor
  · intro within
    by_contra large
    -- a message that fills the payload makes one packet, as long as the sample but for the ID
    let ch : Channel := ⟨id, List.replicate payload 0, 1, payload⟩
    have size := within ch rfl rfl
    have last : ch.nextPacketMsg.1 = ⟨id.toNat, true, List.replicate payload 0⟩ := by
      simp [Channel.nextPacketMsg, ch]
    rw [last, wrapped_length, Nat.add_le_add_iff_left, delimited_length_le_iff,
      marshal_length] at size
    dsimp only at size
    rw [data_field_length (by simp; omega), length_replicate] at size
    have channel := channel_field_length id
    simp only [Bool.toNat_true] at size
    omega
  · rintro small ch rfl rfl
    obtain ⟨same, short⟩ := next_packet_data ch
    rw [wrapped_length, Nat.add_le_add_iff_left, delimited_length_le_iff, marshal_length, same]
    have channel := channel_field_length ch.id
    have eof := Bool.toNat_le ch.nextPacketMsg.1.eof
    have data := data_field_length_le ch.nextPacketMsg.1.data
    have bounded := delimited_length_le_iff.mpr short
    omega

theorem packets_within_limit_vote :
    (mustWrapPacket (Channel.nextPacketMsg ⟨0x22, [1, 2, 3], 1, 2⟩).1).length ≤
      maxPacketMsgSize 2 :=
  (packets_within_limit_iff 0x22 2 (by decide)).mpr (by decide) _ rfl rfl

/-- On channel 0x80 a message of just the payload size makes a packet that the peer refuses. -/
theorem packet_above_limit :
    maxPacketMsgSize 1400 <
      (mustWrapPacket (Channel.nextPacketMsg ⟨0x80, List.replicate 1400 0, 1, 1400⟩).1).length := by
  decide +kernel

end Tendermint.P2P
