import Tendermint.Lib.Framing
import Tendermint.Lib.Loop
import Tendermint.Types.Basic

/-!
internal/consensus/wal.go with the reader of libs/autofile: the decoding of the
write-ahead log and the search for the mark of a height. The checksum and the
protobuf decoding are parameters; the messages other than the marks are kept as
they are. Opening a file, the logger and the closing of readers are left out.
-/

namespace Tendermint.Consensus

open Types List

def maxMsgSize : Nat := 1048576

def maxMsgSizeBytes : Nat := maxMsgSize + 24

inductive WALMessage where
  | endHeight (height : Int)
  /-- A round state event, a message of a peer or a timeout. -/
  | other (payload : Bytes)
  deriving DecidableEq, Repr

structure TimedWALMessage where
  time : Time
  msg : WALMessage
  deriving DecidableEq, Repr

/-- crc32c, and proto.Unmarshal with WALFromProto. -/
structure Coding where
  checksum : Bytes → Fin (2 ^ 32)
  unmarshal : Bytes → Option TimedWALMessage

def Coding.frame (coding : Coding) (data : Bytes) : Bytes :=
  Framing.putUint32 (coding.checksum data) ++ Framing.putUint32 data.length ++ data

inductive Corruption where
  | readChecksum
  | readLength
  | length (length : Nat)
  | readData (read wanted : Nat)
  | checksums (read actual : Nat)
  | decode
  deriving DecidableEq, Repr

inductive DecodeError where
  | eof
  | corruption (cause : Corruption)
  deriving DecidableEq, Repr

/-- The rest of the current file and the files after it. -/
structure GroupReader where
  current : Bytes
  later : List Bytes
  deriving DecidableEq, Repr

namespace GroupReader

def bytes (reader : GroupReader) : Bytes := reader.current ++ reader.later.flatten

inductive ReadError where
  | emptySlice
  | eof
  deriving DecidableEq, Repr

/-- The loop of Read: it goes on into the next file until the slice is full. -/
def fill : Nat → Bytes → List Bytes → Bytes × Option ReadError × GroupReader
  | wanted, current, [] =>
    if wanted ≤ current.length then (current.take wanted, none, ⟨current.drop wanted, []⟩)
    else (current, some .eof, ⟨[], []⟩)
  | wanted, current, file :: later =>
    if wanted ≤ current.length then
      (current.take wanted, none, ⟨current.drop wanted, file :: later⟩)
    else
      let (more, error, reader) := fill (wanted - current.length) file later
      (current ++ more, error, reader)

def read (reader : GroupReader) (lenP : Nat) : Bytes × Option ReadError × GroupReader :=
  if lenP = 0 then ([], some .emptySlice, reader) else fill lenP reader.current reader.later

def decodeData (coding : Coding) (crc : Nat) (data : Bytes) :
    Except DecodeError TimedWALMessage :=
  if coding.checksum data ≠ crc then
    .error (.corruption (.checksums crc (coding.checksum data)))
  else match coding.unmarshal data with
    | none => .error (.corruption .decode)
    | some message => .ok message

def decode (coding : Coding) (reader : GroupReader) :
    Except DecodeError TimedWALMessage × GroupReader :=
  match reader.read 4 with
  | (_, some .eof, reader) => (.error .eof, reader)
  | (_, some .emptySlice, reader) => (.error (.corruption .readChecksum), reader)
  | (crc, none, reader) =>
    match reader.read 4 with
    | (_, some _, reader) => (.error (.corruption .readLength), reader)
    | (word, none, reader) =>
      let length := Framing.uint32 word
      if maxMsgSizeBytes < length then (.error (.corruption (.length length)), reader)
      else match reader.read length with
        | (data, some _, reader) =>
          (.error (.corruption (.readData data.length length)), reader)
        | (data, none, reader) => (decodeData coding (Framing.uint32 crc) data, reader)

end GroupReader

inductive SearchResult where
  | found (reader : GroupReader)
  | notFound
  | failed (error : DecodeError)
  deriving DecidableEq, Repr

/-- The files that are not read yet from the newest on, the file read now with
those after it, and the variables of the loop. -/
structure Search where
  older : List Bytes
  opened : List Bytes
  reader : GroupReader
  lastHeightFound : Int
  deriving DecidableEq, Repr

namespace Search

def start (newest : Bytes) (older : List Bytes) : Search := ⟨older, [newest], ⟨newest, []⟩, -1⟩

def body (coding : Coding) (height : Int) (ignoreDataCorruptionErrors : Bool) (s : Search) :
    SearchResult ⊕ Search :=
  match s.reader.decode coding with
  | (.error .eof, _) =>
    -- No need to look in older files if a lower height was seen.
    if 0 < s.lastHeightFound ∧ s.lastHeightFound < height then .inl .notFound
    else match s.older with
      | [] => .inl .notFound
      | file :: older =>
        .inr ⟨older, file :: s.opened, ⟨file, s.opened⟩, s.lastHeightFound⟩
  | (.error (.corruption cause), reader) =>
    if ignoreDataCorruptionErrors then .inr { s with reader := reader }
    else .inl (.failed (.corruption cause))
  | (.ok message, reader) =>
    match message.msg with
    | .other _ => .inr { s with reader := reader }
    | .endHeight marked =>
      if marked = height then .inl (.found reader)
      else .inr { s with reader := reader, lastHeightFound := marked }

end Search

/-- SearchForEndHeight, on the files of the group from the newest on. -/
def SearchesForEndHeight (coding : Coding) (newest : Bytes) (older : List Bytes) (height : Int)
    (ignoreDataCorruptionErrors : Bool) (result : SearchResult) : Prop :=
  Loop.Returns (Search.body coding height ignoreDataCorruptionErrors) (Search.start newest older)
    result

section Decoding

variable (coding : Coding)

def Coding.accept (crc : Nat) (data : Bytes) : Option TimedWALMessage :=
  if coding.checksum data = crc then coding.unmarshal data else none

variable {coding} in
theorem Coding.accept_some {crc : Nat} {data : Bytes} {message : TimedWALMessage}
    (accepted : coding.accept crc data = some message) : coding.unmarshal data = some message := by
  unfold accept at accepted
  split at accepted
  · exact accepted
  · cases accepted

namespace GroupReader

theorem bytes_cons (current file : Bytes) (later : List Bytes) :
    (GroupReader.mk current (file :: later)).bytes = current ++ (GroupReader.mk file later).bytes :=
  rfl

theorem fill_enough {wanted : Nat} {current : Bytes} {later : List Bytes}
    (enough : wanted ≤ (GroupReader.mk current later).bytes.length) : ∃ rest : GroupReader,
    fill wanted current later = ((GroupReader.mk current later).bytes.take wanted, none, rest) ∧
      rest.bytes = (GroupReader.mk current later).bytes.drop wanted := by
  induction later generalizing wanted current with
  | nil =>
    simp only [bytes, flatten_nil, append_nil] at enough ⊢
    rw [fill, if_pos enough]
    exact ⟨⟨current.drop wanted, []⟩, rfl, by simp⟩
  | cons file later ih =>
    rw [bytes_cons] at enough ⊢
    by_cases inside : wanted ≤ current.length
    · rw [fill, if_pos inside, take_append_of_le_length inside,
        drop_append_of_le_length inside]
      exact ⟨⟨current.drop wanted, file :: later⟩, rfl, by simp [bytes]⟩
    · rw [length_append] at enough
      obtain ⟨rest, filled, left⟩ := @ih (wanted - current.length) file (by omega)
      rw [fill, if_neg inside, filled, take_append, drop_append,
        take_of_length_le (by omega : current.length ≤ wanted),
        drop_of_length_le (by omega : current.length ≤ wanted)]
      exact ⟨rest, rfl, left⟩

theorem fill_short {wanted : Nat} {current : Bytes} {later : List Bytes}
    (short : (GroupReader.mk current later).bytes.length < wanted) : ∃ rest : GroupReader,
    fill wanted current later = ((GroupReader.mk current later).bytes, some .eof, rest) ∧
      rest.bytes = [] := by
  induction later generalizing wanted current with
  | nil =>
    simp only [bytes, flatten_nil, append_nil] at short ⊢
    rw [fill, if_neg (Nat.not_le.mpr short)]
    exact ⟨⟨[], []⟩, rfl, rfl⟩
  | cons file later ih =>
    rw [bytes_cons, length_append] at short
    rw [bytes_cons]
    obtain ⟨rest, filled, left⟩ := @ih (wanted - current.length) file (by omega)
    rw [fill, if_neg (by omega), filled]
    exact ⟨rest, rfl, left⟩

theorem read_enough (reader : GroupReader) (wanted : Nat) (positive : 0 < wanted)
    (enough : wanted ≤ reader.bytes.length) : ∃ rest : GroupReader,
    reader.read wanted = (reader.bytes.take wanted, none, rest) ∧
      rest.bytes = reader.bytes.drop wanted := by
  rw [read, if_neg (by omega)]
  exact fill_enough enough

theorem read_short (reader : GroupReader) (wanted : Nat) (short : reader.bytes.length < wanted) :
    ∃ rest : GroupReader, reader.read wanted = (reader.bytes, some .eof, rest) ∧
      rest.bytes = [] := by
  rw [read, if_neg (by omega)]
  exact fill_short short

inductive Decodes (coding : Coding) (reader : GroupReader) : Framing.Step TimedWALMessage → Prop
  | eof (rest : GroupReader) (decoded : reader.decode coding = (.error .eof, rest)) :
      Decodes coding reader .finished
  | corruption (cause : Corruption) (rest : GroupReader)
      (decoded : reader.decode coding = (.error (.corruption cause), rest)) :
      Decodes coding reader (.skipped rest.bytes)
  | message (message : TimedWALMessage) (rest : GroupReader)
      (decoded : reader.decode coding = (.ok message, rest)) :
      Decodes coding reader (.item message rest.bytes)

theorem decode_spec (reader : GroupReader) :
    Decodes coding reader (Framing.next maxMsgSizeBytes coding.accept reader.bytes) := by
  unfold Framing.next
  by_cases empty : reader.bytes.length < 4
  · rw [if_pos empty]
    obtain ⟨rest, read, _⟩ := read_short reader 4 empty
    exact .eof rest (by rw [decode, read])
  rw [if_neg empty]
  obtain ⟨afterCrc, readCrc, crcLeft⟩ := read_enough reader 4 (by decide) (by omega)
  by_cases half : reader.bytes.length < 8
  · rw [if_pos half]
    obtain ⟨rest, read, left⟩ := read_short afterCrc 4 (by rw [crcLeft, length_drop]; omega)
    rw [← left]
    exact .corruption .readLength rest (by rw [decode, readCrc]; dsimp only; rw [read])
  rw [if_neg half]
  obtain ⟨afterLength, readLength, lengthLeft⟩ :=
    read_enough afterCrc 4 (by decide) (by rw [crcLeft, length_drop]; omega)
  have word : afterCrc.bytes.take 4 = (reader.bytes.take 8).drop 4 := by
    rw [crcLeft, drop_take]
  have behind : afterLength.bytes = reader.bytes.drop 8 := by
    rw [lengthLeft, crcLeft, drop_drop]
  dsimp only
  unfold Framing.lengthOf
  rw [← word]
  have decoded : reader.decode coding =
      (if maxMsgSizeBytes < Framing.uint32 (afterCrc.bytes.take 4) then
        (.error (.corruption (.length (Framing.uint32 (afterCrc.bytes.take 4)))), afterLength)
      else match afterLength.read (Framing.uint32 (afterCrc.bytes.take 4)) with
        | (data, some _, reader) => (.error (.corruption (.readData data.length
            (Framing.uint32 (afterCrc.bytes.take 4)))), reader)
        | (data, none, rest) =>
          (decodeData coding (Framing.uint32 (reader.bytes.take 4)) data, rest)) := by
    rw [decode, readCrc]
    dsimp only
    rw [readLength]
  generalize Framing.uint32 (afterCrc.bytes.take 4) = length at *
  by_cases void : maxMsgSizeBytes < length ∨ length = 0
  · rw [if_pos void, ← behind]
    rcases void with above | rfl
    · exact .corruption _ afterLength (by rw [decoded, if_pos above])
    · exact .corruption _ afterLength (by rw [decoded, if_neg (by omega)]; rfl)
  rw [if_neg void]
  by_cases cut : reader.bytes.length < 8 + length
  · rw [if_pos cut]
    obtain ⟨rest, read, left⟩ :=
      read_short afterLength length (by rw [behind, length_drop]; omega)
    rw [← left]
    exact .corruption _ rest (by rw [decoded, if_neg (by omega), read])
  rw [if_neg cut]
  obtain ⟨rest, read, left⟩ :=
    read_enough afterLength length (by omega) (by rw [behind, length_drop]; omega)
  rw [behind] at read
  have after : rest.bytes = reader.bytes.drop (8 + length) := by
    rw [left, behind, drop_drop]
  rw [if_neg (by omega), read] at decoded
  dsimp only at decoded
  rw [← after]
  unfold Coding.accept
  unfold decodeData at decoded
  by_cases same : coding.checksum ((reader.bytes.drop 8).take length) =
      Framing.uint32 (reader.bytes.take 4)
  · rw [if_neg (not_not.mpr same)] at decoded
    rw [if_pos same]
    cases parsed : coding.unmarshal ((reader.bytes.drop 8).take length) with
    | none =>
      rw [parsed] at decoded
      exact .corruption _ rest decoded
    | some message =>
      rw [parsed] at decoded
      exact .message message rest decoded
  · rw [if_pos same] at decoded
    rw [if_neg same]
    exact .corruption _ rest decoded

variable {coding} {reader : GroupReader} {rest : Bytes}

theorem decode_finished
    (finished : Framing.next maxMsgSizeBytes coding.accept reader.bytes = .finished) :
    ∃ after, reader.decode coding = (.error .eof, after) := by
  have decodes := reader.decode_spec coding
  rw [finished] at decodes
  cases decodes with
  | eof after decoded => exact ⟨after, decoded⟩

theorem decode_skipped
    (skipped : Framing.next maxMsgSizeBytes coding.accept reader.bytes = .skipped rest) :
    ∃ cause after, reader.decode coding = (.error (.corruption cause), after) ∧
      after.bytes = rest := by
  have decodes := reader.decode_spec coding
  generalize Framing.next maxMsgSizeBytes coding.accept reader.bytes = step at decodes skipped
  cases decodes with
  | eof after decoded => cases skipped
  | message message after decoded => cases skipped
  | corruption cause after decoded =>
    exact ⟨cause, after, decoded, Framing.Step.skipped.inj skipped⟩

theorem decode_item {message : TimedWALMessage}
    (item : Framing.next maxMsgSizeBytes coding.accept reader.bytes = .item message rest) :
    ∃ after, reader.decode coding = (.ok message, after) ∧ after.bytes = rest := by
  have decodes := reader.decode_spec coding
  generalize Framing.next maxMsgSizeBytes coding.accept reader.bytes = step at decodes item
  cases decodes with
  | eof after decoded => cases item
  | corruption cause after decoded => cases item
  | message found after decoded =>
    obtain ⟨rfl, left⟩ := Framing.Step.item.inj item
    exact ⟨after, decoded, left⟩

end GroupReader

end Decoding

end Tendermint.Consensus
