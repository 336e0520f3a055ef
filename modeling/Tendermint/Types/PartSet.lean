import Tendermint.Lib.Quorum
import Tendermint.Crypto.Merkle

/-!
types/part_set.go: the parts a block is gossiped in, and the reader over them. A
nil part set is `none` at its holder. The number of parts is computed on uint32
and wraps; the indices of parts stay below it.
-/

namespace Tendermint.Types

open List
open Merkle (Hashing)
open Quorum (slot filled)

/-- types.BlockPartSizeBytes -/
def blockPartSizeBytes : Nat := 65536

structure Part where
  index : Nat
  bytes : Bytes
  proof : Merkle.Proof
  deriving DecidableEq, Repr

structure PartSet where
  total : Nat
  hash : Bytes
  parts : List (Option Part)
  partsBitArray : List Bool
  count : Nat
  byteSize : Int
  deriving DecidableEq, Repr

inductive AddPartError where
  | unexpectedIndex
  | invalidProof
  deriving DecidableEq, Repr

namespace PartSet

def newFromHeader (header : PartSetHeader) : PartSet where
  total := header.total
  hash := header.hash
  parts := List.replicate header.total none
  partsBitArray := List.replicate header.total false
  count := 0
  byteSize := 0

def newFromData (hashing : Hashing) (data : Bytes) (partSize : Nat) : PartSet :=
  let total := (data.length + partSize - 1) % 2 ^ 32 / partSize
  let partsBytes := (List.range total).map fun i => (data.drop (i * partSize)).take partSize
  let (root, proofs) := Merkle.proofsFromByteSlices hashing partsBytes
  { total := total
    hash := root
    parts := (partsBytes.zip proofs).zipIdx.map fun ((bytes, proof), i) => some ⟨i, bytes, proof⟩
    partsBitArray := List.replicate total true
    count := total
    byteSize := data.length }

def header (parts : PartSet) : PartSetHeader := ⟨parts.total, parts.hash⟩

def isComplete (parts : PartSet) : Bool := parts.count == parts.total

def addPart (hashing : Hashing) (parts : PartSet) (part : Part) :
    Except AddPartError Bool × PartSet :=
  if parts.total ≤ part.index then (.error .unexpectedIndex, parts)
  else match slot parts.parts part.index with
  | some _ => (.ok false, parts)
  | none =>
    if (part.proof.verify hashing parts.hash part.bytes).isSome then
      (.error .invalidProof, parts)
    else (.ok true, { parts with
      parts := parts.parts.set part.index (some part),
      partsBitArray := parts.partsBitArray.set part.index true,
      count := parts.count + 1,
      byteSize := parts.byteSize + part.bytes.length })

def content (parts : PartSet) : Bytes :=
  parts.parts.flatMap fun part => (part.map (·.bytes)).getD []

/-- A `PartSetReader`: what is left of the current part, and the parts after it. -/
structure Reader where
  left : Bytes
  later : List (Option Part)

def getReader (parts : PartSet) : Except String Reader :=
  if ¬ parts.isComplete then .error "Cannot GetReader() on incomplete PartSet"
  else match parts.parts with
  | [] => .error "index out of range [0] with length 0"
  | none :: _ => .error "invalid memory address or nil pointer dereference"
  | some part :: later => .ok ⟨part.bytes, later⟩

/-- What the bytes.Reader of the current part gives; an empty one reports the end
even for an empty buffer. -/
def readCurrent (size : Nat) (left : Bytes) (later : List (Option Part)) :
    Bytes × Bool × Reader := (left.take size, left.isEmpty, ⟨left.drop size, later⟩)

/-- `Read` into a buffer of `size` bytes: the bytes, whether the end was met, and
the reader afterwards. -/
def readFrom : List (Option Part) → Nat → Bytes → Except String (Bytes × Bool × Reader)
  | [], size, left =>
    if size ≤ left.length then .ok (readCurrent size left []) else .ok (left, true, ⟨[], []⟩)
  | next :: later, size, left =>
    if size ≤ left.length then .ok (readCurrent size left (next :: later))
    else match next with
    | none => .error "invalid memory address or nil pointer dereference"
    | some part => do
      let (more, atEnd, reader) ← readFrom later (size - left.length) part.bytes
      pure (left ++ more, atEnd, reader)

def Reader.read (reader : Reader) (size : Nat) : Except String (Bytes × Bool × Reader) :=
  readFrom reader.later size reader.left

def Reader.readToEnd : Nat → (Nat → Nat) → Reader → Except String (Option Bytes)
  | 0, _, _ => .ok none
  | fuel + 1, sizes, reader => do
    let (bytes, atEnd, next) ← reader.read (sizes 0)
    if atEnd then pure (some bytes)
    else pure ((← next.readToEnd fuel fun turn => sizes (turn + 1)).map (bytes ++ ·))

structure Counted (parts : PartSet) : Prop where
  length : parts.parts.length = parts.total
  count : parts.count = (filled parts.parts).card

theorem counted_new_from_header (header : PartSetHeader) : (newFromHeader header).Counted := by
  constructor
  · simp [newFromHeader]
  · simp [newFromHeader, Quorum.filled_replicate]

theorem header_add_part (hashing : Hashing) (parts : PartSet) (part : Part) :
    (parts.addPart hashing part).2.header = parts.header := by
  unfold addPart
  split
  · rfl
  split
  · rfl
  split <;> rfl

variable {parts : PartSet}

theorem counted_add_part (hashing : Hashing) (part : Part) (counted : parts.Counted) :
    (parts.addPart hashing part).2.Counted := by
  unfold addPart
  split
  · exact counted
  rename_i inside
  have room : part.index < parts.parts.length := by rw [counted.length]; omega
  cases present : slot parts.parts part.index with
  | some existing => exact counted
  | none =>
  simp only
  split
  · exact counted
  constructor
  · simpa using counted.length
  · have vacant : part.index ∉ filled parts.parts := by
      rw [Quorum.mem_filled, present]
      simp
    simp only [Quorum.filled_set part room, Finset.card_insert_of_notMem vacant, counted.count]

theorem present_of_complete (counted : parts.Counted) (complete : parts.isComplete = true)
    (index : Nat) (inside : index < parts.total) :
    ∃ part, slot parts.parts index = some part := by
  have all : filled parts.parts = Finset.range parts.parts.length := by
    apply Finset.eq_of_subset_of_card_le (Quorum.filled_subset _)
    have same : parts.count = parts.total := by simpa [isComplete] using complete
    rw [Finset.card_range, counted.length, ← counted.count, same]
  apply (Quorum.mem_filled _ _).mp
  rw [all, Finset.mem_range, counted.length]
  exact inside

def Reader.remaining (reader : Reader) : Bytes :=
  reader.left ++ reader.later.flatMap fun part => (part.map (·.bytes)).getD []

/-- What one `Read` does: it gives a piece of what remains, as much as was asked
for, or all of it. -/
structure Reads (start : Reader) (size : Nat) (bytes : Bytes) (atEnd : Bool) (next : Reader) :
    Prop where
  split : bytes ++ next.remaining = start.remaining
  present : ∀ part ∈ next.later, part ≠ none
  full : atEnd = false → bytes.length = size
  ended : atEnd = true → next.remaining = []

section

variable (later : List (Option Part)) (present : ∀ part ∈ later, part ≠ none) (size : Nat)
  (positive : 0 < size) (left : Bytes)

include present positive

theorem read_current_spec (enough : size ≤ left.length) :
    ∃ next, readCurrent size left later = (left.take size, false, next) ∧
      Reads ⟨left, later⟩ size (left.take size) false next := by
  have more : left.isEmpty = false := by
    cases left with
    | nil => simp at enough; omega
    | cons _ _ => rfl
  refine ⟨_, by rw [readCurrent, more], ?_, present, ?_, by simp⟩
  · simp only [Reader.remaining, ← append_assoc, take_append_drop]
  · intro _
    simpa using enough

theorem read_from_spec : ∃ bytes atEnd next, readFrom later size left = .ok (bytes, atEnd, next) ∧
      Reads ⟨left, later⟩ size bytes atEnd next := by
  induction later generalizing size left with
  | nil =>
    unfold readFrom
    by_cases enough : size ≤ left.length
    · obtain ⟨next, read, reads⟩ := read_current_spec [] present size positive left enough
      exact ⟨_, _, next, by rw [if_pos enough, read], reads⟩
    · rw [if_neg enough]
      exact ⟨left, true, ⟨[], []⟩, rfl, by simp [Reader.remaining], by simp, by simp,
        by simp [Reader.remaining]⟩
  | cons head later ih =>
    unfold readFrom
    by_cases enough : size ≤ left.length
    · obtain ⟨next, read, reads⟩ :=
        read_current_spec (head :: later) present size positive left enough
      exact ⟨_, _, next, by rw [if_pos enough, read], reads⟩
    · rw [if_neg enough]
      cases head with
      | none => exact absurd rfl (present none mem_cons_self)
      | some part =>
      obtain ⟨bytes, atEnd, next, read, reads⟩ := ih
        (fun other member => present other (mem_cons_of_mem _ member))
        (size - left.length) (by omega) part.bytes
      simp only [read, bind_eq, pure_eq]
      refine ⟨_, _, next, rfl, ?_, reads.present, ?_, reads.ended⟩
      · rw [append_assoc, reads.split]
        simp [Reader.remaining]
      · intro continues
        rw [length_append, reads.full continues]
        omega

end

theorem read_to_end_eq (fuel : Nat) {sizes : Nat → Nat} (positive : ∀ turn, 0 < sizes turn)
    {reader : Reader} (present : ∀ part ∈ reader.later, part ≠ none)
    (enough : reader.remaining.length < fuel) :
    reader.readToEnd fuel sizes = .ok (some reader.remaining) := by
  induction fuel generalizing sizes reader with
  | zero => omega
  | succ fuel ih =>
  obtain ⟨bytes, atEnd, next, read, reads⟩ :=
    read_from_spec reader.later present (sizes 0) (positive 0) reader.left
  unfold Reader.readToEnd Reader.read
  rw [read]
  simp only [bind_eq, pure_eq]
  have split : bytes ++ next.remaining = reader.remaining := reads.split
  cases atEnd with
  | true =>
    rw [if_pos rfl, ← split, reads.ended rfl, append_nil]
  | false =>
  have size := reads.full rfl
  have first := positive 0
  have shorter : next.remaining.length < fuel := by
    rw [← split, length_append] at enough
    omega
  simp only [Bool.false_eq_true, if_false,
    ih (fun turn => positive (turn + 1)) reads.present shorter, Option.map_some,
    split]

theorem get_reader_content (counted : parts.Counted) (complete : parts.isComplete = true)
    (nonempty : parts.total ≠ 0) :
    ∃ reader, parts.getReader = .ok reader ∧ reader.remaining = parts.content ∧
      ∀ part ∈ reader.later, part ≠ none := by
  have present : ∀ part ∈ parts.parts, part ≠ none := by
    intro part member
    obtain ⟨index, inside, rfl⟩ := getElem_of_mem member
    obtain ⟨stored, found⟩ := present_of_complete counted complete index
      (by rw [← counted.length]; exact inside)
    rw [slot, getD_eq_getElem?_getD, getElem?_eq_getElem inside, Option.getD_some] at found
    rw [found]
    exact Option.some_ne_none _
  unfold getReader content
  rw [if_neg (by simpa using complete)]
  cases shape : parts.parts with
  | nil =>
    have length := counted.length
    rw [shape] at length
    exact absurd length.symm nonempty
  | cons head later =>
    rw [shape] at present
    cases head with
    | none => exact absurd rfl (present none mem_cons_self)
    | some part =>
      exact ⟨_, rfl, by simp [Reader.remaining],
        fun other member => present other (mem_cons_of_mem _ member)⟩

end PartSet

end Tendermint.Types
