import Tendermint.Types.PartSet

/-!
A part set filled from outside is the data its header was made from, as long as
each part comes with the proof of its own position. `AddPart` itself compares
neither the index nor the total of the proof with the slot that the part is put
into.
-/

namespace Tendermint.Types.PartSet

open List
open Merkle (Hashing)
open Quorum (slot filled)

section Data

variable (hashing : Hashing) (data : Bytes) (partSize : Nat)

def partBytes (index : Nat) : Bytes := (data.drop (index * partSize)).take partSize

def partTotal : Nat := (data.length + partSize - 1) % 2 ^ 32 / partSize

def partList : List Bytes := (List.range (partTotal data partSize)).map (partBytes data partSize)

theorem header_new_from_data :
    (newFromData hashing data partSize).header =
      ⟨partTotal data partSize,
        (Merkle.proofsFromByteSlices hashing (partList data partSize)).1⟩ := rfl

theorem flatten_parts (count : Nat) :
    ((List.range count).map (partBytes data partSize)).flatten = data.take (count * partSize) := by
  induction count with
  | zero => simp
  | succ count ih =>
    rw [range_succ, map_append, flatten_append, ih, Nat.succ_mul, take_add]
    simp [partBytes]

theorem part_total_covers (positive : 0 < partSize) (fits : data.length + partSize ≤ 2 ^ 32) :
    data.length ≤ partTotal data partSize * partSize := by
  unfold partTotal
  rw [Nat.mod_eq_of_lt (by omega)]
  have rounded := Nat.div_add_mod (data.length + partSize - 1) partSize
  have remainder := Nat.mod_lt (data.length + partSize - 1) positive
  rw [Nat.mul_comm] at rounded
  omega

def storedSize (parts : List (Option Part)) : Nat :=
  (parts.map fun part => (part.map (·.bytes.length)).getD 0).sum

theorem stored_size_set (parts : List (Option Part)) (index : Nat) (part : Part)
    (inside : index < parts.length) (vacant : slot parts index = none) :
    storedSize (parts.set index (some part)) = storedSize parts + part.bytes.length := by
  induction parts generalizing index with
  | nil => simp at inside
  | cons head rest ih =>
  cases index with
  | zero =>
    have empty : head = none := by simpa [slot] using vacant
    simp [storedSize, empty, Nat.add_comm]
  | succ index =>
    have later := ih index (by simpa using inside) (by simpa [slot] using vacant)
    simp only [storedSize, set_cons_succ, map_cons, sum_cons] at later ⊢
    omega

structure Filling (parts : PartSet) : Prop where
  header : parts.header = (newFromData hashing data partSize).header
  counted : parts.Counted
  size : parts.byteSize = storedSize parts.parts
  bytes : ∀ index part, slot parts.parts index = some part →
    part.bytes = partBytes data partSize index

theorem filling_start :
    Filling hashing data partSize (newFromHeader (newFromData hashing data partSize).header) where
  header := rfl
  counted := counted_new_from_header _
  size := by simp [newFromHeader, storedSize]
  bytes := by
    intro index part found
    simp [newFromHeader, Quorum.slot_replicate] at found

/-- The proof is for the slot that the part is put into. -/
def OwnProof (part : Part) : Prop :=
  part.proof.index = part.index ∧ part.proof.total = partTotal data partSize

variable {parts : PartSet}

theorem add_part_true {part : Part} (added : (parts.addPart hashing part).1 = .ok true) :
    part.index < parts.total ∧ slot parts.parts part.index = none ∧
      part.proof.verify hashing parts.hash part.bytes = none ∧
      (parts.addPart hashing part).2 = { parts with
        parts := parts.parts.set part.index (some part),
        partsBitArray := parts.partsBitArray.set part.index true,
        count := parts.count + 1,
        byteSize := parts.byteSize + part.bytes.length } := by
  unfold addPart at added ⊢
  split at added
  · cases added
  rename_i inside
  cases vacant : slot parts.parts part.index with
  | some existing => simp [vacant] at added
  | none =>
  simp only [vacant] at added
  split at added
  · cases added
  · rename_i verified
    refine ⟨by omega, rfl, by simpa using verified, ?_⟩
    simp [inside, verified]

theorem add_part_refused {part : Part} (refused : (parts.addPart hashing part).1 ≠ .ok true) :
    (parts.addPart hashing part).2 = parts := by
  unfold addPart at refused ⊢
  split
  · rfl
  rename_i inside
  rw [if_neg inside] at refused
  cases vacant : slot parts.parts part.index with
  | some existing => rfl
  | none =>
  simp only [vacant] at refused ⊢
  split
  · rfl
  · rename_i verified
    simp [verified] at refused

section

variable (sized : hashing.Sized) (binding : hashing.Binding (partList data partSize))
  (parts : PartSet) (filling : Filling hashing data partSize parts) (part : Part)
  (own : OwnProof data partSize part)

include sized binding filling own

theorem added_part_bytes (added : (parts.addPart hashing part).1 = .ok true) :
    part.bytes = partBytes data partSize part.index := by
  obtain ⟨inside, _, verified, _⟩ := add_part_true hashing added
  have header := filling.header
  rw [header_new_from_data, PartSet.header, PartSetHeader.mk.injEq] at header
  have root : (Merkle.proofsFromByteSlices hashing (partList data partSize)).1 = _ :=
    Merkle.trails_root hashing _ _
  rw [header.2, root] at verified
  have listed := (Merkle.verify_sound hashing sized (partList data partSize) binding.nodes
    part.proof part.bytes (by rw [own.2]; simp [partList]) verified).2
  rw [own.1, Int.toNat_natCast] at listed
  simp only [partList, getElem?_map, Option.map_eq_some_iff] at listed
  obtain ⟨number, position, same⟩ := listed
  rw [← same, ← (getElem?_range (by omega)).symm.trans position |> Option.some.inj]

theorem filling_add_part : Filling hashing data partSize (parts.addPart hashing part).2 := by
  by_cases added : (parts.addPart hashing part).1 = .ok true
  · have bytes := added_part_bytes hashing data partSize sized binding parts filling part own added
    obtain ⟨inside, vacant, _, after⟩ := add_part_true hashing added
    have room : part.index < parts.parts.length := by rw [filling.counted.length]; exact inside
    refine ⟨(header_add_part hashing parts part).trans filling.header,
      counted_add_part hashing part filling.counted, ?_, ?_⟩
    · rw [after]
      simp only [stored_size_set _ _ part room vacant, filling.size, Int.natCast_add]
    · intro index stored found
      rw [after] at found
      simp only [Quorum.slot_set _ _ room] at found
      split at found
      · rename_i same
        cases found
        rw [same]
        exact bytes
      · exact filling.bytes index stored found
  · rw [add_part_refused hashing added]
    exact filling

end

def addParts (start : PartSet) (calls : List Part) : PartSet :=
  calls.foldl (fun parts part => (parts.addPart hashing part).2) start

theorem filling_add_parts (sized : hashing.Sized)
    (binding : hashing.Binding (partList data partSize)) {calls : List Part} {start : PartSet}
    (filling : Filling hashing data partSize start)
    (own : ∀ part ∈ calls, OwnProof data partSize part) :
    Filling hashing data partSize (addParts hashing start calls) := by
  induction calls generalizing start with
  | nil => exact filling
  | cons part rest ih =>
    exact ih (filling_add_part hashing data partSize sized binding start filling part
        (own part mem_cons_self))
      fun other member => own other (mem_cons_of_mem _ member)

theorem content_of_complete (positive : 0 < partSize) (fits : data.length + partSize ≤ 2 ^ 32)
    (filling : Filling hashing data partSize parts) (complete : parts.isComplete = true) :
    parts.content = data := by
  have total : parts.total = partTotal data partSize := congrArg (·.total) filling.header
  have each : parts.parts.map (fun part => (part.map (·.bytes)).getD []) =
      (List.range (partTotal data partSize)).map (partBytes data partSize) := by
    apply ext_getElem
    · rw [length_map, length_map, length_range, filling.counted.length, total]
    · intro index inside _
      rw [length_map] at inside
      obtain ⟨part, found⟩ := present_of_complete filling.counted complete index
        (by rw [← filling.counted.length]; exact inside)
      have bytes := filling.bytes index part found
      rw [slot, getD_eq_getElem?_getD, getElem?_eq_getElem inside, Option.getD_some] at found
      simp [found, bytes]
  rw [content, flatMap_def, each, flatten_parts, take_of_length_le]
  exact part_total_covers data partSize positive fits

/-- For every sequence of parts that come with the proofs of their own positions,
only the parts of the data are added, the counters are those of the parts that
are there, and a complete set reads as the data. -/
theorem part_set_is_data (sized : hashing.Sized) (positive : 0 < partSize) (nonempty : data ≠ [])
    (fits : data.length + partSize ≤ 2 ^ 32) (binding : hashing.Binding (partList data partSize))
    (calls : List Part) (own : ∀ part ∈ calls, OwnProof data partSize part) (parts : PartSet)
    (reached : parts =
      addParts hashing (newFromHeader (newFromData hashing data partSize).header) calls) :
    (∀ part, OwnProof data partSize part → (parts.addPart hashing part).1 = .ok true →
      part.bytes = partBytes data partSize part.index) ∧
    parts.count = (filled parts.parts).card ∧ parts.byteSize = storedSize parts.parts ∧
    (parts.isComplete = true → ∀ sizes fuel, (∀ turn, 0 < sizes turn) → data.length < fuel →
      ∃ reader, parts.getReader = .ok reader ∧ reader.readToEnd fuel sizes = .ok (some data)) := by
  have filling : Filling hashing data partSize parts := by
    rw [reached]
    exact filling_add_parts hashing data partSize sized binding
      (filling_start hashing data partSize) own
  refine ⟨fun part => added_part_bytes hashing data partSize sized binding parts filling part,
    filling.counted.count, filling.size, ?_⟩
  intro complete sizes fuel some enough
  have content := content_of_complete hashing data partSize positive fits filling complete
  have total : parts.total = partTotal data partSize := congrArg (·.total) filling.header
  have several : parts.total ≠ 0 := by
    have covers := part_total_covers data partSize positive fits
    have length : data.length ≠ 0 := by simpa using nonempty
    intro none
    rw [← total, none] at covers
    omega
  obtain ⟨reader, given, remaining, present⟩ :=
    get_reader_content filling.counted complete several
  rw [content] at remaining
  refine ⟨reader, given, ?_⟩
  rw [read_to_end_eq fuel some present (by rw [remaining]; exact enough), remaining]

end Data

def tableHash : Hashing where
  sum input :=
    if input = [0, 5] then List.replicate 32 1
    else if input = [0, 6] then List.replicate 32 2
    else if input = 1 :: (List.replicate 32 1 ++ List.replicate 32 2) then List.replicate 32 3
    else List.replicate 32 0

theorem table_hash_cases (input : Bytes) :
    (input = [0, 5] ∧ tableHash.sum input = List.replicate 32 1) ∨
    (input = [0, 6] ∧ tableHash.sum input = List.replicate 32 2) ∨
    (input = 1 :: (List.replicate 32 1 ++ List.replicate 32 2) ∧
      tableHash.sum input = List.replicate 32 3) ∨
    tableHash.sum input = List.replicate 32 0 := by
  simp only [tableHash]
  split
  case isTrue first => exact Or.inl ⟨first, rfl⟩
  split
  case isTrue second => exact Or.inr (Or.inl ⟨second, rfl⟩)
  split
  case isTrue top => exact Or.inr (Or.inr (Or.inl ⟨top, rfl⟩))
  exact Or.inr (Or.inr (Or.inr rfl))

theorem table_hash_sized : tableHash.Sized := by
  intro input
  rcases table_hash_cases input with ⟨_, sum⟩ | ⟨_, sum⟩ | ⟨_, sum⟩ | sum <;> rw [sum] <;> rfl

theorem table_hash_binding : tableHash.Binding (partList [5, 6] 1) := by
  have hashed : Merkle.hashedWithin tableHash 2 [[5], [6]] =
      [1 :: (List.replicate 32 1 ++ List.replicate 32 2), [0, 5], [0, 6]] := by decide +kernel
  have listed : ∀ input ∈ [1 :: (List.replicate 32 1 ++ List.replicate 32 2), [0, 5], [0, 6]],
      tableHash.sum input ≠ List.replicate 32 0 := by decide +kernel
  intro input member other same
  rw [show partList [5, 6] 1 = [[5], [6]] by decide, length_cons, length_cons,
    length_nil, hashed] at member
  rcases table_hash_cases input with ⟨rfl, own⟩ | ⟨rfl, own⟩ | ⟨rfl, own⟩ | none
  case inr.inr.inr => exact absurd none (listed _ member)
  all_goals
    rw [own] at same
    rcases table_hash_cases other with ⟨rfl, sum⟩ | ⟨rfl, sum⟩ | ⟨rfl, sum⟩ | sum
    all_goals first
      | rfl
      | (rw [sum] at same; exact absurd same (by decide))

def secondPart (index : Nat) : Part :=
  ⟨index, [6], ⟨2, 1, List.replicate 32 2, [List.replicate 32 1]⟩⟩

def firstPart : Part := ⟨0, [5], ⟨2, 0, List.replicate 32 1, [List.replicate 32 2]⟩⟩

theorem both_parts_read :
    ∃ parts reader, parts = addParts tableHash
        (newFromHeader (newFromData tableHash [5, 6] 1).header) [secondPart 1, firstPart] ∧
      parts.count = 2 ∧ parts.getReader = .ok reader ∧
      reader.readToEnd 3 (fun _ => 3) = .ok (some [5, 6]) := by
  have own : ∀ part ∈ [secondPart 1, firstPart], OwnProof [5, 6] 1 part := by
    intro part member
    rcases List.mem_cons.mp member with rfl | last
    · exact ⟨by decide, by decide +kernel⟩
    · rw [List.mem_singleton.mp last]
      exact ⟨by decide, by decide +kernel⟩
  obtain ⟨_, _, _, reads⟩ := part_set_is_data tableHash [5, 6] 1 table_hash_sized (by decide)
    (by decide) (by decide) table_hash_binding [secondPart 1, firstPart] own _ rfl
  obtain ⟨reader, given, read⟩ :=
    reads (by decide +kernel) (fun _ => 3) 3 (fun _ => by decide) (by decide)
  exact ⟨_, reader, rfl, by decide +kernel, given, read⟩

/-- The second part is also taken as part number 0, and the set is then complete
with other bytes than the data. -/
theorem misplaced_part_added :
    ((newFromHeader (newFromData tableHash [5, 6] 1).header).addPart tableHash (secondPart 0)).1 =
      .ok true ∧ (secondPart 0).bytes ≠ partBytes [5, 6] 1 0 ∧
    ∃ parts, parts = addParts tableHash (newFromHeader (newFromData tableHash [5, 6] 1).header)
        [secondPart 0, secondPart 1] ∧ parts.isComplete = true ∧
      (parts.getReader.bind fun reader => reader.readToEnd 2 fun _ => 512) = .ok (some [6, 6]) := by
  exact ⟨by decide +kernel, by decide, _, rfl, by decide +kernel, by decide +kernel⟩

end Tendermint.Types.PartSet
