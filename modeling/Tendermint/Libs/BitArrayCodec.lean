import Tendermint.Libs.BitArray

/-!
libs/bits/bit_array.go: the JSON and protobuf forms of bit arrays. The zero array has
three forms, and the decoder of JSON goes through a constructor that returns nil for
it. The locks and the capacity of the slices are left out.
-/

namespace Tendermint.Bits

open List
open Types (Panics Bytes)

def nullText : Bytes := [110, 117, 108, 108]

def mark (set : Bool) : UInt8 := if set then 120 else 95

def marshalJSON : Option BitArray → Bytes
  | none => nullText
  | some a => 34 :: (List.range a.bits).map (fun i => mark (a.getIndex i)) ++ [34]

/-- The submatch of the regular expression: marks between two quotes. -/
def matchMarks : Bytes → Option Bytes
  | 34 :: rest =>
    if rest.getLast? = some 34 ∧ rest.dropLast.all fun c => c = 95 ∨ c = 120 then
      some rest.dropLast
    else none
  | _ => none

def setMarked : Nat → Bytes → BitArray → BitArray
  | _, [], a => a
  | i, c :: rest, a => setMarked (i + 1) rest (if c = 120 then a.setIndex i true else a)

/-- The error names the text that does not match. -/
def unmarshalJSON (bz : Bytes) : Panics (Except Bytes BitArray) :=
  if bz = nullText then .ok (.ok ⟨0, [], rfl⟩)
  else match matchMarks bz with
    | none => .ok (.error bz)
    | some marks =>
      match BitArray.new marks.length with
      | none => .error "runtime error: invalid memory address or nil pointer dereference"
      | some fresh => .ok (.ok (setMarked 0 marks fresh))

structure ProtoBitArray where
  bits : Int
  elems : List (BitVec 64)
  deriving DecidableEq, Repr

inductive ProtoError where
  | negativeBits
  | tooManyBits
  | elems (got exp : Nat)
  deriving DecidableEq, Repr

def toProto : Option BitArray → Option ProtoBitArray
  | none => none
  | some a => if a.elems.length = 0 ∧ a.bits = 0 then none else some ⟨a.bits, a.elems⟩

/-- Without a message the array stays as it is. -/
def fromProto (a : BitArray) : Option ProtoBitArray → Except ProtoError BitArray
  | none => .ok a
  | some proto =>
    if proto.bits < 0 then .error .negativeBits
    else if 2147483647 < proto.bits then .error .tooManyBits
    else if sized : proto.elems.length = numElems proto.bits.toNat then
      .ok ⟨proto.bits.toNat, proto.elems, sized⟩
    else .error (.elems proto.elems.length (numElems proto.bits.toNat))

theorem set_marked_bits (i : Nat) (marks : Bytes) (a : BitArray) :
    (setMarked i marks a).bits = a.bits := by
  induction marks generalizing i a with
  | nil => rfl
  | cons c rest ih =>
  rw [setMarked, ih]
  split
  · exact a.bits_set_index i true
  · rfl

theorem set_marked_get (i : Nat) (marks : Bytes) (a : BitArray) (other : Nat)
    (inside : i + marks.length ≤ a.bits) : (setMarked i marks a).getIndex other =
      (a.getIndex other || (decide (i ≤ other) && marks[other - i]? == some 120)) := by
  induction marks generalizing i a with
  | nil => simp [setMarked]
  | cons c rest ih =>
  rw [length_cons] at inside
  have bits : (if c = 120 then a.setIndex i true else a).bits = a.bits := by
    split
    · exact a.bits_set_index i true
    · rfl
  have here : (if c = 120 then a.setIndex i true else a).getIndex other =
      (a.getIndex other || (decide (other = i) && c == 120)) := by
    split
    · rename_i marked
      rw [a.get_set_index i other true (by omega), marked]
      by_cases same : other = i <;> simp [same]
    · rename_i unmarked
      simp [unmarked]
  rw [setMarked, ih _ _ (by omega), here]
  rcases Nat.lt_trichotomy other i with less | rfl | more
  · simp [show ¬ i ≤ other by omega, show ¬ i + 1 ≤ other by omega, show other ≠ i by omega]
  · simp
  · have shift : other - i = other - (i + 1) + 1 := by omega
    simp [shift, show other ≠ i by omega, show i ≤ other by omega, show i + 1 ≤ other by omega]

theorem match_marks_iff (text marks : Bytes) : matchMarks text = some marks ↔
    text = 34 :: marks ++ [34] ∧ ∀ c ∈ marks, c = 95 ∨ c = 120 := by
  constructor
  · intro found
    unfold matchMarks at found
    split at found
    · rename_i rest
      split at found
      · rename_i ends
        cases found
        obtain ⟨front, parts⟩ := getLast?_eq_some_iff.mp ends.1
        refine ⟨?_, by simpa using ends.2⟩
        rw [parts, dropLast_concat, cons_append]
      · cases found
    · cases found
  · rintro ⟨rfl, valid⟩
    have ends : (marks ++ [34]).getLast? = some 34 ∧
        ((marks ++ [34]).dropLast.all fun c => c = 95 ∨ c = 120) = true :=
      ⟨getLast?_concat, by simpa using valid⟩
    rw [cons_append, matchMarks, if_pos ends, dropLast_concat]

theorem unmarshal_marks {marks : Bytes} (present : marks ≠ [])
    (valid : ∀ c ∈ marks, c = 95 ∨ c = 120) :
    ∃ a, unmarshalJSON (34 :: marks ++ [34]) = .ok (.ok a) ∧ a.bits = marks.length ∧
      ∀ i, a.getIndex i = (marks[i]? == some 120) := by
  have positive := length_pos_of_ne_nil present
  let fresh := BitArray.ofWords marks.length fun _ => 0#64
  have zero : ∀ i, fresh.getIndex i = false := by
    intro i
    rw [BitArray.get_index_eq]
    by_cases inside : i < fresh.bits
    · have raw : fresh.raw i = false :=
        (BitArray.raw_of_words inside).trans BitVec.getLsbD_zero
      rw [raw, Bool.and_false]
    · rw [decide_eq_false inside, Bool.false_and]
  refine ⟨setMarked 0 marks fresh, ?_, set_marked_bits 0 marks fresh, fun i => ?_⟩
  · have made : BitArray.new marks.length = some fresh := if_neg (by omega)
    rw [unmarshalJSON, if_neg (by simp [nullText]), (match_marks_iff _ marks).mpr ⟨rfl, valid⟩]
    dsimp only
    rw [made]
  · rw [set_marked_get 0 marks fresh i (Nat.zero_add _).le, zero]
    simp

theorem unmarshal_other {text : Bytes} (other : text ≠ nullText) (some : text ≠ [34, 34]) :
    unmarshalJSON text = .ok (.error text) ∨
      ∃ marks, marks ≠ [] ∧ text = 34 :: marks ++ [34] ∧ ∀ c ∈ marks, c = 95 ∨ c = 120 := by
  cases found : matchMarks text with
  | none =>
    left
    rw [unmarshalJSON, if_neg other, found]
  | some marks =>
  right
  obtain ⟨parts, valid⟩ := (match_marks_iff text marks).mp found
  refine ⟨marks, ?_, parts, valid⟩
  rintro rfl
  exact some parts

theorem marshal_marks (a : BitArray) : ∃ marks : Bytes, marshalJSON (some a) = 34 :: marks ++ [34] ∧
    marks.length = a.bits ∧ (∀ c ∈ marks, c = 95 ∨ c = 120) ∧
    ∀ i, (marks[i]? == some 120) = a.getIndex i := by
  refine ⟨(List.range a.bits).map fun i => mark (a.getIndex i), rfl, by simp, ?_, fun i => ?_⟩
  · intro c member
    obtain ⟨i, _, rfl⟩ := mem_map.mp member
    cases a.getIndex i with
    | true => exact Or.inr rfl
    | false => exact Or.inl rfl
  · by_cases inside : i < a.bits
    · rw [getElem?_map, getElem?_range inside, Option.map_some]
      cases a.getIndex i with
      | true => rfl
      | false => rfl
    · rw [getElem?_eq_none (by simpa using inside), a.get_index_eq, decide_eq_false inside]
      rfl

theorem marks_eq {marks : Bytes} (valid : ∀ c ∈ marks, c = 95 ∨ c = 120) :
    (List.range marks.length).map (fun i => mark (marks[i]? == some 120)) = marks := by
  apply ext_getElem (by simp)
  intro i _ inside
  rw [getElem_map, getElem_range, getElem?_eq_getElem inside]
  rcases valid _ (getElem_mem inside) with unset | set
  · rw [unset]
    rfl
  · rw [set]
    rfl

theorem from_to_proto {a : BitArray} (positive : 0 < a.bits) (zero : BitArray) :
    fromProto zero (toProto (some a)) =
      if 2147483647 < a.bits then .error .tooManyBits else .ok a := by
  rw [toProto, if_neg (by omega), fromProto]
  dsimp only
  rw [if_neg (by omega)]
  by_cases long : 2147483647 < a.bits
  · rw [if_pos (by omega), if_pos long]
  · rw [if_neg (by omega), if_neg long, dif_pos (by rw [Int.toNat_natCast]; exact a.sized)]
    rfl

def Same (a : Option BitArray) (other : BitArray) : Prop :=
  other.bits = size a ∧ ∀ i, other.getIndex i = bit a i

structure RoundTrips (a : Option BitArray) (text : Bytes) : Prop where
  json : ∃ other, unmarshalJSON (marshalJSON a) = .ok (.ok other) ∧ Same a other
  proto : ∃ other, fromProto ⟨0, [], rfl⟩ (toProto a) = .ok other ∧ Same a other
  text : ∃ result, unmarshalJSON text = .ok result ∧
    ∀ other, result = .ok other → marshalJSON (some other) = text

/-- The codecs restore every array that is nil or has a bit and is not too long for
protobuf, and every text that they read but `null` and the empty string. -/
theorem bit_array_codecs (a : Option BitArray) (text : Bytes) : RoundTrips a text ↔
    (a.isSome → 0 < size a) ∧ size a ≤ 2147483647 ∧ text ≠ nullText ∧ text ≠ [34, 34] := by
  have empty : unmarshalJSON [34, 34] = .error _ := rfl
  have null : unmarshalJSON nullText = .ok (.ok ⟨0, [], rfl⟩) := rfl
  constructor
  · rintro ⟨⟨other, read, _⟩, ⟨decoded, taken, same, _⟩, ⟨result, answered, stable⟩⟩
    refine ⟨?_, ?_, ?_, ?_⟩
    · intro there
      obtain ⟨array, rfl⟩ := Option.isSome_iff_exists.mp there
      obtain ⟨marks, written, length, _⟩ := marshal_marks array
      by_contra zero
      have none : marks = [] := length_eq_zero_iff.mp (by
        rw [length]
        exact Nat.eq_zero_of_not_pos zero)
      rw [written, none] at read
      cases read
    · cases a with
      | none => exact Nat.zero_le _
      | some array =>
        by_contra long
        have many : 2147483647 < array.bits := Nat.lt_of_not_le long
        rw [from_to_proto (by omega), if_pos many] at taken
        cases taken
    · rintro rfl
      cases null.symm.trans answered
      exact absurd (stable _ rfl) (by decide)
    · rintro rfl
      cases empty.symm.trans answered
  · rintro ⟨positive, short, notNull, notEmpty⟩
    refine ⟨?_, ?_, ?_⟩
    · cases a with
      | none => exact ⟨_, null, rfl, fun i => rfl⟩
      | some array =>
        obtain ⟨marks, written, length, valid, shows_⟩ := marshal_marks array
        have present : marks ≠ [] := by
          rw [← length_pos_iff, length]
          exact positive rfl
        obtain ⟨other, read, bits, same⟩ := unmarshal_marks present valid
        exact ⟨other, written ▸ read, bits.trans length, fun i => (same i).trans (shows_ i)⟩
    · cases a with
      | none => exact ⟨_, rfl, rfl, fun i => rfl⟩
      | some array =>
        have few : ¬ 2147483647 < array.bits := Nat.not_lt.mpr short
        refine ⟨array, ?_, rfl, fun i => rfl⟩
        rw [from_to_proto (positive rfl), if_neg few]
    · rcases unmarshal_other notNull notEmpty with refused | ⟨marks, present, rfl, valid⟩
      · exact ⟨_, refused, fun other same => by cases same⟩
      · obtain ⟨other, read, bits, same⟩ := unmarshal_marks present valid
        refine ⟨_, read, fun found given => ?_⟩
        cases given
        rw [marshalJSON, bits]
        simp only [same]
        rw [marks_eq valid]

/-- The text that a zero array is written as makes the decoder panic. -/
theorem zero_array_panics :
    marshalJSON (some ⟨0, [], rfl⟩) = [34, 34] ∧ unmarshalJSON [34, 34] =
      .error "runtime error: invalid memory address or nil pointer dereference" :=
  ⟨rfl, rfl⟩

end Tendermint.Bits
