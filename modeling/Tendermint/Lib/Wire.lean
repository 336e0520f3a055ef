import Mathlib

/-!
The protobuf wire format: base-128 varints, little-endian fixed words and
length-delimited payloads. `decodeFields` reads a message into its list of
tagged fields, the order kept, and leaves their meaning to the message. A
group-typed field is refused. Every number is the unsigned 64-bit pattern that
stands on the wire; `toWord` and `ofWord` move between it and a signed value.
-/

namespace Tendermint.Wire

open List

abbrev Bytes := List UInt8

instance bytesLawfulBEq : LawfulBEq Bytes := inferInstanceAs (LawfulBEq (List UInt8))

def putUvarintFrom : Nat → Nat → Bytes
  | 0, _ => []
  | fuel + 1, value =>
    if value < 128 then [UInt8.ofNat value]
    else UInt8.ofNat (value % 128 + 128) :: putUvarintFrom fuel (value / 128)

/-- Ten groups of seven bits hold every 64-bit value. -/
def putUvarint (value : Nat) : Bytes := putUvarintFrom 10 value

def getUvarintFrom : Nat → Bytes → Option (Nat × Bytes)
  | 0, _ => none
  | _ + 1, [] => none
  | fuel + 1, byte :: rest =>
    if byte.toNat < 128 then some (byte.toNat, rest)
    else (getUvarintFrom fuel rest).map fun tail =>
      (byte.toNat - 128 + 128 * tail.1, tail.2)

/-- The generated decoders shift into a 64-bit word, so a tenth byte above one
loses its high bits instead of failing. -/
def getUvarint (input : Bytes) : Option (Nat × Bytes) :=
  (getUvarintFrom 10 input).map fun found => (found.1 % 2 ^ 64, found.2)

/-- `binary.ReadUvarint` reads the same groups but refuses a value above 64 bits. -/
def readUvarint (input : Bytes) : Option (Nat × Bytes) :=
  (getUvarintFrom 10 input).bind fun found =>
    if found.1 < 2 ^ 64 then some found else none

def putFixed : Nat → Nat → Bytes
  | 0, _ => []
  | width + 1, value => UInt8.ofNat (value % 256) :: putFixed width (value / 256)

def getFixed : Nat → Bytes → Option (Nat × Bytes)
  | 0, input => some (0, input)
  | _ + 1, [] => none
  | width + 1, byte :: rest =>
    (getFixed width rest).map fun tail => (byte.toNat + 256 * tail.1, tail.2)

def takeExact (count : Nat) (input : Bytes) : Option (Bytes × Bytes) :=
  if count ≤ input.length then some (input.take count, input.drop count) else none

inductive Value where
  | varint (word : Nat)
  | fixed64 (word : Nat)
  | bytes (payload : Bytes)
  | fixed32 (word : Nat)
  deriving DecidableEq, Repr

structure Field where
  number : Nat
  value : Value
  deriving DecidableEq, Repr

def Value.wireType : Value → Nat
  | .varint _ => 0
  | .fixed64 _ => 1
  | .bytes _ => 2
  | .fixed32 _ => 5

def Value.encode : Value → Bytes
  | .varint word => putUvarint word
  | .fixed64 word => putFixed 8 word
  | .bytes payload => putUvarint payload.length ++ payload
  | .fixed32 word => putFixed 4 word

def Field.encode (field : Field) : Bytes :=
  putUvarint (field.number * 8 + field.value.wireType) ++ field.value.encode

def encodeFields (fields : List Field) : Bytes := fields.flatMap Field.encode

def decodeValue (wireType : Nat) (input : Bytes) : Option (Value × Bytes) :=
  match wireType with
  | 0 => (getUvarint input).map fun found => (.varint found.1, found.2)
  | 1 => (getFixed 8 input).map fun found => (.fixed64 found.1, found.2)
  | 2 => (getUvarint input).bind fun size =>
    (takeExact size.1 size.2).map fun found => (.bytes found.1, found.2)
  | 5 => (getFixed 4 input).map fun found => (.fixed32 found.1, found.2)
  | _ => none

def decodeField (input : Bytes) : Option (Field × Bytes) :=
  (getUvarint input).bind fun tag =>
    if tag.1 / 8 = 0 then none
    else (decodeValue (tag.1 % 8) tag.2).map fun found =>
      (⟨tag.1 / 8, found.1⟩, found.2)

def decodeFieldsFrom : Nat → Bytes → Option (List Field)
  | _, [] => some []
  | 0, _ :: _ => none
  | fuel + 1, input =>
    (decodeField input).bind fun found =>
      (decodeFieldsFrom fuel found.2).map (found.1 :: ·)

def decodeFields (input : Bytes) : Option (List Field) :=
  decodeFieldsFrom input.length input

/-- What a field of generated code can hold: a positive number that fits the
32-bit tag, and a payload within its word. -/
def Field.Fits (field : Field) : Prop :=
  0 < field.number ∧ field.number < 2 ^ 29 ∧
    match field.value with
    | .varint word => word < 2 ^ 64
    | .fixed64 word => word < 2 ^ 64
    | .bytes payload => payload.length < 2 ^ 64
    | .fixed32 word => word < 2 ^ 32

theorem fits_varint (number word : Nat) (valid : 0 < number ∧ number < 2 ^ 29)
    (bounded : word < 2 ^ 64) : Field.Fits ⟨number, .varint word⟩ :=
  ⟨valid.1, valid.2, bounded⟩

theorem fits_fixed64 (number word : Nat) (valid : 0 < number ∧ number < 2 ^ 29)
    (bounded : word < 2 ^ 64) : Field.Fits ⟨number, .fixed64 word⟩ :=
  ⟨valid.1, valid.2, bounded⟩

theorem fits_bytes (number : Nat) (payload : Bytes) (valid : 0 < number ∧ number < 2 ^ 29)
    (bounded : payload.length < 2 ^ 64) : Field.Fits ⟨number, .bytes payload⟩ :=
  ⟨valid.1, valid.2, bounded⟩

theorem eq_of_mem_optional {absent : Prop} [Decidable absent] {field other : Field}
    (member : field ∈ if absent then [] else [other]) : field = other := by
  split at member
  · cases member
  · exact mem_singleton.mp member

theorem get_put_uvarint_from (fuel value : Nat) (rest : Bytes)
    (positive : 0 < fuel) (bounded : value < 128 ^ fuel) :
    getUvarintFrom fuel (putUvarintFrom fuel value ++ rest) = some (value, rest) := by
  induction fuel generalizing value with
  | zero => omega
  | succ fuel ih =>
  unfold putUvarintFrom
  by_cases small : value < 128
  · have byte : (UInt8.ofNat value).toNat = value := by
      rw [UInt8.toNat_ofNat']
      omega
    simp [small, getUvarintFrom, byte]
  · have group : (UInt8.ofNat (value % 128 + 128)).toNat = value % 128 + 128 := by
      rw [UInt8.toNat_ofNat']
      omega
    have more : 0 < fuel := by
      rcases Nat.eq_zero_or_pos fuel with none | some
      · subst none
        simp at bounded
        omega
      · exact some
    have quotient : value / 128 < 128 ^ fuel := by
      rw [Nat.div_lt_iff_lt_mul (by omega)]
      rwa [Nat.pow_succ] at bounded
    have above : ¬ (value % 128 + 128 < 128) := by omega
    simp only [small, ↓reduceIte, cons_append, getUvarintFrom, group, above,
      ih (value / 128) more quotient, Option.map_some]
    congr 2
    omega

theorem lt_ten_groups {value : Nat} (bounded : value < 2 ^ 64) : value < 128 ^ 10 :=
  bounded.trans_le (by decide)

theorem get_put_uvarint (value : Nat) (rest : Bytes) (bounded : value < 2 ^ 64) :
    getUvarint (putUvarint value ++ rest) = some (value, rest) := by
  simp only [getUvarint, putUvarint, get_put_uvarint_from 10 value rest (by omega)
    (lt_ten_groups bounded), Option.map_some, Nat.mod_eq_of_lt bounded]

theorem read_put_uvarint (value : Nat) (rest : Bytes) (bounded : value < 2 ^ 64) :
    readUvarint (putUvarint value ++ rest) = some (value, rest) := by
  simp only [readUvarint, putUvarint, get_put_uvarint_from 10 value rest (by omega)
    (lt_ten_groups bounded), Option.bind_some, bounded, ↓reduceIte]

theorem get_put_fixed (width value : Nat) (rest : Bytes) (bounded : value < 256 ^ width) :
    getFixed width (putFixed width value ++ rest) = some (value, rest) := by
  induction width generalizing value with
  | zero =>
    simp only [Nat.pow_zero] at bounded
    simp [getFixed, putFixed]
    omega
  | succ width ih =>
    have quotient : value / 256 < 256 ^ width := by
      rw [Nat.div_lt_iff_lt_mul (by omega)]
      rwa [Nat.pow_succ] at bounded
    have byte : (UInt8.ofNat (value % 256)).toNat = value % 256 := by
      rw [UInt8.toNat_ofNat']
      omega
    simp only [putFixed, cons_append, getFixed, byte, ih (value / 256) quotient, Option.map_some]
    congr 2
    omega

theorem take_exact_append (payload rest : Bytes) :
    takeExact payload.length (payload ++ rest) = some (payload, rest) := by
  simp [takeExact]

theorem decode_encode_value {value : Value} (rest : Bytes) {number : Nat}
    (fits : Field.Fits ⟨number, value⟩) :
    decodeValue value.wireType (value.encode ++ rest) = some (value, rest) := by
  obtain ⟨_, _, word⟩ := fits
  cases value with
  | varint value =>
    simp [Value.wireType, Value.encode, decodeValue, get_put_uvarint value rest word]
  | fixed64 value =>
    have wide : value < 256 ^ 8 := by simpa using word
    simp [Value.wireType, Value.encode, decodeValue, get_put_fixed 8 value rest wide]
  | bytes payload =>
    simp [Value.wireType, Value.encode, decodeValue,
      get_put_uvarint payload.length (payload ++ rest) word, take_exact_append]
  | fixed32 value =>
    have wide : value < 256 ^ 4 := by simpa using word
    simp [Value.wireType, Value.encode, decodeValue, get_put_fixed 4 value rest wide]

theorem decode_encode_field (field : Field) (rest : Bytes) (fits : field.Fits) :
    decodeField (field.encode ++ rest) = some (field, rest) := by
  have kind : field.value.wireType < 8 := by
    cases field.value <;> simp [Value.wireType]
  have bounded : field.number * 8 + field.value.wireType < 2 ^ 64 := by
    have small := fits.2.1
    have gap : (2 : Nat) ^ 29 * 8 ≤ 2 ^ 64 := by decide
    omega
  have number : (field.number * 8 + field.value.wireType) / 8 = field.number := by omega
  have type : (field.number * 8 + field.value.wireType) % 8 = field.value.wireType := by omega
  have legal : field.number ≠ 0 := Nat.pos_iff_ne_zero.mp fits.1
  simp only [decodeField, Field.encode, append_assoc,
    get_put_uvarint _ (field.value.encode ++ rest) bounded, Option.bind_some, number, type,
    legal, ↓reduceIte, decode_encode_value rest fits,
    Option.map_some]

theorem put_uvarint_nonempty (value : Nat) : putUvarint value ≠ [] := by
  unfold putUvarint putUvarintFrom
  split <;> simp

theorem field_encode_length (field : Field) : 0 < field.encode.length := by
  have tag := length_pos_iff.mpr (put_uvarint_nonempty (field.number * 8 + field.value.wireType))
  simp only [Field.encode, length_append]
  omega

variable {fields : List Field}

theorem decode_encode_fields_from {fuel : Nat} (enough : fields.length ≤ fuel)
    (fits : ∀ field ∈ fields, field.Fits) :
    decodeFieldsFrom fuel (encodeFields fields) = some fields := by
  induction fields generalizing fuel with
  | nil => cases fuel <;> rfl
  | cons field rest ih =>
  cases fuel with
  | zero => simp at enough
  | succ fuel =>
  have tail := ih (by simpa using enough)
    (fun other member => fits other (mem_cons_of_mem field member))
  have head := decode_encode_field field (encodeFields rest) (fits field (by simp))
  have shape : encodeFields (field :: rest) = field.encode ++ encodeFields rest := rfl
  cases bytes : field.encode ++ encodeFields rest with
  | nil =>
    have := field_encode_length field
    simp_all
  | cons byte more =>
    rw [bytes] at head
    rw [shape, bytes]
    simp only [decodeFieldsFrom, head, Option.bind_some, tail, Option.map_some]

theorem encode_fields_length (fields : List Field) :
    fields.length ≤ (encodeFields fields).length := by
  induction fields with
  | nil => simp [encodeFields]
  | cons field rest ih =>
    have head := field_encode_length field
    simp only [encodeFields, flatMap_cons, length_append, length_cons] at ih ⊢
    omega

theorem decode_encode_fields (fits : ∀ field ∈ fields, field.Fits) :
    decodeFields (encodeFields fields) = some fields :=
  decode_encode_fields_from (encode_fields_length fields) fits

/-- A message decoder: the fields are read in order and each one updates what was
read before it. -/
def unmarshal {α : Type} (step : α → Field → Option α) (initial : α) (input : Bytes) :
    Option α :=
  (decodeFields input).bind fun fields => fields.foldlM step initial

theorem encode_fields_injective {others : List Field} (fits : ∀ field ∈ fields, field.Fits)
    (otherFits : ∀ field ∈ others, field.Fits) (same : encodeFields fields = encodeFields others) :
    fields = others := by
  have left := decode_encode_fields fits
  rw [same, decode_encode_fields otherFits] at left
  exact (Option.some.inj left).symm

theorem unmarshal_encode {α : Type} (step : α → Field → Option α) (initial : α)
    (fields : List Field) (fits : ∀ field ∈ fields, field.Fits) :
    unmarshal step initial (encodeFields fields) = fields.foldlM step initial := by
  simp [unmarshal, decode_encode_fields fits]

theorem put_uvarint_from_length (fuel value : Nat) :
    (putUvarintFrom fuel value).length ≤ fuel := by
  induction fuel generalizing value with
  | zero => simp [putUvarintFrom]
  | succ fuel ih =>
  unfold putUvarintFrom
  split
  · simp
  · simpa using ih (value / 128)

def Value.size : Value → Nat
  | .bytes payload => payload.length
  | _ => 0

theorem put_fixed_length (width word : Nat) : (putFixed width word).length = width := by
  induction width generalizing word with
  | zero => simp [putFixed]
  | succ width ih => simp [putFixed, ih]

theorem field_encode_length_le (field : Field) :
    field.encode.length ≤ 20 + field.value.size := by
  have tag := put_uvarint_from_length 10 (field.number * 8 + field.value.wireType)
  cases shape : field.value with
  | varint word =>
    have body := put_uvarint_from_length 10 word
    simp only [shape] at tag
    simp only [Field.encode, Value.encode, putUvarint, shape, Value.size, length_append]
    omega
  | fixed64 word =>
    simp only [shape] at tag
    simp only [Field.encode, Value.encode, putUvarint, shape, Value.size, length_append,
      put_fixed_length]
    omega
  | bytes payload =>
    have body := put_uvarint_from_length 10 payload.length
    simp only [shape] at tag
    simp only [Field.encode, Value.encode, putUvarint, shape, Value.size, length_append]
    omega
  | fixed32 word =>
    simp only [shape] at tag
    simp only [Field.encode, Value.encode, putUvarint, shape, Value.size, length_append,
      put_fixed_length]
    omega

theorem encode_fields_length_le (fields : List Field) (bound : Nat)
    (small : ∀ field ∈ fields, field.value.size ≤ bound) :
    (encodeFields fields).length ≤ fields.length * (20 + bound) := by
  induction fields with
  | nil => simp [encodeFields]
  | cons field rest ih =>
  have head := field_encode_length_le field
  have limit := small field (by simp)
  have tail := ih fun other member => small other (mem_cons_of_mem field member)
  simp only [encodeFields, flatMap_cons, length_append, length_cons] at tail ⊢
  rw [Nat.add_mul, Nat.one_mul]
  omega

def putDelimited (message : Bytes) : Bytes := putUvarint message.length ++ message

/-- The reader's limit is the length of its input, so a prefix longer than the
bytes that follow is an error either way. -/
def getDelimited (input : Bytes) : Option Bytes :=
  (readUvarint input).bind fun size =>
    if size.1 < 2 ^ 63 - 1 then (takeExact size.1 size.2).map Prod.fst else none

theorem get_put_delimited (message : Bytes) (bounded : message.length < 2 ^ 63 - 1) :
    getDelimited (putDelimited message) = some message := by
  have word : message.length < 2 ^ 64 := by
    have : (2 : Nat) ^ 63 ≤ 2 ^ 64 := by decide
    omega
  have whole := take_exact_append message []
  simp only [append_nil] at whole
  simp only [getDelimited, putDelimited, read_put_uvarint _ message word, Option.bind_some,
    bounded, ↓reduceIte, whole, Option.map_some]

/-- Two's complement over 64 bits. -/
def toWord (value : Int) : Nat := (value % 2 ^ 64).toNat

def ofWord (word : Nat) : Int := if word < 2 ^ 63 then word else (word : Int) - 2 ^ 64

theorem to_word_lt (value : Int) : toWord value < 2 ^ 64 := by
  unfold toWord
  omega

theorem of_word_to_word {value : Int} (low : -2 ^ 63 ≤ value) (high : value < 2 ^ 63) :
    ofWord (toWord value) = value := by
  unfold ofWord toWord
  split <;> omega

end Tendermint.Wire
