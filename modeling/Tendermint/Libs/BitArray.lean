import Tendermint.Types.Canonical

/-!
libs/bits/bit_array.go: bits in words of 64. Nothing stands for the nil pointer. The
unused high bits of the last word are carried along, so the operations are those of
bit sets only as far as no operand shows such a bit or has a word the other lacks.
-/

namespace Tendermint.Bits

open Types (Panics)

def numElems (bits : Nat) : Nat := (bits + 63) / 64

structure BitArray where
  bits : Nat
  elems : List (BitVec 64)
  sized : elems.length = numElems bits
  deriving DecidableEq, Repr

namespace BitArray

def word (a : BitArray) (index : Nat) : BitVec 64 := a.elems.getD index 0#64

def ofWords (bits : Nat) (words : Nat → BitVec 64) : BitArray where
  bits
  elems := (List.range (numElems bits)).map words
  sized := by simp

def new (bits : Int) : Option BitArray :=
  if bits ≤ 0 then none else some (ofWords bits.toNat fun _ => 0#64)

def testBit (elem : BitVec 64) (index : Nat) : Bool := elem &&& 1#64 <<< index != 0#64

def getIndex (a : BitArray) (i : Nat) : Bool :=
  if a.bits ≤ i then false else testBit (a.word (i / 64)) (i % 64)

def setIndex (a : BitArray) (i : Nat) (v : Bool) : BitArray :=
  if a.bits ≤ i then a
  else
    let mask := 1#64 <<< (i % 64)
    let elem := if v then a.word (i / 64) ||| mask else a.word (i / 64) &&& ~~~mask
    { a with elems := a.elems.set (i / 64) elem, sized := by simpa using a.sized }

def or (a o : BitArray) : BitArray :=
  ofWords (max a.bits o.bits) fun index =>
    if index < min a.elems.length o.elems.length then a.word index ||| o.word index
    else a.word index

def and (a o : BitArray) : BitArray :=
  ofWords (min a.bits o.bits) fun index => a.word index &&& o.word index

def not (a : BitArray) : BitArray := ofWords a.bits fun index => ~~~a.word index

def sub (a o : BitArray) : BitArray :=
  ofWords a.bits fun index =>
    if index < min a.elems.length o.elems.length then a.word index &&& ~~~o.word index
    else a.word index

def isEmpty (a : BitArray) : Bool := a.elems.all fun elem => !(0#64 < elem)

/-- Without a word the slice of all but the last is out of range. -/
def isFull (a : BitArray) : Panics Bool :=
  if a.elems = [] then .error "runtime error: slice bounds out of range [:-1]"
  else
    let last := a.elems.length - 1
    let lastElemBits := (a.bits + 63) % 64 + 1
    .ok (((List.range last).all fun i => ~~~a.word i == 0#64) &&
      (a.word last + 1#64) &&& (1#64 <<< lastElemBits - 1#64) == 0#64)

/-- The true indices of a word, whose first bit has the index `curBit`. -/
def trueIndices (elem : BitVec 64) (curBit count : Nat) : List Nat :=
  ((List.range count).filter (testBit elem)).map (curBit + ·)

def getTrueIndices (a : BitArray) : Panics (List Nat) :=
  if a.elems = [] then .error "runtime error: index out of range [-1]"
  else
    let last := a.elems.length - 1
    .ok ((List.range last).flatMap (fun i =>
        if a.word i = 0#64 then [] else trueIndices (a.word i) (64 * i) 64) ++
      trueIndices (a.word last) (64 * last) (a.bits - 64 * last))

end BitArray

/-! ### The methods on pointers -/

open BitArray List

def size (a : Option BitArray) : Nat := (a.map BitArray.bits).getD 0

def bit (a : Option BitArray) (i : Nat) : Bool := (a.map (·.getIndex i)).getD false

def or : Option BitArray → Option BitArray → Option BitArray
  | none, o => o
  | some a, none => some a
  | some a, some o => some (a.or o)

def and : Option BitArray → Option BitArray → Option BitArray
  | some a, some o => some (a.and o)
  | _, _ => none

def sub : Option BitArray → Option BitArray → Option BitArray
  | some a, some o => some (a.sub o)
  | _, _ => none

def isEmpty (a : Option BitArray) : Bool := (a.map BitArray.isEmpty).getD true

def isFull (a : Option BitArray) : Panics Bool := (a.map BitArray.isFull).getD (.ok true)

/-! ### Bits of words -/

namespace BitArray

theorem test_bit_eq {elem : BitVec 64} {index : Nat} (inside : index < 64) :
    testBit elem index = elem.getLsbD index := by
  have mask : 1#64 <<< index = BitVec.twoPow 64 index := rfl
  rw [testBit, mask, BitVec.and_twoPow]
  cases elem.getLsbD index with
  | false => rfl
  | true =>
  have nonzero : BitVec.twoPow 64 index ≠ 0#64 := by
    intro zero
    have bit := congrArg (·.getLsbD index) zero
    simp [inside] at bit
  simpa using nonzero

/-- The bit in the words, also where no index reaches. -/
def raw (a : BitArray) (i : Nat) : Bool := (a.word (i / 64)).getLsbD (i % 64)

theorem get_index_eq (a : BitArray) (i : Nat) :
    a.getIndex i = (decide (i < a.bits) && a.raw i) := by
  unfold getIndex
  by_cases inside : i < a.bits
  · rw [if_neg (by omega), test_bit_eq (Nat.mod_lt _ (by decide)), decide_eq_true inside]
    rfl
  · rw [if_pos (by omega), decide_eq_false inside]
    rfl

variable {i : Nat} {a : BitArray}

theorem raw_of_words {bits : Nat} {words : Nat → BitVec 64} (inside : i < bits) :
    (ofWords bits words).raw i = (words (i / 64)).getLsbD (i % 64) := by
  have listed : i / 64 < numElems bits := by
    unfold numElems
    omega
  simp [raw, word, ofWords, listed]

theorem raw_beyond (a : BitArray) (i : Nat) (beyond : a.elems.length ≤ i / 64) :
    a.raw i = false := by
  simp [raw, word, beyond]

theorem raw_stored (inside : i < a.bits) :
    i / 64 < a.elems.length := by
  rw [a.sized, numElems]
  omega

theorem raw_or {o : BitArray} (inside : i < max a.bits o.bits) :
    (a.or o).raw i = (a.raw i || (decide (i / 64 < a.elems.length) && o.raw i)) := by
  rw [or, raw_of_words inside]
  split
  · rename_i both
    rw [BitVec.getLsbD_or, decide_eq_true (by omega), Bool.true_and]
    rfl
  · rename_i lacks
    by_cases stored : i / 64 < a.elems.length
    · rw [o.raw_beyond i (by omega), Bool.and_false, Bool.or_false]
      rfl
    · rw [decide_eq_false stored, Bool.false_and, Bool.or_false]
      rfl

theorem raw_sub (a o : BitArray) (i : Nat) (inside : i < a.bits) :
    (a.sub o).raw i = (a.raw i && !o.raw i) := by
  have stored := raw_stored inside
  rw [sub, raw_of_words inside]
  split
  · rw [BitVec.getLsbD_and, BitVec.getLsbD_not, decide_eq_true (Nat.mod_lt i (by decide)),
      Bool.true_and]
    rfl
  · rw [o.raw_beyond i (by omega), Bool.not_false, Bool.and_true]
    rfl

theorem bits_set_index (a : BitArray) (i : Nat) (v : Bool) : (a.setIndex i v).bits = a.bits := by
  rw [setIndex]
  split <;> rfl

theorem get_set_index (a : BitArray) (i other : Nat) (v : Bool) (inside : i < a.bits) :
    (a.setIndex i v).getIndex other = if other = i then v else a.getIndex other := by
  have stored := raw_stored inside
  have mask : (1#64 <<< (i % 64)).getLsbD (other % 64) = decide (i % 64 = other % 64) := by
    have power : 1#64 <<< (i % 64) = BitVec.twoPow 64 (i % 64) := rfl
    rw [power, BitVec.getLsbD_twoPow, decide_eq_true (Nat.mod_lt i (by decide)), Bool.true_and]
  rw [get_index_eq, get_index_eq, bits_set_index, raw, raw, setIndex, if_neg (by omega)]
  by_cases word : other / 64 = i / 64
  · have same : i % 64 = other % 64 ↔ other = i := by omega
    simp only [BitArray.word, word, getD_eq_getElem?_getD, getElem?_set_self stored,
      Option.getD_some]
    by_cases hit : other = i
    · rw [if_pos hit, hit, decide_eq_true inside, Bool.true_and]
      rw [hit] at mask
      cases v with
      | true => simp [mask]
      | false => simp [mask]
    · have miss : decide (i % 64 = other % 64) = false := decide_eq_false (mt same.mp hit)
      rw [if_neg hit]
      cases v with
      | true => simp [mask, miss]
      | false =>
        have bound : decide (other % 64 < 64) = true := decide_eq_true (Nat.mod_lt _ (by decide))
        simp only [Bool.false_eq_true, if_false, BitVec.getLsbD_and, BitVec.getLsbD_not, mask, miss,
          bound, Bool.not_false, Bool.and_true]
  · have different : other ≠ i := fun same => word (congrArg (· / 64) same)
    simp [BitArray.word, getElem?_set_ne (Ne.symm word), different]

theorem is_empty_iff (a : BitArray) : a.isEmpty = true ↔ ∀ i, a.raw i = false := by
  have zero : a.isEmpty = true ↔ ∀ index, a.word index = 0#64 := by
    simp only [isEmpty, all_eq_true, Bool.not_eq_eq_eq_not, Bool.not_true,
      decide_eq_false_iff_not, BitVec.not_lt, BitVec.le_zero_iff]
    constructor
    · intro all index
      rw [word, getD_eq_getElem?_getD]
      cases found : a.elems[index]? with
      | none => rfl
      | some elem => exact all elem (mem_of_getElem? found)
    · intro all elem member
      obtain ⟨index, found⟩ := mem_iff_getElem?.mp member
      have here := all index
      rw [word, getD_eq_getElem?_getD, found] at here
      exact here
  rw [zero]
  constructor
  · intro all i
    rw [raw, all]
    exact BitVec.getLsbD_zero
  · intro all index
    apply BitVec.eq_of_getLsbD_eq
    intro place inside
    have here := all (64 * index + place)
    rw [raw, Nat.mul_add_div (by decide), Nat.div_eq_of_lt inside, Nat.mul_add_mod,
      Nat.mod_eq_of_lt inside, Nat.add_zero] at here
    rw [here]
    exact BitVec.getLsbD_zero.symm

theorem low_ones (elem : BitVec 64) (count : Nat) (few : count ≤ 64) :
    (elem + 1#64) &&& (1#64 <<< count - 1#64) = 0#64 ↔
      ∀ place < count, elem.getLsbD place = true := by
  have power : 2 ^ count ∣ 2 ^ 64 := Nat.pow_dvd_pow 2 few
  have positive : 0 < 2 ^ count := Nat.two_pow_pos count
  have mask : (1#64 <<< count - 1#64).toNat = 2 ^ count - 1 := by
    rcases Nat.lt_or_eq_of_le few with less | rfl
    · have small : 2 ^ count < 2 ^ 64 := Nat.pow_lt_pow_right (by decide) less
      simp only [BitVec.toNat_sub, BitVec.toNat_shiftLeft, BitVec.toNat_ofNat, Nat.shiftLeft_eq]
      omega
    · rfl
  have low : ((elem + 1#64) &&& (1#64 <<< count - 1#64)).toNat = (elem.toNat + 1) % 2 ^ count := by
    rw [BitVec.toNat_and, mask, Nat.and_two_pow_sub_one_eq_mod, BitVec.toNat_add]
    exact Nat.mod_mod_of_dvd _ power
  have full : (elem + 1#64) &&& (1#64 <<< count - 1#64) = 0#64 ↔
      elem.toNat % 2 ^ count = 2 ^ count - 1 := by
    rw [← BitVec.toNat_inj, low]
    have rest := Nat.mod_lt elem.toNat positive
    rw [BitVec.toNat_zero, ← Nat.mod_add_mod]
    rcases Nat.lt_or_eq_of_le (Nat.succ_le_of_lt rest) with less | equal
    · rw [Nat.mod_eq_of_lt less]
      omega
    · rw [show elem.toNat % 2 ^ count + 1 = 2 ^ count from equal, Nat.mod_self]
      omega
  rw [full]
  constructor
  · intro same place inside
    have bit := congrArg (·.testBit place) same
    simp only [Nat.testBit_mod_two_pow, Nat.testBit_two_pow_sub_one, decide_eq_true inside,
      Bool.true_and] at bit
    exact bit
  · intro ones
    apply Nat.eq_of_testBit_eq
    intro place
    rw [Nat.testBit_mod_two_pow, Nat.testBit_two_pow_sub_one]
    by_cases inside : place < count
    · rw [decide_eq_true inside, Bool.true_and]
      exact ones place inside
    · rw [decide_eq_false inside, Bool.false_and]

theorem no_elems_iff (a : BitArray) : a.elems = [] ↔ a.bits = 0 := by
  rw [← length_eq_zero_iff, a.sized, numElems]
  omega

theorem bits_split (positive : 0 < a.bits) :
    a.bits = 64 * (a.elems.length - 1) + ((a.bits + 63) % 64 + 1) := by
  rw [a.sized, numElems]
  omega

theorem raw_block {place : Nat} (inside : place < 64) :
    a.raw (64 * i + place) = (a.word i).getLsbD place := by
  rw [raw, Nat.mul_add_div (by decide), Nat.div_eq_of_lt inside, Nat.mul_add_mod,
    Nat.mod_eq_of_lt inside, Nat.add_zero]

theorem is_full_eq (positive : 0 < a.bits) :
    a.isFull = .ok (decide (∀ i < a.bits, a.raw i = true)) := by
  have split := bits_split positive
  have few : (a.bits + 63) % 64 + 1 ≤ 64 := Nat.mod_lt _ (by decide)
  rw [isFull, if_neg (mt (no_elems_iff a).mp (by omega))]
  rw [Except.ok.injEq, Bool.eq_iff_iff, Bool.and_eq_true, beq_iff_eq, low_ones _ _ few,
    all_eq_true, decide_eq_true_iff]
  generalize a.elems.length - 1 = last at *
  generalize (a.bits + 63) % 64 + 1 = count at *
  simp only [mem_range, beq_iff_eq]
  constructor
  · rintro ⟨words, ones⟩ i inside
    rw [← Nat.div_add_mod i 64, raw_block (Nat.mod_lt i (by decide))]
    rcases Nat.lt_or_ge (i / 64) last with before | after
    · have word := words (i / 64) before
      rw [BitVec.not_eq_comm] at word
      rw [word, BitVec.getLsbD_not, decide_eq_true (Nat.mod_lt i (by decide : 0 < 64)),
        BitVec.getLsbD_zero]
      rfl
    · rw [show i / 64 = last by omega]
      exact ones (i % 64) (by omega)
  · intro full
    refine ⟨fun i before => ?_, fun place inside => ?_⟩
    · apply BitVec.eq_of_getLsbD_eq
      intro place inside
      have here := full (64 * i + place) (by omega)
      rw [raw_block inside] at here
      simp [here]
    · rw [← raw_block (by omega)]
      exact full _ (by omega)

theorem range_blocks (hit : Nat → Bool) (count : Nat) :
    (List.range (64 * count)).filter hit = (List.range count).flatMap fun i =>
      ((List.range 64).filter fun place => hit (64 * i + place)).map (64 * i + ·) := by
  induction count with
  | zero => rfl
  | succ count ih =>
    rw [Nat.mul_succ, range_add, filter_append, ih, range_succ (n := count),
      flatMap_append, flatMap_singleton, filter_map]
    rfl

theorem get_true_indices_eq (positive : 0 < a.bits) :
    a.getTrueIndices = .ok ((List.range a.bits).filter a.getIndex) := by
  have split := bits_split positive
  have few : (a.bits + 63) % 64 + 1 ≤ 64 := Nat.mod_lt _ (by decide)
  have block : ∀ i count, count ≤ 64 → 64 * i + count ≤ a.bits →
      trueIndices (a.word i) (64 * i) count =
        ((List.range count).filter fun place => a.getIndex (64 * i + place)).map (64 * i + ·) := by
    intro i count most within
    rw [trueIndices]
    congr 1
    apply filter_congr
    intro place member
    have inside := mem_range.mp member
    rw [get_index_eq, raw_block (by omega), decide_eq_true (by omega), Bool.true_and,
      test_bit_eq (by omega)]
  rw [getTrueIndices, if_neg (mt (no_elems_iff a).mp (by omega))]
  generalize a.elems.length - 1 = last at *
  generalize (a.bits + 63) % 64 + 1 = count at *
  rw [Except.ok.injEq]
  calc
    _ = (List.range (64 * last)).filter a.getIndex ++
        ((List.range count).filter fun place => a.getIndex (64 * last + place)).map
          (64 * last + ·) := by
      rw [range_blocks, show a.bits - 64 * last = count by omega, block last count few (by omega)]
      congr 1
      apply flatMap_congr
      intro i member
      have before := mem_range.mp member
      rw [← block i 64 (by decide) (by omega)]
      split
      · rename_i zero
        simp [trueIndices, testBit, zero]
      · rfl
    _ = _ := by
      rw [split, range_add, filter_append, filter_map]
      rfl

end BitArray

def raw (a : Option BitArray) (i : Nat) : Bool := (a.map (·.raw i)).getD false

structure ImplementsSets (a b : Option BitArray) : Prop where
  or : size (or a b) = max (size a) (size b) ∧ ∀ i, bit (or a b) i = (bit a i || bit b i)
  and : size (and a b) = min (size a) (size b) ∧ ∀ i, bit (and a b) i = (bit a i && bit b i)
  sub : size (sub a b) = size a ∧ ∀ i, bit (sub a b) i = (bit a i && !bit b i)
  not : size (a.map BitArray.not) = size a ∧ ∀ i < size a, bit (a.map BitArray.not) i = !bit a i
  isEmpty : isEmpty a = true ↔ ∀ i < size a, bit a i = false
  isFull : isFull a = .ok (decide (∀ i < size a, bit a i = true))
  getTrueIndices : ∀ array ∈ a, array.getTrueIndices = .ok ((List.range array.bits).filter (bit a))

/-- No unused bit shows, no word is missing, and an array that is there has a bit. -/
structure Tidy (a b : Option BitArray) : Prop where
  both : a.isSome → b.isSome
  positive : a.isSome → 0 < size a
  words : a.isSome → ∀ i, bit b i = true → i / 64 < numElems (size a)
  first : ∀ i, size a ≤ i → i < size b → raw a i = true → bit b i = true
  second : ∀ i, size b ≤ i → i < size a → raw b i = false
  zeros : (∀ i, bit a i = false) → ∀ i, raw a i = false

theorem nil_implements (b : Option BitArray) : ImplementsSets none b where
  or := by simp [or, size, bit]
  and := by simp [and, size, bit]
  sub := by simp [sub, size, bit]
  not := by simp [size]
  isEmpty := by simp [isEmpty, size]
  isFull := by simp [isFull, size]
  getTrueIndices array there := by cases there

theorem nil_tidy (b : Option BitArray) : Tidy none b where
  both there := by cases there
  positive there := by cases there
  words there := by cases there
  first i _ _ shown := by cases shown
  second i _ inside := by cases inside
  zeros _ _ := rfl

section Pair

variable (a b : BitArray)

theorem bit_some (i : Nat) : bit (some a) i = (decide (i < a.bits) && a.raw i) := a.get_index_eq i

theorem bit_or_iff (i : Nat) :
    bit (or (some a) (some b)) i = (bit (some a) i || bit (some b) i) ↔
      (bit (some b) i = true → i / 64 < a.elems.length) ∧
      (a.bits ≤ i → i < b.bits → a.raw i = true → bit (some b) i = true) ∧
      (b.bits ≤ i → i < a.bits → b.raw i = true → bit (some a) i = true) := by
  have bits : (a.or b).bits = max a.bits b.bits := rfl
  have stored : i < a.bits → i / 64 < a.elems.length := raw_stored
  have beyond : ¬ i / 64 < a.elems.length → a.raw i = false := fun far =>
    a.raw_beyond i (by omega)
  rw [or, bit_some, bit_some, bit_some, bits]
  by_cases inside : i < max a.bits b.bits
  · rw [raw_or inside]
    grind
  · grind

theorem bit_sub_iff (i : Nat) :
    bit (sub (some a) (some b)) i = (bit (some a) i && !bit (some b) i) ↔
      (b.bits ≤ i → bit (some a) i = true → b.raw i = false) := by
  have bits : (a.sub b).bits = a.bits := rfl
  rw [sub, bit_some, bit_some, bit_some, bits]
  by_cases inside : i < a.bits
  · rw [raw_sub a b i inside]
    grind
  · grind

theorem bit_and (i : Nat) :
    bit (and (some a) (some b)) i = (bit (some a) i && bit (some b) i) := by
  have bits : (a.and b).bits = min a.bits b.bits := rfl
  rw [and, bit_some, bit_some, bit_some, bits]
  by_cases inside : i < min a.bits b.bits
  · rw [BitArray.and, raw_of_words inside, BitVec.getLsbD_and, decide_eq_true inside,
      decide_eq_true (by omega), decide_eq_true (by omega)]
    rfl
  · grind

theorem bit_not (i : Nat) (inside : i < a.bits) : bit (some a.not) i = !bit (some a) i := by
  have bits : a.not.bits = a.bits := rfl
  rw [bit_some, bit_some, bits, BitArray.not, raw_of_words inside, BitVec.getLsbD_not,
    decide_eq_true inside, decide_eq_true (Nat.mod_lt i (by decide : 0 < 64))]
  rfl

end Pair

/-- The operations are those of bit sets exactly for tidy operands. -/
theorem bit_arrays_implement_sets (a b : Option BitArray) : ImplementsSets a b ↔ Tidy a b := by
  cases a with
  | none => exact ⟨fun _ => nil_tidy b, fun _ => nil_implements b⟩
  | some a =>
  have positive : ImplementsSets (some a) b → 0 < a.bits := by
    intro sets
    by_contra zero
    have fails : a.isFull = .error _ := if_pos ((no_elems_iff a).mpr (by omega))
    have full : a.isFull = _ := sets.isFull
    rw [fails] at full
    cases full
  cases b with
  | none =>
    constructor
    · intro sets
      have none : 0 = a.bits := sets.sub.1
      have some := positive sets
      omega
    · intro tidy
      cases tidy.both rfl
  | some b =>
    constructor
    · intro sets
      have orBits := fun i => (bit_or_iff a b i).mp (sets.or.2 i)
      refine ⟨fun _ => rfl, fun _ => positive sets, ?_, fun i => (orBits i).2.1, ?_, ?_⟩
      · intro _ i shown
        exact a.sized ▸ (orBits i).1 shown
      · intro i beyond inside
        by_contra shown
        have kept := (orBits i).2.2 beyond inside (Bool.eq_true_of_not_eq_false shown)
        exact shown ((bit_sub_iff a b i).mp (sets.sub.2 i) beyond kept)
      · intro unset
        exact a.is_empty_iff.mp (sets.isEmpty.mpr fun i _ => unset i)
    · intro tidy
      have positive : 0 < a.bits := tidy.positive rfl
      have shown : ∀ i < a.bits, bit (some a) i = a.raw i := fun i inside => by
        rw [bit_some, decide_eq_true inside, Bool.true_and]
      refine ⟨⟨rfl, fun i => (bit_or_iff a b i).mpr ⟨?_, tidy.first i, ?_⟩⟩,
        ⟨rfl, bit_and a b⟩, ⟨rfl, fun i => (bit_sub_iff a b i).mpr ?_⟩, ⟨rfl, bit_not a⟩,
        ?_, ?_, ?_⟩
      · intro set
        exact a.sized ▸ tidy.words rfl i set
      · intro beyond inside set
        exact absurd set (Bool.eq_false_iff.mp (tidy.second i beyond inside))
      · intro beyond set
        rw [bit_some, Bool.and_eq_true, decide_eq_true_iff] at set
        exact tidy.second i beyond set.1
      · constructor
        · intro empty i inside
          rw [shown i inside]
          exact a.is_empty_iff.mp empty i
        · intro unset
          refine a.is_empty_iff.mpr (tidy.zeros fun i => ?_)
          rcases Nat.lt_or_ge i a.bits with inside | outside
          · exact unset i inside
          · rw [bit_some, decide_eq_false (by omega), Bool.false_and]
      · refine (is_full_eq positive).trans (congrArg Except.ok (decide_eq_decide.mpr ?_))
        exact forall₂_congr fun i inside => by rw [shown i inside]
      · rintro array ⟨⟩
        exact get_true_indices_eq positive

def highBit : BitArray := (ofWords 65 fun _ => 0#64).setIndex 64 true

/-- The second word of the longer operand is lost. -/
theorem or_loses_high_bit : bit (some highBit) 64 = true ∧
    bit (or (new 1) (some highBit)) 64 = false ∧
    bit (or (some highBit) (new 1)) 64 = true := by decide

end Tendermint.Bits
