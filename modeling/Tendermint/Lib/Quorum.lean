import Mathlib

/-!
Weighted quorums. Members of a finite set carry integer weights; a quorum is a
subset that holds more than two thirds of the total. The slots of a partly
filled list are the finite set whose weight a running sum keeps.
-/

namespace Tendermint.Quorum

open List

variable {ι : Type}

def weight (power : ι → Int) (members : Finset ι) : Int := ∑ index ∈ members, power index

theorem weight_mono (power : ι → Int) (members others : Finset ι)
    (subset : members ⊆ others) (nonneg : ∀ index ∈ others, 0 ≤ power index) :
    weight power members ≤ weight power others :=
  Finset.sum_le_sum_of_subset_of_nonneg subset fun index member _ => nonneg index member

theorem weight_nonneg (power : ι → Int) (members : Finset ι)
    (nonneg : ∀ index ∈ members, 0 ≤ power index) : 0 ≤ weight power members :=
  Finset.sum_nonneg nonneg

variable [DecidableEq ι]

theorem weight_insert (power : ι → Int) (members : Finset ι) (index : ι)
    (fresh : index ∉ members) :
    weight power (insert index members) = weight power members + power index := by
  rw [weight, Finset.sum_insert fresh, Int.add_comm, weight]

theorem weight_union_inter (power : ι → Int) (left right : Finset ι) :
    weight power (left ∪ right) + weight power (left ∩ right) =
      weight power left + weight power right :=
  Finset.sum_union_inter

/-- Two quorums share a member outside any set that holds less than a third. -/
theorem intersection (power : ι → Int) (all left right faulty : Finset ι)
    (nonneg : ∀ index ∈ all, 0 ≤ power index) (leftSubset : left ⊆ all)
    (rightSubset : right ⊆ all)
    (few : 3 * weight power (faulty ∩ all) < weight power all)
    (leftQuorum : 2 * weight power all < 3 * weight power left)
    (rightQuorum : 2 * weight power all < 3 * weight power right) :
    ∃ index ∈ left, index ∈ right ∧ index ∉ faulty := by
  by_contra none
  push Not at none
  have covered : left ∩ right ⊆ faulty ∩ all := by
    intro index member
    have both := Finset.mem_inter.mp member
    exact Finset.mem_inter.mpr ⟨none index both.1 both.2, leftSubset both.1⟩
  have union : weight power (left ∪ right) ≤ weight power all :=
    weight_mono power _ _ (Finset.union_subset leftSubset rightSubset) nonneg
  have shared : weight power (left ∩ right) ≤ weight power (faulty ∩ all) :=
    weight_mono power _ _ covered fun index member =>
      nonneg index (Finset.mem_inter.mp member).2
  have split := weight_union_inter power left right
  omega

/-- The content of a slot; past the end there is none. -/
def slot {α : Type} (slots : List (Option α)) (index : Nat) : Option α := slots.getD index none

variable {α : Type} {position : Nat}

theorem slot_lt {slots : List (Option α)} {index : Nat} {value : α}
    (found : slot slots index = some value) : index < slots.length := by
  by_contra outside
  rw [slot, getD_eq_getElem?_getD, getElem?_eq_none (Nat.le_of_not_lt outside)] at found
  cases found

theorem slot_replicate (α : Type) (count index : Nat) :
    slot (List.replicate count (none : Option α)) index = none := by
  simp only [slot, getD_eq_getElem?_getD, getElem?_replicate]
  split <;> rfl

theorem slot_set {slots : List (Option α)} (index : Nat) (value : α)
    (inside : position < slots.length) :
    slot (slots.set position (some value)) index =
      if index = position then some value else slot slots index := by
  by_cases same : index = position
  · subst same
    simp [slot, inside]
  · simp [slot, same, Ne.symm same]

def filled {α : Type} (slots : List (Option α)) : Finset Nat :=
  (Finset.range slots.length).filter fun index => (slot slots index).isSome

theorem mem_filled (slots : List (Option α)) (index : Nat) :
    index ∈ filled slots ↔ ∃ value, slot slots index = some value := by
  simp only [filled, Finset.mem_filter, Finset.mem_range, Option.isSome_iff_exists]
  constructor
  · exact fun member => member.2
  · rintro ⟨value, found⟩
    exact ⟨slot_lt found, value, found⟩

theorem filled_subset (slots : List (Option α)) :
    filled slots ⊆ Finset.range slots.length := Finset.filter_subset _ _

theorem filled_replicate (α : Type) (count : Nat) :
    filled (List.replicate count (none : Option α)) = ∅ := by
  ext index
  rw [mem_filled, slot_replicate]
  simp

theorem filled_set {slots : List (Option α)} (value : α) (inside : position < slots.length) :
    filled (slots.set position (some value)) = insert position (filled slots) := by
  ext index
  rw [mem_filled, Finset.mem_insert, mem_filled, slot_set index value inside]
  by_cases same : index = position <;> simp [same]

theorem weight_filled_set {power : Nat → Int} {slots : List (Option α)} {value : α}
    (inside : position < slots.length) (vacant : slot slots position = none) :
    weight power (filled (slots.set position (some value))) =
      weight power (filled slots) + power position := by
  rw [filled_set value inside, weight_insert]
  rw [mem_filled, vacant]
  simp

/-- Filled slots of `newer` cover those of `older`. -/
def overlay {α : Type} (older newer : List (Option α)) : List (Option α) :=
  older.mapIdx fun index kept => (slot newer index).or kept

section

variable (older newer : List (Option α))

theorem overlay_length : (overlay older newer).length = older.length := by simp [overlay]

theorem slot_overlay {index : Nat} (inside : index < older.length) :
    slot (overlay older newer) index = (slot newer index).or (slot older index) := by
  simp [overlay, slot, inside]

theorem slot_overlay_cases {index : Nat} {value : α}
    (found : slot (overlay older newer) index = some value) :
    slot newer index = some value ∨ slot older index = some value := by
  have inside := slot_lt found
  rw [overlay_length] at inside
  rw [slot_overlay older newer inside] at found
  cases copied : slot newer index with
  | none =>
    rw [copied, Option.none_or] at found
    exact Or.inr found
  | some fresh =>
    rw [copied, Option.some_or] at found
    exact Or.inl found

theorem filled_overlay (covered : filled newer ⊆ filled older) :
    filled (overlay older newer) = filled older := by
  ext index
  rw [mem_filled, mem_filled]
  constructor
  · rintro ⟨value, found⟩
    rcases slot_overlay_cases older newer found with copied | kept
    · exact (mem_filled older index).mp (covered ((mem_filled newer index).mpr ⟨value, copied⟩))
    · exact ⟨value, kept⟩
  · rintro ⟨value, found⟩
    rw [slot_overlay older newer (slot_lt found), found]
    cases slot newer index with
    | none => exact ⟨value, rfl⟩
    | some fresh => exact ⟨fresh, rfl⟩

end

theorem map_is_some_eq (slots others : List (Option α)) (sameLength : slots.length = others.length)
    (same : filled slots = filled others) :
    slots.map Option.isSome = others.map Option.isSome := by
  apply ext_getElem (by simp [sameLength])
  intro index inside otherInside
  simp only [length_map] at inside otherInside
  have both := congrArg (index ∈ ·) same
  simpa [mem_filled, slot, inside, otherInside, ← Option.isSome_iff_exists] using both

end Tendermint.Quorum
