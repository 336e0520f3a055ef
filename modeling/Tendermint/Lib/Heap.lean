import Mathlib

/-!
Binary heaps behind an interface that can only compare and swap two positions, as
container/heap sees them. The number of steps is bounded by the positions that a
sift can pass. A sift starts from keys that are in order but for one position and
ends with keys in order.
-/

namespace Tendermint.Heap

variable {σ : Type}

structure Interface (σ : Type) where
  less : σ → Nat → Nat → Bool
  swap : σ → Nat → Nat → σ

def parent (index : Nat) : Nat := (index - 1) / 2

section Sifts

variable (heap : Interface σ)

def up : Nat → σ → Nat → σ
  | 0, state, _ => state
  | steps + 1, state, j =>
    if parent j = j ∨ heap.less state j (parent j) = false then state
    else up steps (heap.swap state (parent j) j) (parent j)

/-- The child that a sift down compares with: the right one only if it is less. -/
def leastChild (state : σ) (i n : Nat) : Nat :=
  if 2 * i + 2 < n ∧ heap.less state (2 * i + 2) (2 * i + 1) = true then 2 * i + 2 else 2 * i + 1

/-- The state after the sift and the position where it stopped. -/
def down (n : Nat) : Nat → σ → Nat → σ × Nat
  | 0, state, i => (state, i)
  | steps + 1, state, i =>
    if n ≤ 2 * i + 1 then (state, i)
    else if heap.less state (leastChild heap state i n) i = false then (state, i)
    else down n steps (heap.swap state i (leastChild heap state i n)) (leastChild heap state i n)

theorem parent_least_child (state : σ) (i n : Nat) : parent (leastChild heap state i n) = i := by
  unfold leastChild parent
  split <;> omega

variable {heap}

variable {n : Nat} {state : σ}

theorem least_child_lt {i : Nat} (inside : 2 * i + 1 < n) :
    leastChild heap state i n < n := by
  unfold leastChild
  split <;> omega

theorem down_keeps {holds : σ → Prop}
    (keeps : ∀ state i j, i < n → j < n → holds state → holds (heap.swap state i j)) (steps : Nat)
    (start : holds state) (i : Nat) : holds (down heap n steps state i).1 := by
  induction steps generalizing state i with
  | zero => exact start
  | succ steps ih =>
    unfold down
    split
    · exact start
    split
    · exact start
    rename_i inside _
    have child : leastChild heap state i n < n := least_child_lt (by omega)
    exact ih (keeps state i _ (by omega) child start) _

theorem up_keeps {holds : σ → Prop}
    (keeps : ∀ state i j, i < n → j < n → holds state → holds (heap.swap state i j)) (steps : Nat)
    (start : holds state) {j : Nat} (inside : j < n) :
    holds (up heap steps state j) := by
  induction steps generalizing state j with
  | zero => exact start
  | succ steps ih =>
    unfold up
    split
    · exact start
    have above : parent j < n := by
      unfold parent
      omega
    exact ih (keeps state _ j above inside start) above

end Sifts

/-! ### The order of the keys -/

section Order

variable {α : Type} [LinearOrder α]

/-- What the interface compares and swaps are the keys at the positions. -/
structure Reads (heap : Interface σ) (size : σ → Nat) (key : σ → Nat → α) : Prop where
  less : ∀ state i j, heap.less state i j = decide (key state i < key state j)
  sameSize : ∀ state i j, size (heap.swap state i j) = size state
  swap : ∀ state i j other, i < size state → j < size state →
    key (heap.swap state i j) other = key state (Equiv.swap i j other)

def InOrder (n : Nat) (key : Nat → α) : Prop :=
  ∀ i, 0 < i → i < n → key (parent i) ≤ key i

/-- The children of a position are not below its parent. -/
def Bridged (n : Nat) (key : Nat → α) (hole : Nat) : Prop :=
  0 < hole → ∀ child, 0 < child → child < n → parent child = hole → key (parent hole) ≤ key child

/-- Only the key at the hole may be less than the one of its parent. -/
def OrderedAbove (n : Nat) (key : Nat → α) (hole : Nat) : Prop :=
  (∀ i, 0 < i → i < n → i ≠ hole → key (parent i) ≤ key i) ∧ Bridged n key hole

/-- Only the key at the hole may be greater than those of its children. -/
def OrderedBelow (n : Nat) (key : Nat → α) (hole : Nat) : Prop :=
  (∀ i, 0 < i → i < n → parent i ≠ hole → key (parent i) ≤ key i) ∧ Bridged n key hole

theorem parent_lt {index : Nat} (positive : 0 < index) : parent index < index := by
  unfold parent
  omega

variable {n i : Nat} {state : σ}

theorem InOrder.root_le {key : Nat → α} (ordered : InOrder n key) {index : Nat}
    (inside : index < n) : key 0 ≤ key index := by
  induction index using Nat.strong_induction_on with
  | _ index ih =>
    rcases Nat.eq_zero_or_pos index with rfl | positive
    · exact le_rfl
    · have above := parent_lt positive
      exact (ih (parent index) above (above.trans inside)).trans (ordered index positive inside)

variable {heap : Interface σ} {size : σ → Nat} {key : σ → Nat → α} (reads : Reads heap size key)

include reads

theorem OrderedAbove.swap {j : Nat} (within : n ≤ size state) (inside : j < n) (positive : 0 < j)
    (ordered : OrderedAbove n (key state) j) (less : key state j < key state (parent j)) :
    OrderedAbove n (key (heap.swap state (parent j) j)) (parent j) := by
  have above := parent_lt positive
  have moved : ∀ other, key (heap.swap state (parent j) j) other =
      if other = parent j then key state j
      else if other = j then key state (parent j) else key state other := by
    intro other
    rw [reads.swap state _ _ other (by omega) (by omega), Equiv.swap_apply_def]
    split_ifs <;> rfl
  obtain ⟨elsewhere, bridged⟩ := ordered
  refine ⟨fun i iPositive iInside notHole => ?_, fun holePositive child childPositive childInside
    isChild => ?_⟩
  · have iAbove := parent_lt iPositive
    rw [moved, moved i, if_neg notHole]
    by_cases isHole : i = j
    · rw [if_pos isHole, isHole, if_pos rfl]
      exact less.le
    rw [if_neg isHole]
    split_ifs with sibling below
    · exact less.le.trans (sibling ▸ elsewhere i iPositive iInside isHole)
    · exact bridged positive i iPositive iInside below
    · exact elsewhere i iPositive iInside isHole
  · have higher := parent_lt holePositive
    have childAbove := parent_lt childPositive
    have grand := elsewhere (parent j) holePositive (by omega) (by omega)
    rw [moved, moved child, if_neg (by omega), if_neg (by omega), if_neg (by omega)]
    split_ifs with isHole
    · exact grand
    · exact grand.trans (isChild ▸ elsewhere child childPositive childInside isHole)

theorem up_in_order {steps : Nat} {j : Nat} (within : n ≤ size state) (inside : j < n)
    (enough : j ≤ steps) (ordered : OrderedAbove n (key state) j) :
    InOrder n (key (up heap steps state j)) := by
  induction steps generalizing state j with
  | zero =>
    intro i positive iInside
    exact ordered.1 i positive iInside (by omega)
  | succ steps ih =>
    unfold up
    split
    · rename_i stops
      intro i positive iInside
      by_cases isHole : i = j
      · rw [isHole] at positive ⊢
        rcases stops with root | notLess
        · exact absurd root (parent_lt positive).ne
        · rw [reads.less] at notLess
          exact not_lt.mp (of_decide_eq_false notLess)
      · exact ordered.1 i positive iInside isHole
    · rename_i goes
      rw [not_or, Bool.not_eq_false, reads.less, decide_eq_true_eq] at goes
      have positive : 0 < j := by
        by_contra none
        exact goes.1 (by simp [parent, show j = 0 by omega])
      have above := parent_lt positive
      exact ih (by rw [reads.sameSize]; exact within) (by omega) (by omega)
        (ordered.swap reads within inside positive goes.2)

theorem least_child_le {child : Nat} (positive : 0 < child) (inside : child < n)
    (isChild : parent child = i) : key state (leastChild heap state i n) ≤ key state child := by
  have sides : child = 2 * i + 1 ∨ child = 2 * i + 2 := by
    unfold parent at isChild
    omega
  unfold leastChild
  simp only [reads.less, decide_eq_true_eq]
  rcases sides with rfl | rfl
  · split_ifs with right
    · exact right.2.le
    · exact le_rfl
  · split_ifs with right
    · exact le_rfl
    · exact not_lt.mp fun less => right ⟨inside, less⟩

theorem OrderedBelow.swap (within : n ≤ size state) (inside : 2 * i + 1 < n)
    (ordered : OrderedBelow n (key state) i)
    (less : key state (leastChild heap state i n) < key state i) :
    OrderedBelow n (key (heap.swap state i (leastChild heap state i n)))
      (leastChild heap state i n) := by
  have childInside : leastChild heap state i n < n := least_child_lt inside
  have isChild := parent_least_child heap state i n
  have least : ∀ child, 0 < child → child < n → parent child = i →
      key state (leastChild heap state i n) ≤ key state child :=
    fun child => least_child_le reads
  generalize leastChild heap state i n = low at *
  have below : i < low := by
    unfold parent at isChild
    by_contra above
    have root : low = 0 := by omega
    have same : i = 0 := by omega
    rw [root, same] at less
    exact lt_irrefl _ less
  have moved : ∀ other, key (heap.swap state i low) other =
      if other = i then key state low else if other = low then key state i
      else key state other := by
    intro other
    rw [reads.swap state _ _ other (by omega) (by omega), Equiv.swap_apply_def]
    split_ifs <;> rfl
  obtain ⟨elsewhere, bridged⟩ := ordered
  refine ⟨fun other positive otherInside notBelow => ?_, fun _ child positive inside under => ?_⟩
  · have otherAbove := parent_lt positive
    rw [moved, moved other, if_neg notBelow]
    by_cases isHole : other = i
    · rw [if_neg (by omega), if_pos isHole, isHole]
      rw [isHole] at positive
      exact bridged positive low (by omega) childInside isChild
    rw [if_neg isHole]
    split_ifs with sibling isLow isLow
    · exact less.le
    · exact least other positive otherInside sibling
    · exact absurd (isLow ▸ isChild) sibling
    · exact elsewhere other positive otherInside sibling
  · have childAbove := parent_lt positive
    rw [moved, moved child, isChild, if_pos rfl, if_neg (by omega), if_neg (by omega)]
    have direct := elsewhere child positive inside (by omega)
    rw [under] at direct
    exact direct

theorem down_in_order {steps : Nat} (within : n ≤ size state) (enough : n ≤ i + steps)
    (ordered : OrderedBelow n (key state) i) :
    InOrder n (key (down heap n steps state i).1) := by
  induction steps generalizing state i with
  | zero =>
    intro other positive inside
    have above := parent_lt positive
    exact ordered.1 other positive inside (by omega)
  | succ steps ih =>
    unfold down
    split
    · rename_i leaf
      intro other positive inside
      refine ordered.1 other positive inside fun isChild => ?_
      unfold parent at isChild
      omega
    rename_i inside
    split
    · rename_i notLess
      rw [reads.less] at notLess
      intro other positive otherInside
      by_cases isChild : parent other = i
      · rw [isChild]
        exact (not_lt.mp (of_decide_eq_false notLess)).trans
          (least_child_le reads positive otherInside isChild)
      · exact ordered.1 other positive otherInside isChild
    · rename_i goes
      rw [Bool.not_eq_false, reads.less, decide_eq_true_eq] at goes
      have lower : i < leastChild heap state i n := by
        unfold leastChild
        split <;> omega
      exact ih (by rw [reads.sameSize]; exact within) (by omega)
        (ordered.swap reads within (by omega) goes)

end Order

end Tendermint.Heap
