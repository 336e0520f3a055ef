import Tendermint.Lib.RoundRobin
import Tendermint.Types.ValidatorSet

/-!
The proposer priorities: `RescalePriorities`, the shift to their mean, and the
increments, as long as none of their int64 operations overflows or clips. Then
rescaling bounds the spread, the shift leaves a sum below the number of
validators, and an increment is a step of the weighted round robin.
-/

namespace Tendermint.Types

open List
open Quorum (weight)

def Fits64 (value : Int) : Prop := minInt64 ≤ value ∧ value ≤ maxInt64

instance (value : Int) : Decidable (Fits64 value) := inferInstanceAs (Decidable (_ ∧ _))

theorem safe_sub_clip_exact (a b : Int) (fits : Fits64 (a - b)) : safeSubClip a b = a - b := by
  unfold Fits64 at fits
  unfold safeSubClip safeSub
  rw [if_neg (by omega), if_neg (by omega)]
  rfl

theorem tdiv_sub_le {a b ratio width : Int} (positive : 0 < ratio) (nonneg : 0 ≤ width)
    (near : a - b ≤ ratio * width) : a.tdiv ratio - b.tdiv ratio ≤ width := by
  by_contra apart
  have splitA := Int.mul_tdiv_add_tmod a ratio
  have splitB := Int.mul_tdiv_add_tmod b ratio
  have smallB := Int.tmod_lt_of_pos b positive
  have scaled : ratio * (width + 1) ≤ ratio * (a.tdiv ratio - b.tdiv ratio) :=
    mul_le_mul_of_nonneg_left (by omega) positive.le
  rw [mul_add, mul_one, mul_sub] at scaled
  -- the remainders would have to be a whole divisor apart
  rcases Int.lt_or_le a 0 with negative | nonnegA
  · have quotientA : a.tdiv ratio ≤ 0 := by
      have flipped := Int.tdiv_nonneg (a := -a) (b := ratio) (by omega) positive.le
      rw [Int.neg_tdiv] at flipped
      omega
    have negativeB : b ≤ 0 := by
      by_contra positiveB
      have quotientB := Int.tdiv_nonneg (Int.not_le.mp positiveB).le positive.le
      omega
    have remainderB : b.tmod ratio ≤ 0 := by
      have flipped := Int.tmod_nonneg (a := -b) ratio (by omega)
      rw [Int.neg_tmod] at flipped
      omega
    have remainderA : -ratio < a.tmod ratio := by
      have flipped := Int.tmod_lt_of_pos (-a) positive
      rw [Int.neg_tmod] at flipped
      omega
    omega
  · have remainderA : 0 ≤ a.tmod ratio := Int.tmod_nonneg ratio nonnegA
    omega

theorem tdiv_between {a ratio low high : Int} (positive : 0 < ratio) (lowNonpos : low ≤ 0)
    (highNonneg : 0 ≤ high) (above : low ≤ a) (below : a ≤ high) :
    low ≤ a.tdiv ratio ∧ a.tdiv ratio ≤ high := by
  rcases Int.lt_or_le a 0 with negative | nonneg
  · have quotient := Int.tdiv_nonneg (a := -a) (b := ratio) (by omega) positive.le
    have shrinks := Int.tdiv_le_self (a := -a) ratio (by omega)
    rw [Int.neg_tdiv] at quotient shrinks
    omega
  · have quotient := Int.tdiv_nonneg nonneg positive.le
    have shrinks := Int.tdiv_le_self ratio nonneg
    omega

namespace Validator

def Beats (val other : Validator) : Prop :=
  other.proposerPriority < val.proposerPriority ∨
    other.proposerPriority = val.proposerPriority ∧
      addressKey val.address < addressKey other.address

theorem Beats.trans {first second third : Validator} (beats : first.Beats second)
    (next : second.Beats third) : first.Beats third := by
  rcases beats with more | ⟨same, less⟩ <;> rcases next with moreNext | ⟨sameNext, lessNext⟩
  · exact Or.inl (by omega)
  · exact Or.inl (by omega)
  · exact Or.inl (by omega)
  · exact Or.inr ⟨by omega, lt_trans less lessNext⟩

variable {other val : Validator}

theorem Beats.asymm (beats : val.Beats other) : ¬ other.Beats val := by
  rcases beats with more | ⟨same, less⟩ <;> rintro (back | ⟨_, lower⟩)
  · omega
  · omega
  · omega
  · exact lt_asymm less lower

theorem Beats.priority_le (beats : val.Beats other) :
    other.proposerPriority ≤ val.proposerPriority := by
  rcases beats with more | ⟨same, _⟩ <;> omega

theorem compare_proposer_priority_cases (distinct : val.address ≠ other.address) :
    (val.compareProposerPriority other = .ok val ∧ val.Beats other) ∨
      (val.compareProposerPriority other = .ok other ∧ other.Beats val) := by
  unfold compareProposerPriority
  by_cases more : other.proposerPriority < val.proposerPriority
  · exact Or.inl ⟨if_pos more, Or.inl more⟩
  by_cases less : val.proposerPriority < other.proposerPriority
  · exact Or.inr ⟨by rw [if_neg more, if_pos less], Or.inl less⟩
  rw [if_neg more, if_neg less]
  cases order : compareBytes val.address other.address with
  | lt => exact Or.inl ⟨rfl, Or.inr ⟨by omega, (compare_bytes_lt_iff _ _).mp order⟩⟩
  | gt =>
    have swapped := (compare_bytes_swap _ _).mp order
    exact Or.inr ⟨rfl, Or.inr ⟨by omega, (compare_bytes_lt_iff _ _).mp swapped⟩⟩
  | eq => exact absurd (compare_bytes_eq order) distinct

end Validator

namespace ValidatorSet

def priority (vals : ValidatorSet) (index : Nat) : Int :=
  match vals.validators[index]? with
  | some val => val.proposerPriority
  | none => 0

theorem priority_sum (vals : ValidatorSet) :
    (vals.validators.map (·.proposerPriority)).sum =
      weight vals.priority (Finset.range vals.size) :=
  sum_by_index vals.validators (·.proposerPriority)

theorem sum_map_sub (validators : List Validator) (first second : Validator → Int) :
    (validators.map fun val => first val - second val).sum =
      (validators.map first).sum - (validators.map second).sum := by
  induction validators with
  | nil => simp
  | cons val rest ih =>
    simp only [map_cons, sum_cons, ih]
    ring

/-- Sets that differ in the priorities and the proposer only. -/
structure SameMembers (vals other : ValidatorSet) : Prop where
  members : other.validators.map Validator.member = vals.validators.map Validator.member
  cached : other.cachedVotingPower = vals.cachedVotingPower

namespace SameMembers

variable {vals other : ValidatorSet}

theorem refl (vals : ValidatorSet) : SameMembers vals vals := ⟨rfl, rfl⟩

theorem trans {third : ValidatorSet} (same : SameMembers vals other)
    (next : SameMembers other third) : SameMembers vals third :=
  ⟨next.members.trans same.members, next.cached.trans same.cached⟩

theorem size (same : SameMembers vals other) : other.size = vals.size := by
  simpa [ValidatorSet.size] using congrArg List.length same.members

theorem map_eq {α : Type} (same : SameMembers vals other) (value : Address × PubKey × Int → α) :
    other.validators.map (fun val => value val.member) =
      vals.validators.map fun val => value val.member := by
  simpa [Function.comp_def] using congrArg (List.map value) same.members

theorem power (same : SameMembers vals other) : other.power = vals.power := by
  funext index
  have here := congrArg (·[index]?) (same.map_eq fun member => member.2.2)
  unfold ValidatorSet.power
  cases found : vals.validators[index]? <;> cases foundOther : other.validators[index]? <;>
    simp_all [Validator.member]

theorem wellFormed (same : SameMembers vals other) (wellFormed : vals.WellFormed) :
    other.WellFormed := by
  have powers := same.map_eq fun member => member.2.2
  have addresses := same.map_eq fun member => member.1
  simp only [Validator.member] at powers addresses
  refine ⟨?_, by rw [addresses]; exact wellFormed.distinct,
    by rw [same.cached, powers]; exact wellFormed.cached,
    by rw [powers]; exact wellFormed.bounded⟩
  intro val member
  have listed : val.votingPower ∈ other.validators.map (·.votingPower) :=
    mem_map_of_mem member
  rw [powers] at listed
  obtain ⟨twin, present, equal⟩ := mem_map.mp listed
  exact equal ▸ wellFormed.positive twin present

theorem nonempty (same : SameMembers vals other) (nonempty : vals.validators ≠ []) :
    other.validators ≠ [] := by
  intro empty
  have length := same.size
  rw [ValidatorSet.size, empty] at length
  exact nonempty (length_eq_zero_iff.mp length.symm)

end SameMembers

theorem index_of_mem {vals : ValidatorSet} {val : Validator} (member : val ∈ vals.validators) :
    ∃ index ∈ Finset.range vals.size, vals.priority index = val.proposerPriority ∧
      vals.power index = val.votingPower := by
  obtain ⟨index, inside, rfl⟩ := getElem_of_mem member
  exact ⟨index, Finset.mem_range.mpr inside, by simp [priority, inside], by simp [power, inside]⟩

theorem mem_of_index {vals : ValidatorSet} {index : Nat} (inside : index ∈ Finset.range vals.size) :
    ∃ val ∈ vals.validators, vals.priority index = val.proposerPriority ∧
      vals.power index = val.votingPower := by
  have length : index < vals.validators.length := Finset.mem_range.mp inside
  exact ⟨vals.validators[index], getElem_mem length, by simp [priority, length],
    by simp [power, length]⟩

section Change

variable (vals : ValidatorSet)

theorem with_priorities_same (change : Validator → Int) :
    SameMembers vals (vals.withPriorities change) :=
  ⟨by simp [withPriorities, Validator.member, Function.comp_def], rfl⟩

theorem with_priorities_congr (change other : Validator → Int)
    (agree : ∀ val ∈ vals.validators, change val = other val) :
    vals.withPriorities change = vals.withPriorities other := by
  unfold withPriorities
  congr 1
  exact map_congr_left fun val member => by rw [agree val member]

theorem with_priorities_self {change : Validator → Int}
    (agree : ∀ val ∈ vals.validators, change val = val.proposerPriority) :
    vals.withPriorities change = vals := by
  rw [with_priorities_congr vals change (·.proposerPriority) agree]
  simp [withPriorities]

theorem mem_with_priorities {change : Validator → Int} (val : Validator)
    (member : val ∈ (vals.withPriorities change).validators) :
    ∃ before ∈ vals.validators, val.proposerPriority = change before ∧
      val.votingPower = before.votingPower ∧ val.address = before.address := by
  obtain ⟨before, present, rfl⟩ := mem_map.mp member
  exact ⟨before, present, rfl, rfl, rfl⟩

theorem mem_with_priorities_iff (change : Validator → Int) (val : Validator) :
    val ∈ (vals.withPriorities change).validators ↔
      ∃ before ∈ vals.validators, val = { before with proposerPriority := change before } := by
  simp only [withPriorities, mem_map]
  exact exists_congr fun before => and_congr_right fun _ => eq_comm

def PrioritiesIn (vals : ValidatorSet) (low high : Int) : Prop :=
  ∀ val ∈ vals.validators, low ≤ val.proposerPriority ∧ val.proposerPriority ≤ high

def SpreadWithin (vals : ValidatorSet) (width : Int) : Prop :=
  ∀ first ∈ vals.validators, ∀ second ∈ vals.validators,
    first.proposerPriority - second.proposerPriority ≤ width

theorem spread_within_iff (width : Int) : SpreadWithin vals width ↔
    ∀ first ∈ Finset.range vals.size, ∀ second ∈ Finset.range vals.size,
      vals.priority first - vals.priority second ≤ width := by
  constructor
  · intro narrow first firstInside second secondInside
    obtain ⟨val, member, priorityIs, _⟩ := mem_of_index firstInside
    obtain ⟨other, otherMember, otherIs, _⟩ := mem_of_index secondInside
    rw [priorityIs, otherIs]
    exact narrow val member other otherMember
  · intro narrow val member other otherMember
    obtain ⟨first, firstInside, priorityIs, _⟩ := index_of_mem member
    obtain ⟨second, secondInside, otherIs, _⟩ := index_of_mem otherMember
    rw [← priorityIs, ← otherIs]
    exact narrow first firstInside second secondInside

theorem fold_max_spec {α : Type} [LinearOrder α] (priority : Validator → α)
    (validators : List Validator) (start : α) :
    start ≤ validators.foldl (fun top val => max top (priority val)) start ∧
    (∀ val ∈ validators, priority val ≤
      validators.foldl (fun top val => max top (priority val)) start) ∧
    (validators.foldl (fun top val => max top (priority val)) start = start ∨
      ∃ val ∈ validators,
        validators.foldl (fun top val => max top (priority val)) start = priority val) := by
  induction validators generalizing start with
  | nil => simp
  | cons val rest ih =>
  obtain ⟨above, each, attained⟩ := ih (max start (priority val))
  simp only [foldl_cons, mem_cons]
  refine ⟨(le_max_left ..).trans above, ?_, ?_⟩
  · rintro other (rfl | member)
    · exact (le_max_right ..).trans above
    · exact each other member
  · rcases attained with same | ⟨other, member, same⟩
    · rcases max_choice start (priority val) with left | right
      · exact Or.inl (by rw [same, left])
      · exact Or.inr ⟨val, Or.inl rfl, by rw [same, right]⟩
    · exact Or.inr ⟨other, Or.inr member, same⟩

variable {vals} (nonempty : vals.validators ≠ [])
  (inRange : ∀ val ∈ vals.validators, Fits64 val.proposerPriority)

include nonempty inRange

theorem extremes : ∃ high ∈ vals.validators, ∃ low ∈ vals.validators,
    PrioritiesIn vals low.proposerPriority high.proposerPriority ∧
    vals.validators.foldl (fun top val => max top val.proposerPriority) minInt64 =
      high.proposerPriority ∧
    vals.validators.foldl (fun low val => min low val.proposerPriority) maxInt64 =
      low.proposerPriority := by
  obtain ⟨_, belowTop, topIs⟩ := fold_max_spec (·.proposerPriority) vals.validators minInt64
  -- the least is the greatest of the dual order
  obtain ⟨_, aboveBottom, bottomIs⟩ :=
    fold_max_spec (α := Intᵒᵈ) (·.proposerPriority) vals.validators maxInt64
  obtain ⟨some, present⟩ := exists_mem_of_ne_nil _ nonempty
  have someFits := inRange some present
  have attainedTop : ∃ val ∈ vals.validators,
      vals.validators.foldl (fun top val => max top val.proposerPriority) minInt64 =
        val.proposerPriority := by
    rcases topIs with start | attained
    · have bound := belowTop some present
      exact ⟨some, present, by have := someFits.1; omega⟩
    · exact attained
  have attainedBottom : ∃ val ∈ vals.validators,
      vals.validators.foldl (fun low val => min low val.proposerPriority) maxInt64 =
        val.proposerPriority := by
    rcases bottomIs with start | attained
    · exact ⟨some, present, le_antisymm (aboveBottom some present) (someFits.2.trans_eq start.symm)⟩
    · exact attained
  obtain ⟨high, highMember, highIs⟩ := attainedTop
  obtain ⟨low, lowMember, lowIs⟩ := attainedBottom
  refine ⟨high, highMember, low, lowMember, ?_, highIs, lowIs⟩
  intro val member
  exact ⟨lowIs ▸ aboveBottom val member, highIs ▸ belowTop val member⟩

variable {width : Int}

theorem max_min_diff_eq (narrow : SpreadWithin vals width) (fits : width ≤ maxInt64) :
    ∃ high ∈ vals.validators, ∃ low ∈ vals.validators,
    PrioritiesIn vals low.proposerPriority high.proposerPriority ∧
    vals.computeMaxMinPriorityDiff = high.proposerPriority - low.proposerPriority := by
  obtain ⟨high, highMember, low, lowMember, between, highIs, lowIs⟩ := extremes nonempty inRange
  refine ⟨high, highMember, low, lowMember, between, ?_⟩
  have apart := narrow high highMember low lowMember
  have order := (between high highMember).1
  unfold computeMaxMinPriorityDiff
  rw [highIs, lowIs]
  have exact : int64 (high.proposerPriority - low.proposerPriority) =
      high.proposerPriority - low.proposerPriority :=
    int64_exact _ (by unfold minInt64; omega) (by omega)
  simp only [exact]
  rw [if_neg (by omega)]

/-- Without overflow, rescaling divides by a ratio that brings the priorities
together, and by one if they are already. -/
theorem rescale_eq {diffMax : Int} (narrow : SpreadWithin vals width) (positive : 0 < diffMax)
    (fits : width + diffMax ≤ maxInt64) :
    ∃ ratio, 0 < ratio ∧ vals.rescalePriorities diffMax =
        .ok (vals.withPriorities fun val => val.proposerPriority.tdiv ratio) ∧
      SpreadWithin (vals.withPriorities fun val => val.proposerPriority.tdiv ratio) diffMax ∧
      (SpreadWithin vals diffMax → ratio = 1) := by
  obtain ⟨high, highMember, low, lowMember, between, diffIs⟩ :=
    max_min_diff_eq nonempty inRange narrow (by omega)
  have apart := narrow high highMember low lowMember
  have order := (between high highMember).1
  have sumExact : int64 (vals.computeMaxMinPriorityDiff + diffMax) =
      high.proposerPriority - low.proposerPriority + diffMax := by
    rw [diffIs]
    exact int64_exact _ (by unfold minInt64; omega) (by omega)
  have shown : vals.rescalePriorities diffMax =
      if diffMax < vals.computeMaxMinPriorityDiff then
        .ok (vals.withPriorities fun val => val.proposerPriority.tdiv
          ((int64 (int64 (vals.computeMaxMinPriorityDiff + diffMax) - 1)).tdiv diffMax))
      else .ok vals := by
    unfold rescalePriorities
    rw [if_neg (by simpa [isNilOrEmpty] using nonempty), if_neg (by omega)]
  by_cases far : diffMax < vals.computeMaxMinPriorityDiff
  · have farDiff := far
    have lessOne : int64 (int64 (vals.computeMaxMinPriorityDiff + diffMax) - 1) =
        high.proposerPriority - low.proposerPriority + diffMax - 1 := by
      rw [sumExact]
      exact int64_exact _ (by unfold minInt64; omega) (by omega)
    rw [if_pos far, lessOne] at shown
    generalize ratioIs : (high.proposerPriority - low.proposerPriority + diffMax - 1).tdiv diffMax =
      ratio at shown
    rw [Int.tdiv_eq_ediv_of_nonneg (by omega)] at ratioIs
    -- the ratio is the quotient rounded up
    have covers : high.proposerPriority - low.proposerPriority ≤ ratio * diffMax := by
      have remainder := Int.emod_lt_of_pos
        (high.proposerPriority - low.proposerPriority + diffMax - 1) positive
      have parts := Int.mul_ediv_add_emod
        (high.proposerPriority - low.proposerPriority + diffMax - 1) diffMax
      rw [ratioIs] at parts
      have swap : diffMax * ratio = ratio * diffMax := mul_comm _ _
      omega
    have ratioPositive : 0 < ratio := by
      by_contra small
      have product : ratio * diffMax ≤ 0 :=
        mul_nonpos_of_nonpos_of_nonneg (Int.not_lt.mp small) positive.le
      omega
    refine ⟨ratio, ratioPositive, shown, ?_, ?_⟩
    · intro first firstMember second secondMember
      obtain ⟨firstBefore, firstPresent, firstIs, _⟩ := mem_with_priorities _ first firstMember
      obtain ⟨secondBefore, secondPresent, secondIs, _⟩ :=
        mem_with_priorities _ second secondMember
      rw [firstIs, secondIs]
      apply tdiv_sub_le ratioPositive positive.le
      have top := (between firstBefore firstPresent).2
      have bottom := (between secondBefore secondPresent).1
      omega
    · intro close
      have near := close high highMember low lowMember
      omega
  · rw [if_neg far] at shown
    have same : (vals.withPriorities fun val => val.proposerPriority.tdiv 1) = vals :=
      with_priorities_self vals fun val _ => Int.tdiv_one _
    refine ⟨1, Int.one_pos, by rw [same]; exact shown, ?_, fun _ => rfl⟩
    rw [same]
    intro first firstMember second secondMember
    have top := (between first firstMember).2
    have bottom := (between second secondMember).1
    omega

omit inRange in
theorem average_between {low high : Int} (between : PrioritiesIn vals low high) :
    low ≤ (vals.validators.map (·.proposerPriority)).sum / vals.size ∧
      (vals.validators.map (·.proposerPriority)).sum / vals.size ≤ high := by
  have positive : (0 : Int) < vals.size := by
    exact_mod_cast length_pos_of_ne_nil nonempty
  have above : low * vals.size ≤ (vals.validators.map (·.proposerPriority)).sum := by
    have each := card_nsmul_le_sum (vals.validators.map (·.proposerPriority)) low
      (by simpa using fun val member => (between val member).1)
    simpa [size, nsmul_eq_mul, mul_comm] using each
  have below : (vals.validators.map (·.proposerPriority)).sum ≤ high * vals.size := by
    have each := sum_le_card_nsmul (vals.validators.map (·.proposerPriority)) high
      (by simpa using fun val member => (between val member).2)
    simpa [size, nsmul_eq_mul, mul_comm] using each
  exact ⟨Int.le_ediv_of_mul_le positive above, Int.ediv_le_of_le_mul positive below⟩

/-- Without clipping, the shift subtracts the mean, and leaves a sum between zero
and the number of validators. -/
theorem shift_eq (narrow : SpreadWithin vals width) (fits : width ≤ maxInt64) :
    ∃ average, vals.shiftByAvgProposerPriority =
        .ok (vals.withPriorities fun val => val.proposerPriority - average) ∧
      (∀ val ∈ vals.validators, -width ≤ val.proposerPriority - average ∧
        val.proposerPriority - average ≤ width) ∧
      (vals.validators.map (·.proposerPriority)).sum / vals.size = average ∧
      0 ≤ weight (vals.withPriorities fun val => val.proposerPriority - average).priority
        (Finset.range vals.size) ∧
      weight (vals.withPriorities fun val => val.proposerPriority - average).priority
        (Finset.range vals.size) < vals.size := by
  obtain ⟨high, highMember, low, lowMember, between, _, _⟩ := extremes nonempty inRange
  obtain ⟨aboveLow, belowHigh⟩ := average_between nonempty between
  have positive : (0 : Int) < vals.size := by
    exact_mod_cast length_pos_of_ne_nil nonempty
  have parts := Int.mul_ediv_add_emod (vals.validators.map (·.proposerPriority)).sum vals.size
  have remainder := Int.emod_nonneg (vals.validators.map (·.proposerPriority)).sum positive.ne'
  have smaller := Int.emod_lt_of_pos (vals.validators.map (·.proposerPriority)).sum positive
  generalize averageIs : (vals.validators.map (·.proposerPriority)).sum / vals.size = average at *
  have highFits := inRange high highMember
  have lowFits := inRange low lowMember
  have apart := narrow high highMember low lowMember
  have near : ∀ val ∈ vals.validators, -width ≤ val.proposerPriority - average ∧
      val.proposerPriority - average ≤ width := by
    intro val member
    have bounds := between val member
    omega
  have exact : vals.shiftByAvgProposerPriority =
      .ok (vals.withPriorities fun val => val.proposerPriority - average) := by
    have fitsAverage : minInt64 ≤ average ∧ average ≤ maxInt64 := by
      unfold Fits64 at highFits lowFits
      omega
    have average_ok : vals.computeAvgProposerPriority = .ok average := by
      unfold computeAvgProposerPriority
      rw [averageIs]
      simp [fitsAverage]
    have subtract :=
      with_priorities_congr vals (fun val => safeSubClip val.proposerPriority average)
      (fun val => val.proposerPriority - average) fun val member => by
        have bounds := near val member
        exact safe_sub_clip_exact _ _ (by unfold Fits64 minInt64; unfold maxInt64 at fits ⊢; omega)
    unfold shiftByAvgProposerPriority
    simp [isNilOrEmpty, nonempty, average_ok, subtract]
  have sum : weight (vals.withPriorities fun val => val.proposerPriority - average).priority
      (Finset.range vals.size) =
      (vals.validators.map (·.proposerPriority)).sum - vals.size * average := by
    have sameSize := (with_priorities_same vals fun val => val.proposerPriority - average).size
    rw [← sameSize, ← priority_sum]
    simpa [withPriorities, Function.comp_def, size] using
      sum_map_sub vals.validators (·.proposerPriority) fun _ => average
  refine ⟨average, exact, near, rfl, ?_, ?_⟩ <;> rw [sum] <;> omega

end Change

section Increment

theorem fold_prefers {α : Type} {prefer : Option α → α → Panics (Option α)} (beats : α → α → Prop)
    (trans : ∀ {first second third}, beats first second → beats second third → beats first third)
    (key : α → Address)
    (decides : ∀ best next, key best ≠ key next →
      (prefer (some best) next = .ok (some best) ∧ beats best next) ∨
        (prefer (some best) next = .ok (some next) ∧ beats next best))
    (rest : List α) (best : α) (distinct : ((best :: rest).map key).Nodup) :
    ∃ top ∈ best :: rest, rest.foldlM prefer (some best) = .ok (some top) ∧
      ∀ other ∈ best :: rest, other = top ∨ beats top other := by
  induction rest generalizing best with
  | nil => exact ⟨best, mem_cons_self, rfl, by simp⟩
  | cons next rest ih =>
  simp only [map_cons, nodup_cons, mem_cons, not_or] at distinct
  obtain ⟨⟨apart, bestFresh⟩, nextFresh, restDistinct⟩ := distinct
  -- the winner goes on, and whoever beats it in the end beats the loser too
  have carried : ∀ winner loser, beats winner loser →
      prefer (some best) next = .ok (some winner) → [winner, loser].Perm [best, next] →
      ((winner :: rest).map key).Nodup →
      ∃ top ∈ best :: next :: rest, (next :: rest).foldlM prefer (some best) = .ok (some top) ∧
        ∀ other ∈ best :: next :: rest, other = top ∨ beats top other := by
    intro winner loser won step roles fresh
    obtain ⟨top, member, found, wins⟩ := ih winner fresh
    have order : (winner :: loser :: rest).Perm (best :: next :: rest) := roles.append_right rest
    refine ⟨top, order.subset ?_, by rw [foldlM_cons, step]; exact found, fun other present => ?_⟩
    · rcases mem_cons.mp member with rfl | inRest
      · exact mem_cons_self
      · exact mem_cons_of_mem _ (mem_cons_of_mem _ inRest)
    · have first := wins winner mem_cons_self
      rcases mem_cons.mp (order.symm.subset present) with rfl | later
      · exact first
      rcases mem_cons.mp later with rfl | inRest
      · rcases first with same | beaten
        · exact .inr (same ▸ won)
        · exact .inr (trans beaten won)
      · exact wins other (mem_cons_of_mem _ inRest)
  rcases decides best next apart with ⟨step, won⟩ | ⟨step, won⟩
  · exact carried best next won step (.refl _) (nodup_cons.mpr ⟨bestFresh, restDistinct⟩)
  · exact carried next best won step (.swap _ _ _) (nodup_cons.mpr ⟨nextFresh, restDistinct⟩)

theorem prefer_position_spec (rest : List (Validator × Nat)) (best : Validator × Nat)
    (distinct : ((best :: rest).map fun entry => entry.1.address).Nodup) :
    ∃ top ∈ best :: rest, rest.foldlM preferPosition (some best) = .ok (some top) ∧
      ∀ other ∈ best :: rest, other = top ∨ top.1.Beats other.1 := by
  refine fold_prefers (fun first second => first.1.Beats second.1) Validator.Beats.trans
    (fun entry => entry.1.address) (fun best next apart => ?_) rest best distinct
  have other : next.1 ≠ best.1 := fun same => apart (by rw [same])
  rcases Validator.compare_proposer_priority_cases apart with
    ⟨chosen, beats⟩ | ⟨chosen, beats⟩
  · exact .inl ⟨by simp [preferPosition, chosen], beats⟩
  · exact .inr ⟨by simp [preferPosition, chosen, other], beats⟩

theorem most_priority {vals : ValidatorSet}
    (distinct : (vals.validators.map (·.address)).Nodup) (nonempty : vals.validators ≠ []) :
    ∃ top position, vals.getValWithMostPriority = .ok (some (top, position)) ∧
      vals.validators[position]? = some top ∧
      ∀ other ∈ vals.validators, other = top ∨ top.Beats other := by
  have addresses : (vals.validators.zipIdx.map fun entry => entry.1.address).Nodup := by
    have plain : (vals.validators.zipIdx.map fun entry => entry.1.address) =
        (vals.validators.zipIdx.map Prod.fst).map (·.address) := by
      rw [map_map]
      rfl
    rw [plain, zipIdx_map_fst]
    exact distinct
  cases entries : vals.validators.zipIdx with
  | nil => exact absurd (by simpa using congrArg List.length entries) nonempty
  | cons first rest =>
  rw [entries] at addresses
  obtain ⟨top, member, found, wins⟩ := prefer_position_spec rest first addresses
  rw [← entries] at member wins
  refine ⟨top.1, top.2, ?_, mem_zipIdx_iff_getElem?.mp member, ?_⟩
  · rw [getValWithMostPriority, entries]
    exact found
  · intro other present
    obtain ⟨index, inside, rfl⟩ := getElem_of_mem present
    have listed : (vals.validators[index], index) ∈ vals.validators.zipIdx :=
      mem_zipIdx_iff_getElem?.mpr (getElem?_eq_getElem inside)
    rcases wins _ listed with same | beats
    · exact Or.inl (by rw [← same])
    · exact Or.inr beats

theorem total_pos {vals : ValidatorSet} (wellFormed : vals.WellFormed)
    (nonempty : vals.validators ≠ []) : 0 < weight vals.power (Finset.range vals.size) := by
  obtain ⟨val, member⟩ := exists_mem_of_ne_nil _ nonempty
  have positive := wellFormed.positive val member
  rw [← sum_eq_weight]
  have bound := single_le_sum (l := vals.validators.map (·.votingPower))
    (fun power present => by
      obtain ⟨other, otherMember, rfl⟩ := mem_map.mp present
      exact (wellFormed.positive other otherMember).le) val.votingPower (mem_map_of_mem member)
  omega

/-- An increment whose additions and subtraction do not clip. -/
def OnceFits (vals : ValidatorSet) (total : Int) : Prop :=
  ∀ val ∈ vals.validators, Fits64 (val.proposerPriority + val.votingPower) ∧
    minInt64 ≤ val.proposerPriority + val.votingPower - total

def addressAt (vals : ValidatorSet) (index : Nat) : Option Address :=
  vals.validators[index]?.map (·.address)

section

variable (vals : ValidatorSet) (wellFormed : vals.WellFormed) (nonempty : vals.validators ≠ [])

include wellFormed nonempty

/-- An increment, clipped or not: the highest after the rise is lowered and proposes. -/
theorem once_spec :
    ∃ result, ∃ top ∈ Finset.range vals.size, vals.incrementProposerPriorityOnce = .ok result ∧
      SameMembers vals result ∧
      (∃ proposer ∈ result.validators, result.proposer = some proposer ∧
        some proposer.address = vals.addressAt top) ∧
      (∀ index ∈ Finset.range vals.size, safeAddClip (vals.priority index) (vals.power index) ≤
        safeAddClip (vals.priority top) (vals.power top)) ∧
      ∀ index ∈ Finset.range vals.size, result.priority index =
        if index = top then safeSubClip (safeAddClip (vals.priority index) (vals.power index))
          (weight vals.power (Finset.range vals.size))
        else safeAddClip (vals.priority index) (vals.power index) := by
  have raisedSame := with_priorities_same vals fun val =>
    safeAddClip val.proposerPriority val.votingPower
  have raisedFormed := raisedSame.wellFormed wellFormed
  obtain ⟨top, position, found, here, wins⟩ :=
    most_priority raisedFormed.distinct (raisedSame.nonempty nonempty)
  have total := total_voting_power_eq _ raisedFormed
  rw [raisedSame.power, raisedSame.size] at total
  simp only [withPriorities, getElem?_map, Option.map_eq_some_iff] at here
  obtain ⟨val, foundTop, rfl⟩ := here
  have inside := (List.getElem?_eq_some_iff.mp foundTop).1
  have raisedAt : ∀ index (length : index < vals.validators.length),
      safeAddClip (vals.priority index) (vals.power index) =
        safeAddClip vals.validators[index].proposerPriority vals.validators[index].votingPower := by
    intro index length
    simp [priority, power, length]
  let lowered : Validator := { val with
    proposerPriority := safeSubClip (safeAddClip val.proposerPriority val.votingPower)
      (weight vals.power (Finset.range vals.size)) }
  refine ⟨⟨(vals.withPriorities fun val =>
      safeAddClip val.proposerPriority val.votingPower).validators.set position lowered,
      some lowered, vals.cachedVotingPower⟩, position, Finset.mem_range.mpr inside, ?_, ⟨?_, rfl⟩,
    ⟨lowered, mem_set (by simpa [withPriorities] using inside) _, rfl,
      by simp [lowered, addressAt, foundTop]⟩, ?_, ?_⟩
  · unfold incrementProposerPriorityOnce
    simp only [found, total, bind_eq, pure_eq]
    rfl
  · rw [← raisedSame.members]
    apply ext_getElem (by simp)
    intro index length _
    by_cases same : position = index
    · subst same
      rw [getElem?_eq_getElem inside] at foundTop
      cases foundTop
      simp [Validator.member, withPriorities, lowered]
    · simp [getElem_set_ne same]
  · intro index indexInside
    have length : index < vals.validators.length := Finset.mem_range.mp indexInside
    have topIs := raisedAt position inside
    rw [getElem?_eq_getElem inside] at foundTop
    cases foundTop
    rw [topIs, raisedAt index length]
    rcases wins _ (mem_map_of_mem (getElem_mem length)) with same | beats
    · exact (congrArg Validator.proposerPriority same).le
    · exact beats.priority_le
  · intro index indexInside
    have length : index < vals.validators.length := Finset.mem_range.mp indexInside
    by_cases same : index = position
    · subst same
      rw [getElem?_eq_getElem length] at foundTop
      cases foundTop
      simp [priority, power, withPriorities, length, lowered]
    · simp [priority, power, withPriorities, length, same, getElem_set_ne (Ne.symm same)]

/-- An increment that does not clip is a step of the round robin that serves the new
proposer. -/
theorem once_step_by (fits : OnceFits vals (weight vals.power (Finset.range vals.size))) :
    ∃ result top, vals.incrementProposerPriorityOnce = .ok result ∧ SameMembers vals result ∧
      result.proposer.map (·.address) = vals.addressAt top ∧
      RoundRobin.StepBy (Finset.range vals.size) vals.power vals.priority result.priority top := by
  obtain ⟨result, top, inside, done, same, ⟨proposer, _, proposes, address⟩, highest, moved⟩ :=
    once_spec vals wellFormed nonempty
  have fitsAt : ∀ index ∈ Finset.range vals.size,
      safeAddClip (vals.priority index) (vals.power index) =
        vals.priority index + vals.power index ∧
      safeSubClip (vals.priority index + vals.power index)
          (weight vals.power (Finset.range vals.size)) =
        vals.priority index + vals.power index - weight vals.power (Finset.range vals.size) := by
    intro index present
    obtain ⟨val, member, priorityIs, powerIs⟩ := mem_of_index present
    have positive := total_pos wellFormed nonempty
    have bounds := fits val member
    rw [priorityIs, powerIs]
    refine ⟨safe_add_clip_exact _ _ bounds.1.1 bounds.1.2, safe_sub_clip_exact _ _ ?_⟩
    unfold Fits64 at bounds ⊢
    omega
  refine ⟨result, top, done, same, by rw [proposes]; exact address, inside, ?_, ?_⟩
  · intro index present
    rw [← (fitsAt index present).1, ← (fitsAt top inside).1]
    exact highest index present
  · intro index present
    rw [moved index present]
    split
    · rw [(fitsAt index present).1, (fitsAt index present).2]
    · rw [(fitsAt index present).1, Int.sub_zero]

end

theorem increment_times_add (first second : Nat) (vals : ValidatorSet) :
    incrementTimes (first + second) vals =
      (incrementTimes first vals).bind (incrementTimes second) := by
  induction first generalizing vals with
  | zero => simp [incrementTimes, Except.bind]
  | succ first ih =>
  rw [Nat.succ_add]
  simp only [incrementTimes, bind_eq]
  cases vals.incrementProposerPriorityOnce with
  | error text => rfl
  | ok once => exact ih once

end Increment

section Normal

variable {vals : ValidatorSet} (wellFormed : vals.WellFormed) (nonempty : vals.validators ≠ [])

include wellFormed nonempty

def Centred (vals : ValidatorSet) : Prop :=
  0 ≤ weight vals.priority (Finset.range vals.size) ∧
    weight vals.priority (Finset.range vals.size) < vals.size

/-- Rescaling to twice the total power and the shift bring the priorities within
it and centre them; they leave them alone if they are. -/
theorem normalises (inRange : ∀ val ∈ vals.validators, Fits64 val.proposerPriority)
    {width : Int} (narrow : SpreadWithin vals width)
    (fits : width + 2 * weight vals.power (Finset.range vals.size) ≤ maxInt64) :
    ∃ rescaled normal,
      vals.rescalePriorities (2 * weight vals.power (Finset.range vals.size)) = .ok rescaled ∧
      rescaled.shiftByAvgProposerPriority = .ok normal ∧
      SameMembers vals rescaled ∧ SameMembers vals normal ∧
      (∀ val ∈ rescaled.validators, Fits64 val.proposerPriority) ∧
      SpreadWithin rescaled (2 * weight vals.power (Finset.range vals.size)) ∧
      SpreadWithin normal (2 * weight vals.power (Finset.range vals.size)) ∧
      PrioritiesIn normal (-(2 * weight vals.power (Finset.range vals.size)))
        (2 * weight vals.power (Finset.range vals.size)) ∧
      Centred normal ∧
      (SpreadWithin vals (2 * weight vals.power (Finset.range vals.size)) →
        normal = vals.withPriorities fun val => val.proposerPriority -
          (vals.validators.map (·.proposerPriority)).sum / vals.size) := by
  have totalPositive := total_pos wellFormed nonempty
  have small := (weight_fits vals wellFormed (Finset.Subset.refl _)).2
  have limit : maxTotalVotingPower * 2 ≤ maxInt64 := by decide
  generalize powerIs : weight vals.power (Finset.range vals.size) = power at *
  obtain ⟨ratio, ratioPositive, rescaled, rescaledNarrow, unchanged⟩ :=
    rescale_eq nonempty inRange narrow (by omega) fits
  have sameRescaled := with_priorities_same vals fun val => val.proposerPriority.tdiv ratio
  have rescaledRange : ∀ val ∈ (vals.withPriorities fun val =>
      val.proposerPriority.tdiv ratio).validators, Fits64 val.proposerPriority := by
    intro val member
    obtain ⟨before, present, priorityIs, _⟩ := mem_with_priorities _ val member
    rw [priorityIs]
    exact tdiv_between ratioPositive (by decide) (by decide) (inRange before present).1
      (inRange before present).2
  obtain ⟨average, shifted, near, averageIs, sumLow, sumHigh⟩ :=
    shift_eq (sameRescaled.nonempty nonempty) rescaledRange rescaledNarrow (by omega)
  have sameShifted := with_priorities_same
    (vals.withPriorities fun val => val.proposerPriority.tdiv ratio)
    fun val => val.proposerPriority - average
  refine ⟨_, _, rescaled, shifted, sameRescaled, sameRescaled.trans sameShifted, rescaledRange,
    rescaledNarrow, ?_, ?_, ?_, ?_⟩
  · intro first firstMember second secondMember
    obtain ⟨firstBefore, firstPresent, firstIs, _⟩ := mem_with_priorities _ first firstMember
    obtain ⟨secondBefore, secondPresent, secondIs, _⟩ := mem_with_priorities _ second secondMember
    have apart := rescaledNarrow firstBefore firstPresent secondBefore secondPresent
    omega
  · intro val member
    obtain ⟨before, present, priorityIs, _⟩ := mem_with_priorities _ val member
    rw [priorityIs]
    exact near before present
  · rw [Centred, sameShifted.size]
    exact ⟨sumLow, sumHigh⟩
  · intro close
    have same : (vals.withPriorities fun val => val.proposerPriority.tdiv ratio) = vals := by
      rw [unchanged close]
      exact with_priorities_self vals fun val _ => Int.tdiv_one _
    rw [same] at averageIs ⊢
    rw [averageIs]

omit wellFormed nonempty in
theorem centred_unshifted (centred : Centred vals) :
    (vals.withPriorities fun val => val.proposerPriority -
      (vals.validators.map (·.proposerPriority)).sum / vals.size) = vals := by
  have zero : (vals.validators.map (·.proposerPriority)).sum / vals.size = 0 := by
    rw [priority_sum]
    exact Int.ediv_eq_zero_of_lt centred.1 centred.2
  rw [zero]
  exact with_priorities_self vals fun val _ => Int.sub_zero _

omit nonempty in
theorem window_exact : int64 (priorityWindowSizeFactor *
    weight vals.power (Finset.range vals.size)) =
      2 * weight vals.power (Finset.range vals.size) := by
  rw [priorityWindowSizeFactor, mul_comm, double_total_exact vals wellFormed, mul_comm]

theorem increment_eq {rescaled normal : ValidatorSet}
    (rescales : vals.rescalePriorities (2 * weight vals.power (Finset.range vals.size)) =
      .ok rescaled) (shifts : rescaled.shiftByAvgProposerPriority = .ok normal) (times : Int)
    (positive : 0 < times) :
    vals.incrementProposerPriority times = incrementTimes times.toNat normal := by
  have total := total_voting_power_eq vals wellFormed
  have window := window_exact wellFormed
  unfold incrementProposerPriority
  simp [isNilOrEmpty, nonempty, Int.not_le.mpr positive, total, window, rescales, shifts]

theorem increment_normalises (inRange : ∀ val ∈ vals.validators, Fits64 val.proposerPriority)
    (width : Int) (narrow : SpreadWithin vals width)
    (fits : width + 2 * weight vals.power (Finset.range vals.size) ≤ maxInt64) :
    ∃ normal,
      (∀ times, 0 < times →
        vals.incrementProposerPriority times = incrementTimes times.toNat normal) ∧
      SameMembers vals normal ∧
      SpreadWithin normal (2 * weight vals.power (Finset.range vals.size)) ∧
      PrioritiesIn normal (-(2 * weight vals.power (Finset.range vals.size)))
        (2 * weight vals.power (Finset.range vals.size)) ∧
      Centred normal ∧
      (SpreadWithin vals (2 * weight vals.power (Finset.range vals.size)) → Centred vals →
        normal = vals) := by
  obtain ⟨rescaled, normal, rescales, shifts, _, same, _, _, normalNarrow, between, centred,
    unchanged⟩ := normalises wellFormed nonempty inRange narrow fits
  refine ⟨normal, increment_eq wellFormed nonempty rescales shifts, same,
    normalNarrow, between, centred, ?_⟩
  intro close already
  rw [unchanged close, centred_unshifted already]

end Normal

end ValidatorSet

end Tendermint.Types
