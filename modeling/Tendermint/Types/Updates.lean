import Tendermint.Types.ChangeSet
import Tendermint.Types.Tally

/-!
`UpdateWithChangeSet` as a function on the map from addresses to powers: what it
refuses, and the map it leaves. Nothing is asked of the priorities but that they
are int64s, so that rescaling may overflow; its divisor is still not zero.
-/

namespace Tendermint.Types

open List

namespace ValidatorSet

open Quorum (weight)

def powerMap (vals : ValidatorSet) (address : Address) : Option Int :=
  (vals.getByAddress address).map (·.2.votingPower)

def appliedMap (vals : ValidatorSet) (changes : List Validator) (address : Address) : Option Int :=
  match changes.find? fun change => change.address == address with
  | some change => if change.votingPower = 0 then none else some change.votingPower
  | none => vals.powerMap address

def resultingTotal (vals : ValidatorSet) (changes : List Validator) : Int :=
  ((vals.unchanged changes).map (·.votingPower)).sum + (changes.map (·.votingPower)).sum

inductive Refused (vals : ValidatorSet) (changes : List Validator) : Prop
  | duplicate (repeated : ¬ (changes.map (·.address)).Nodup)
  | emptyAddress (unnamed : ∃ change ∈ changes, change.address = [])
  | power (outside : ∃ change ∈ changes,
      change.votingPower < 0 ∨ maxTotalVotingPower < change.votingPower)
  | unknown (missing : ∃ change ∈ changes,
      change.votingPower = 0 ∧ vals.powerMap change.address = none)
  | emptied (gone : ∀ address, vals.appliedMap changes address = none)
  | total (above : maxTotalVotingPower < vals.resultingTotal changes)

theorem power_map_some {vals : ValidatorSet} (distinct : (vals.validators.map (·.address)).Nodup)
    (address : Address) (power : Int) :
    vals.powerMap address = some power ↔
      ∃ val ∈ vals.validators, val.address = address ∧ val.votingPower = power := by
  unfold powerMap
  constructor
  · intro mapped
    obtain ⟨⟨index, val⟩, found, same⟩ := Option.map_eq_some_iff.mp mapped
    obtain ⟨here, named⟩ := get_by_address_some vals found
    exact ⟨val, mem_of_getElem? here, named, same⟩
  · rintro ⟨val, member, rfl, rfl⟩
    obtain ⟨index, found⟩ := get_by_address_mem vals distinct member
    rw [found]
    rfl

theorem power_map_none (vals : ValidatorSet) (address : Address) :
    vals.powerMap address = none ↔ ∀ val ∈ vals.validators, val.address ≠ address := by
  rw [powerMap, Option.map_eq_none_iff, get_by_address_none]

theorem applied_map_some {vals : ValidatorSet} (wellFormed : vals.WellFormed)
    {changes : List Validator} (distinct : (changes.map (·.address)).Nodup) (address : Address)
    (power : Int) :
    vals.appliedMap changes address = some power ↔
      (∃ change ∈ changes, change.votingPower ≠ 0 ∧ change.address = address ∧
        change.votingPower = power) ∨
      (∃ val ∈ vals.validators, val.address = address ∧ val.votingPower = power) ∧
        ∀ change ∈ changes, change.address ≠ address := by
  unfold appliedMap
  cases found : changes.find? fun change => change.address == address with
  | none =>
    have others : ∀ change ∈ changes, change.address ≠ address := by
      simpa using found
    rw [power_map_some wellFormed.distinct]
    constructor
    · intro kept
      exact Or.inr ⟨kept, others⟩
    · rintro (⟨change, member, _, same, _⟩ | kept)
      · exact absurd same (others change member)
      · exact kept.1
  | some change =>
    have member := mem_of_find?_eq_some found
    have named : change.address = address := by simpa using find?_some found
    constructor
    · intro mapped
      by_cases zero : change.votingPower = 0
      · simp [zero] at mapped
      · simp only [zero, if_false, Option.some.injEq] at mapped
        exact Or.inl ⟨change, member, zero, named, mapped⟩
    · rintro (⟨other, otherMember, nonzero, same, rfl⟩ | ⟨_, others⟩)
      · have equal := inj_on_of_nodup_map distinct member otherMember
          (named.trans same.symm)
        rw [equal]
        simp [nonzero]
      · exact absurd named (others change member)

section Recentre

theorem int64_fits (value : Int) : Fits64 (int64 value) := by
  have low := Int.le_bmod (x := value) (m := 2 ^ 64) (by decide)
  have high := Int.bmod_lt (x := value) (m := 2 ^ 64) (by decide)
  unfold Fits64 int64 minInt64 maxInt64
  omega

def rescaleRatio (vals : ValidatorSet) (diffMax : Int) : Int :=
  (int64 (int64 (vals.computeMaxMinPriorityDiff + diffMax) - 1)).tdiv diffMax

theorem max_min_diff_le (vals : ValidatorSet) : vals.computeMaxMinPriorityDiff ≤ maxInt64 := by
  unfold computeMaxMinPriorityDiff
  dsimp only
  split
  · exact (int64_fits _).2
  · exact (int64_fits _).2

/-- The divisor is above one, or so far below zero that no quotient overflows: the
window is at most a quarter of the int64s, and the sum wraps at most once. -/
theorem rescale_ratio_cases {vals : ValidatorSet} {diffMax : Int} (positive : 0 < diffMax)
    (small : diffMax ≤ 2 * maxTotalVotingPower) (far : diffMax < vals.computeMaxMinPriorityDiff) :
    1 < vals.rescaleRatio diffMax ∨ vals.rescaleRatio diffMax < -1 := by
  have top := max_min_diff_le vals
  have limit : 2 * maxTotalVotingPower = 2305843009213693950 := by decide
  have largest : maxInt64 = 9223372036854775807 := by decide
  unfold rescaleRatio
  generalize vals.computeMaxMinPriorityDiff = diff at *
  have once : int64 (int64 (diff + diffMax) - 1) = int64 (diff + diffMax - 1) := by
    unfold int64
    simp only [Int.bmod_sub_bmod]
  rw [once]
  rcases Int.lt_or_le maxInt64 (diff + diffMax - 1) with wraps | fits
  · have wrapped : int64 (diff + diffMax - 1) = -(2 ^ 64 - (diff + diffMax - 1)) := by
      unfold int64
      rw [Int.bmod_eq_iff (by decide)]
      omega
    rw [wrapped, Int.neg_tdiv, Int.tdiv_eq_ediv_of_nonneg (by omega)]
    have large : 2 ≤ (2 ^ 64 - (diff + diffMax - 1)) / diffMax :=
      Int.le_ediv_of_mul_le positive (by omega)
    omega
  · left
    rw [int64_exact _ (by unfold minInt64; omega) fits, Int.tdiv_eq_ediv_of_nonneg (by omega)]
    have large : 2 ≤ (diff + diffMax - 1) / diffMax :=
      Int.le_ediv_of_mul_le positive (by omega)
    omega

theorem tdiv_fits (value ratio : Int) (fits : Fits64 value) (apart : 1 < ratio ∨ ratio < -1) :
    Fits64 (value.tdiv ratio) := by
  have quotient : (value.tdiv ratio).natAbs = value.natAbs / ratio.natAbs :=
    Int.natAbs_tdiv value ratio
  have halved : value.natAbs / ratio.natAbs ≤ value.natAbs / 2 :=
    Nat.div_le_div_left (by omega) (by decide)
  unfold Fits64 minInt64 maxInt64 at fits ⊢
  omega

theorem safe_sub_clip_fits (a b : Int) (fits : Fits64 a) : Fits64 (safeSubClip a b) := by
  unfold Fits64 minInt64 maxInt64 at *
  unfold safeSubClip safeSub minInt64 maxInt64
  split_ifs <;> simp only [Bool.false_eq_true, if_true, if_false] <;> omega

variable {vals : ValidatorSet} (wellFormed : vals.WellFormed) (nonempty : vals.validators ≠ [])
  (inRange : ∀ val ∈ vals.validators, Fits64 val.proposerPriority)

include nonempty inRange

theorem shift_returns : ∃ normal, vals.shiftByAvgProposerPriority = .ok normal ∧
    SameMembers vals normal ∧ ∀ val ∈ normal.validators, Fits64 val.proposerPriority := by
  obtain ⟨high, highMember, low, lowMember, between, _, _⟩ := extremes nonempty inRange
  obtain ⟨aboveLow, belowHigh⟩ := average_between nonempty between
  have averageFits := And.intro ((inRange low lowMember).1.trans aboveLow)
    (belowHigh.trans (inRange high highMember).2)
  refine ⟨_, ?_, with_priorities_same vals fun val => safeSubClip val.proposerPriority
    ((vals.validators.map (·.proposerPriority)).sum / vals.size), ?_⟩
  · simp [shiftByAvgProposerPriority, computeAvgProposerPriority, isNilOrEmpty, nonempty,
      averageFits]
  · intro val member
    obtain ⟨before, present, priorityIs, _⟩ := mem_with_priorities _ val member
    rw [priorityIs]
    exact safe_sub_clip_fits _ _ (inRange before present)

include wellFormed

theorem rescale_returns : ∃ rescaled,
    vals.rescalePriorities (2 * weight vals.power (Finset.range vals.size)) = .ok rescaled ∧
      SameMembers vals rescaled ∧ ∀ val ∈ rescaled.validators, Fits64 val.proposerPriority := by
  have positive := total_pos wellFormed nonempty
  have small := (weight_fits vals wellFormed (Finset.Subset.refl _)).2
  generalize weight vals.power (Finset.range vals.size) = total at *
  unfold rescalePriorities
  rw [if_neg (by simpa [isNilOrEmpty] using nonempty), if_neg (by omega)]
  by_cases far : 2 * total < vals.computeMaxMinPriorityDiff
  · rw [if_pos far]
    refine ⟨_, rfl, with_priorities_same vals _, ?_⟩
    intro val member
    obtain ⟨before, present, priorityIs, _⟩ := mem_with_priorities _ val member
    rw [priorityIs]
    exact tdiv_fits _ _ (inRange before present) (rescale_ratio_cases (by omega) (by omega) far)
  · rw [if_neg far]
    exact ⟨vals, rfl, SameMembers.refl vals, inRange⟩

theorem recentred_returns : ∃ normal, vals.recentred = .ok normal.byPower ∧
    SameMembers vals normal ∧ ∀ val ∈ normal.validators, Fits64 val.proposerPriority := by
  obtain ⟨rescaled, rescales, sameRescaled, rescaledRange⟩ :=
    rescale_returns wellFormed nonempty inRange
  obtain ⟨normal, shifts, sameNormal, normalRange⟩ :=
    shift_returns (sameRescaled.nonempty nonempty) rescaledRange
  exact ⟨normal, recentred_eq wellFormed rescales shifts,
    sameRescaled.trans sameNormal, normalRange⟩

end Recentre

section Refusal

variable {vals : ValidatorSet} (wellFormed : vals.WellFormed) {changes : List Validator}

include wellFormed

theorem resulting_total_eq (proper : ProperChanges changes) :
    vals.resultingTotal changes = vals.updatedTotal changes - vals.removedTotal changes := by
  have named := power_of_sum_eq wellFormed proper.distinct
  have split := power_split vals fun val => decide (val.address ∈ changes.map (·.address))
  have gained := sum_map_sub changes (·.votingPower) fun change => vals.powerOf change.address
  have kept : vals.unchanged changes =
      vals.validators.filter fun val => !decide (val.address ∈ changes.map (·.address)) := by
    apply filter_congr
    intro val _
    rw [Bool.eq_iff_iff]
    simp
  rw [map_map] at named
  simp only [Function.comp_def] at named
  rw [resultingTotal, kept, total_after_eq proper vals, gained]
  omega

theorem all_removed (proper : ProperChanges changes) (known : Known vals (splitOf changes).removals)
    (noneNew : numNewValidators (splitOf changes).updates vals = 0)
    (sizes : vals.size = (splitOf changes).removals.length) (address : Address) :
    vals.appliedMap changes address = none := by
  have inside : (splitOf changes).removals.map (·.address) ⊆ vals.validators.map (·.address) := by
    intro address member
    obtain ⟨delete, listed, rfl⟩ := mem_map.mp member
    obtain ⟨val, present, same⟩ := known delete listed
    exact mem_map.mpr ⟨val, present, same⟩
  have perm : ((splitOf changes).removals.map (·.address)).Perm
      (vals.validators.map (·.address)) := by
    apply List.Subperm.perm_of_length_le
    · exact (address_sorted_nodup (removals_sorted proper)).subperm inside
    · rw [length_map, length_map]
      exact sizes.le
  have removed : ∀ val ∈ vals.validators, ∃ delete ∈ (splitOf changes).removals,
      delete.address = val.address := by
    intro val member
    exact mem_map.mp (perm.mem_iff.mpr (mem_map_of_mem member))
  apply Option.eq_none_iff_forall_not_mem.mpr
  intro power mapped
  rcases (applied_map_some wellFormed proper.distinct address power).mp mapped with
    ⟨change, listed, nonzero, _, _⟩ | ⟨⟨val, present, same, _⟩, others⟩
  · have positive : 0 < change.votingPower :=
      (proper.powers change listed).1.lt_of_ne nonzero.symm
    have update := (mem_updates changes change).mpr ⟨listed, positive⟩
    have old : vals.hasAddress change.address = true := by
      have none := length_eq_zero_iff.mp noneNew
      simpa using filter_eq_nil_iff.mp none change update
    obtain ⟨val, present, same⟩ : ∃ val ∈ vals.validators, val.address = change.address := by
      simpa [hasAddress] using old
    obtain ⟨delete, deleted, sameDelete⟩ := removed val present
    exact split_disjoint proper change update delete deleted (sameDelete.trans same).symm
  · obtain ⟨delete, deleted, sameDelete⟩ := removed val present
    exact others delete ((mem_removals changes delete).mp deleted).1 (sameDelete.trans same)

theorem refused_of_unacceptable (unacceptable : ¬ Acceptable vals changes true) :
    Refused vals changes := by
  by_contra accepted
  have proper : ProperChanges changes := by
    constructor
    · intro change listed empty
      exact accepted (.emptyAddress ⟨change, listed, empty⟩)
    · by_contra repeated
      exact accepted (.duplicate repeated)
    · intro change listed
      by_contra outside
      exact accepted (.power ⟨change, listed, by omega⟩)
  have known : Known vals (splitOf changes).removals := by
    intro delete member
    obtain ⟨listed, zero⟩ := (mem_removals changes delete).mp member
    by_contra missing
    refine accepted (.unknown ⟨delete, listed, zero, (power_map_none vals _).mpr ?_⟩)
    intro val present same
    exact missing ⟨val, present, same⟩
  apply unacceptable
  refine ⟨proper, Or.inl rfl, ?_, known, ?_⟩
  · rintro ⟨noneNew, sizes⟩
    exact accepted (.emptied (all_removed wellFormed proper known noneNew sizes))
  · by_contra above
    rw [← resulting_total_eq wellFormed proper] at above
    exact accepted (.total (Int.not_le.mp above))

theorem Changed.power_iff {changed : ValidatorSet} (made : Changed vals changes changed)
    (proper : ProperChanges changes) (address : Address) (power : Int) :
    (∃ val ∈ changed.validators, val.address = address ∧ val.votingPower = power) ↔
      vals.appliedMap changes address = some power := by
  rw [applied_map_some wellFormed proper.distinct]
  constructor
  · rintro ⟨val, member, rfl, rfl⟩
    rcases (made.mem val).mp member with ⟨update, listed, positive, rfl⟩ | ⟨present, others⟩
    · exact Or.inl ⟨update, listed, positive.ne', rfl, rfl⟩
    · exact Or.inr ⟨⟨val, present, rfl, rfl⟩, others⟩
  · rintro (⟨change, listed, nonzero, rfl, rfl⟩ | ⟨⟨val, present, rfl, rfl⟩, others⟩)
    · have positive := (proper.powers change listed).1.lt_of_ne nonzero.symm
      exact ⟨_, (made.mem _).mpr (Or.inl ⟨change, listed, positive, rfl⟩), rfl, rfl⟩
    · exact ⟨val, (made.mem val).mpr (Or.inr ⟨present, others⟩), rfl, rfl⟩

theorem refused_iff : Refused vals changes ↔ ¬ Acceptable vals changes true := by
  constructor
  · intro refused acceptable
    have proper := acceptable.proper
    cases refused with
    | duplicate repeated => exact repeated proper.distinct
    | emptyAddress unnamed =>
      obtain ⟨change, listed, empty⟩ := unnamed
      exact proper.named change listed empty
    | power outside =>
      obtain ⟨change, listed, beyond⟩ := outside
      have bounds := proper.powers change listed
      omega
    | unknown missing =>
      obtain ⟨change, listed, zero, absent⟩ := missing
      obtain ⟨val, present, same⟩ :=
        acceptable.known change ((mem_removals changes change).mpr ⟨listed, zero⟩)
      exact (power_map_none vals _).mp absent val present same
    | emptied gone =>
      obtain ⟨changed, _, made, _⟩ := changed_set_ok wellFormed acceptable
      obtain ⟨val, member⟩ :=
        exists_mem_of_ne_nil _ (made.nonempty wellFormed acceptable)
      have mapped := (made.power_iff wellFormed proper val.address val.votingPower).mp
        ⟨val, member, rfl, rfl⟩
      rw [gone] at mapped
      cases mapped
    | total above =>
      rw [resulting_total_eq wellFormed proper] at above
      exact above.not_ge acceptable.fits
  · exact refused_of_unacceptable wellFormed

end Refusal

section Order

variable {vals : ValidatorSet} {changes other : List Validator} (perm : changes.Perm other)

include perm

theorem applied_map_perm (wellFormed : vals.WellFormed)
    (distinct : (changes.map (·.address)).Nodup) (address : Address) :
    vals.appliedMap changes address = vals.appliedMap other address := by
  have otherDistinct := (perm.map (·.address)).nodup_iff.mp distinct
  apply Option.ext
  intro power
  rw [applied_map_some wellFormed distinct, applied_map_some wellFormed otherDistinct]
  simp only [perm.mem_iff]

theorem resulting_total_perm : vals.resultingTotal changes = vals.resultingTotal other := by
  have kept : vals.unchanged changes = vals.unchanged other := by
    apply filter_congr
    intro val _
    rw [perm.any_eq]
  rw [resultingTotal, kept, (perm.map (·.votingPower)).sum_eq, resultingTotal]

theorem Refused.permuted (wellFormed : vals.WellFormed) (refused : Refused vals changes) :
    Refused vals other := by
  by_cases distinct : (changes.map (·.address)).Nodup
  · cases refused with
    | duplicate repeated => exact absurd distinct repeated
    | emptyAddress unnamed =>
      apply Refused.emptyAddress
      simpa only [perm.mem_iff] using unnamed
    | power outside =>
      apply Refused.power
      simpa only [perm.mem_iff] using outside
    | unknown missing =>
      apply Refused.unknown
      simpa only [perm.mem_iff] using missing
    | emptied gone =>
      apply Refused.emptied
      intro address
      rw [← applied_map_perm perm wellFormed distinct]
      exact gone address
    | total above =>
      apply Refused.total
      rw [← resulting_total_perm perm]
      exact above
  · exact .duplicate fun otherDistinct =>
      distinct ((perm.map (·.address)).nodup_iff.mpr otherDistinct)

end Order

section Outcome

variable {vals : ValidatorSet} (wellFormed : vals.WellFormed)

/-- Whether an update would divide the priorities by zero: `Int.tdiv` has a value
there, where the source panics. -/
def DividesByZero (vals : ValidatorSet) (changes : List Validator) : Prop :=
  ∃ split updatedPower changed total,
    (vals.checkChanges changes true).run = .ok (.ok (split, updatedPower)) ∧
    vals.changedSet split updatedPower = .ok changed ∧ changed.totalVotingPower = .ok total ∧
    int64 (priorityWindowSizeFactor * total) < changed.computeMaxMinPriorityDiff ∧
    changed.rescaleRatio (int64 (priorityWindowSizeFactor * total)) = 0

include wellFormed

theorem never_divides_by_zero (changes : List Validator) : ¬ vals.DividesByZero changes := by
  rintro ⟨split, updatedPower, changed, total, checked, made, totalled, far, zero⟩
  by_cases acceptable : Acceptable vals changes true
  · have accepted := check_changes_ok wellFormed acceptable
    rw [ExceptT.run, accepted] at checked
    cases checked
    obtain ⟨result, resultIs, isChanged, resultFormed⟩ := changed_set_ok wellFormed acceptable
    rw [resultIs] at made
    cases made
    rw [total_voting_power_eq changed resultFormed] at totalled
    cases totalled
    rw [window_exact resultFormed] at far zero
    have positive := total_pos resultFormed (isChanged.nonempty wellFormed acceptable)
    have small := (weight_fits changed resultFormed (Finset.Subset.refl _)).2
    have apart := rescale_ratio_cases (by omega) (by omega) far
    omega
  · obtain ⟨error, refused⟩ := check_changes_refuses wellFormed acceptable
    rw [ExceptT.run, refused] at checked
    cases checked

omit wellFormed in
theorem Changed.in_range {changes : List Validator} {changed : ValidatorSet}
    (made : Changed vals changes changed)
    (inRange : ∀ val ∈ vals.validators, Fits64 val.proposerPriority) :
    ∀ val ∈ changed.validators, Fits64 val.proposerPriority := by
  intro val member
  rcases (made.mem val).mp member with ⟨update, _, _, rfl⟩ | ⟨present, _⟩
  · unfold prioritised updatedPriority
    cases found : vals.getByAddress update.address with
    | none => exact int64_fits _
    | some entry =>
      have here := (get_by_address_some vals found).1
      exact inRange entry.2 (mem_of_getElem? here)
  · exact inRange val present

variable (nonempty : vals.validators ≠ [])
  (inRange : ∀ val ∈ vals.validators, Fits64 val.proposerPriority)

include inRange

theorem update_of_acceptable {changes : List Validator} (present : changes ≠ [])
    (acceptable : Acceptable vals changes true) : ∃ next,
    vals.updateWithChangeSet changes true = .ok (none, next) ∧ next.WellFormed ∧
      ∀ address, next.powerMap address = vals.appliedMap changes address := by
  obtain ⟨changed, made, isChanged, changedFormed⟩ := changed_set_ok wellFormed acceptable
  obtain ⟨normal, recentres, same, _⟩ := recentred_returns changedFormed
    (isChanged.nonempty wellFormed acceptable) (isChanged.in_range inRange)
  have normalFormed := same.wellFormed changedFormed
  have formed := by_power_well_formed normalFormed
  refine ⟨normal.byPower, update_accepted wellFormed present acceptable made recentres, formed, ?_⟩
  intro address
  apply Option.ext
  intro power
  rw [power_map_some formed.distinct, ← isChanged.power_iff wellFormed acceptable.proper]
  simp only [by_power_mem]
  -- rescaling and shifting keep every address with its power
  have pairs := same.map_eq fun member => (member.1, member.2.2)
  have listed := congrArg ((address, power) ∈ ·) pairs
  simpa [Validator.member] using listed

omit inRange in
include nonempty in
theorem acceptable_nil : Acceptable vals [] true := by
  have bounded := (weight_fits vals wellFormed (Finset.Subset.refl _)).2
  refine ⟨⟨by simp, by simp, by simp⟩, Or.inl rfl, ?_, ?_, ?_⟩
  · rintro ⟨_, sizes⟩
    exact nonempty (length_eq_zero_iff.mp sizes)
  · intro delete member
    cases member
  · have proper : ProperChanges [] := ⟨by simp, by simp, by simp⟩
    rw [total_after_eq proper vals]
    simpa using bounded

include nonempty

theorem update_spec (changes : List Validator) : ∃ error next,
    vals.updateWithChangeSet changes true = .ok (error, next) ∧
      (error.isSome ↔ Refused vals changes) ∧ (error.isSome → next = vals) ∧
      (error = none → next.WellFormed ∧
        ∀ address, next.powerMap address = vals.appliedMap changes address) := by
  by_cases acceptable : Acceptable vals changes true
  · have accepted : ¬ Refused vals changes :=
      mt (refused_iff wellFormed).mp (not_not.mpr acceptable)
    by_cases present : changes = []
    · subst present
      exact ⟨none, vals, update_empty vals true, by simpa using accepted, by simp,
        fun _ => ⟨wellFormed, fun _ => rfl⟩⟩
    · obtain ⟨next, updated, formed, map⟩ :=
        update_of_acceptable wellFormed inRange present acceptable
      exact ⟨none, next, updated, by simpa using accepted, by simp, fun _ => ⟨formed, map⟩⟩
  · have refused := (refused_iff wellFormed).mpr acceptable
    have present : changes ≠ [] := by
      rintro rfl
      exact acceptable (acceptable_nil wellFormed nonempty)
    obtain ⟨error, updated⟩ := update_refused wellFormed present acceptable
    exact ⟨some error, vals, updated, by simpa using refused, fun _ => rfl, by simp⟩

end Outcome

/-- An update of a valid set returns: it refuses the changes and leaves the set, or
applies them all. -/
theorem update_exact_and_atomic (vals : ValidatorSet) (wellFormed : vals.WellFormed)
    (nonempty : vals.validators ≠ [])
    (inRange : ∀ val ∈ vals.validators, Fits64 val.proposerPriority) (changes : List Validator) :
    (∃ error next, vals.updateWithChangeSet changes true = .ok (error, next) ∧
      (error.isSome ↔ Refused vals changes) ∧ (error.isSome → next = vals) ∧
      (error = none → next.WellFormed ∧
        ∀ address, next.powerMap address = vals.appliedMap changes address) ∧
      ∀ other, changes.Perm other → ∃ otherError otherNext,
        vals.updateWithChangeSet other true = .ok (otherError, otherNext) ∧
          (otherError.isSome ↔ error.isSome) ∧
          ∀ address, otherNext.powerMap address = next.powerMap address) ∧
      ¬ vals.DividesByZero changes := by
  obtain ⟨error, next, updated, refusedIff, kept, applied⟩ :=
    update_spec wellFormed nonempty inRange changes
  refine ⟨⟨error, next, updated, refusedIff, kept, applied, ?_⟩,
    never_divides_by_zero wellFormed changes⟩
  intro other perm
  obtain ⟨otherError, otherNext, otherUpdated, otherRefusedIff, otherKept, otherApplied⟩ :=
    update_spec wellFormed nonempty inRange other
  have sameRefusal : otherError.isSome ↔ error.isSome := by
    rw [otherRefusedIff, refusedIff]
    exact ⟨Refused.permuted perm.symm wellFormed, Refused.permuted perm wellFormed⟩
  refine ⟨otherError, otherNext, otherUpdated, sameRefusal, ?_⟩
  intro address
  cases error with
  | some _ => rw [kept rfl, otherKept (sameRefusal.mpr rfl)]
  | none =>
  have otherNone : otherError = none := by
    simpa using sameRefusal
  have distinct : (changes.map (·.address)).Nodup := by
    by_contra repeated
    simpa using refusedIff.mpr (.duplicate repeated)
  rw [(applied rfl).2, (otherApplied otherNone).2, applied_map_perm perm wellFormed distinct]

def joining : Validator := ⟨[2], ⟨.ed25519, [2]⟩, 3, 0⟩

def unnamed : Validator := ⟨[], ⟨.ed25519, [2]⟩, 3, 0⟩

theorem joining_applied : ∃ next,
    VoteSet.soleSet.updateWithChangeSet [joining] true = .ok (none, next) ∧
      next.powerMap [1] = some 1 ∧ next.powerMap [2] = some 3 := by
  obtain ⟨⟨error, next, updated, _, _, applied, _⟩, _⟩ :=
    update_exact_and_atomic VoteSet.soleSet VoteSet.sole_set_well_formed (by decide) (by decide)
      [joining]
  have accepted : (VoteSet.soleSet.updateWithChangeSet [joining] true).toOption.map (·.1.isSome) =
      some false := by decide +kernel
  rw [updated] at accepted
  have none : error = none := by simpa [Except.toOption] using accepted
  subst none
  refine ⟨next, updated, ?_, ?_⟩
  · rw [(applied rfl).2]
    decide
  · rw [(applied rfl).2]
    decide

/-- The empty address is taken for a repeated one, whatever the rest of the list. -/
theorem empty_address_refused :
    (∃ error, VoteSet.soleSet.updateWithChangeSet [unnamed] true =
      .ok (some error, VoteSet.soleSet)) ∧
    ([unnamed].map (·.address)).Nodup ∧
    (∀ change ∈ [unnamed], 0 < change.votingPower ∧ change.votingPower ≤ maxTotalVotingPower) ∧
    VoteSet.soleSet.appliedMap [unnamed] [1] = some 1 ∧
    VoteSet.soleSet.resultingTotal [unnamed] ≤ maxTotalVotingPower := by
  refine ⟨?_, by decide, by decide, by decide, by decide⟩
  have unacceptable : ¬ Acceptable VoteSet.soleSet [unnamed] true := fun acceptable =>
    acceptable.proper.named unnamed (mem_singleton_self _) rfl
  exact update_refused VoteSet.sole_set_well_formed (by decide) unacceptable

end ValidatorSet

end Tendermint.Types
