import Tendermint.Types.Rebuilt

/-!
Splitting `IncrementProposerPriority(m + n)` into calls with `m` and with `n`. The
second call rescales and centres the priorities once more. For every set that
updates and increments lead to, whether they clip or not, the calls compose if the
second one finds nothing to rescale and nothing to shift. Where the difference that
it computes does not overflow, they compose only then.
-/

namespace Tendermint.Types.ValidatorSet

open Finset
open Quorum (weight)

theorem safe_sub_clip_eq (a b : Int) (positive : 0 < b) :
    safeSubClip a b = max minInt64 (a - b) := by
  unfold safeSubClip safeSub
  split_ifs <;> simp only [Bool.false_eq_true, if_true, if_false] <;> omega

/-- A call finds nothing to rescale and nothing to shift. -/
structure Steady (vals : ValidatorSet) : Prop where
  close : vals.computeMaxMinPriorityDiff ≤ 2 * weight vals.power (range vals.size)
  centred : vals.computeAvgProposerPriority = .ok 0

variable {vals : ValidatorSet}

theorem Steady.increment_eq (steady : vals.Steady) (sound : vals.Sound) (times : Int)
    (positive : 0 < times) :
    vals.incrementProposerPriority times = incrementTimes times.toNat vals := by
  have rescales : vals.rescalePriorities (2 * weight vals.power (range vals.size)) = .ok vals := by
    have close := steady.close
    unfold rescalePriorities
    rw [if_neg (by simpa [isNilOrEmpty] using sound.nonempty)]
    split
    · rfl
    · rw [if_neg (by omega)]
  have shifts : vals.shiftByAvgProposerPriority = .ok vals := by
    have same : (vals.withPriorities fun val => safeSubClip val.proposerPriority 0) = vals :=
      with_priorities_self vals fun val member => by
        have fits := sound.inRange val member
        rw [safe_sub_clip_exact _ _ (by rwa [Int.sub_zero]), Int.sub_zero]
    simp [shiftByAvgProposerPriority, isNilOrEmpty, sound.nonempty, steady.centred, same]
  exact ValidatorSet.increment_eq sound.wellFormed sound.nonempty rescales shifts times positive

theorem steady_of_normal (sound : vals.Sound)
    (narrow : SpreadWithin vals (2 * weight vals.power (range vals.size)))
    (centred : Centred vals) : vals.Steady := by
  have small := (weight_fits vals sound.wellFormed (Finset.Subset.refl _)).2
  have limit : maxTotalVotingPower * 2 ≤ maxInt64 := by decide
  obtain ⟨high, highMember, low, lowMember, _, diff⟩ :=
    max_min_diff_eq sound.nonempty sound.inRange narrow (by omega)
  refine ⟨by rw [diff]; exact narrow high highMember low lowMember, ?_⟩
  have zero : (vals.validators.map (·.proposerPriority)).sum / vals.size = 0 := by
    rw [priority_sum]
    exact Int.ediv_eq_zero_of_lt centred.1 centred.2
  simp [computeAvgProposerPriority, zero, minInt64, maxInt64]

/-- One increment, clipped or not, tells the priorities before it, if the other ones
are near zero and the same validator proposes. -/
theorem once_tells {other next : ValidatorSet} (sound : vals.Sound) (same : SameMembers vals other)
    (near : PrioritiesIn other (-(2 * weight vals.power (range vals.size)))
      (2 * weight vals.power (range vals.size)))
    (first : vals.incrementProposerPriorityOnce = .ok next)
    (second : other.incrementProposerPriorityOnce = .ok next) :
    ∀ index ∈ range vals.size, vals.priority index = other.priority index := by
  obtain ⟨_, top, topInside, done, _, ⟨proposer, _, proposes, address⟩, _, moved⟩ :=
    once_spec vals sound.wellFormed sound.nonempty
  cases first.symm.trans done
  obtain ⟨_, otherTop, _, otherDone, _, ⟨_, _, otherProposes, otherAddress⟩, _, otherMoved⟩ :=
    once_spec other (same.wellFormed sound.wellFormed) (same.nonempty sound.nonempty)
  cases second.symm.trans otherDone
  cases proposes.symm.trans otherProposes
  rw [same.size, same.power] at otherMoved
  have sameTop : top = otherTop := by
    have addresses := same.map_eq fun member => member.1
    simp only [Validator.member] at addresses
    rw [address, addressAt, addressAt, ← List.getElem?_map, ← List.getElem?_map,
      addresses] at otherAddress
    exact (List.getElem?_inj (by simpa [size] using topInside)
      sound.wellFormed.distinct).mp otherAddress
  subst sameTop
  have small := (weight_fits vals sound.wellFormed (Finset.Subset.refl _)).2
  have positive := total_pos sound.wellFormed sound.nonempty
  obtain ⟨limit, limitLow⟩ := limits
  intro index inside
  have here := (moved index inside).symm.trans (otherMoved index inside)
  obtain ⟨val, member, priorityIs, powerIs⟩ := mem_of_index inside
  have fits := sound.inRange val member
  have powerPositive := sound.wellFormed.positive val member
  rw [← priorityIs] at fits
  rw [← powerIs] at powerPositive
  have within : vals.power index ≤ weight vals.power (range vals.size) :=
    single_le_sum (fun other _ => power_nonneg sound.wellFormed other) inside
  have bounds : -(2 * weight vals.power (range vals.size)) ≤ other.priority index ∧
      other.priority index ≤ 2 * weight vals.power (range vals.size) := by
    obtain ⟨twin, twinMember, twinIs, _⟩ := mem_of_index (same.size.symm ▸ inside)
    rw [twinIs]
    exact near twin twinMember
  -- beside the other ones nothing clips, and what clips ends far away from them
  rw [safe_add_clip_eq _ _ fits.2 powerPositive.le,
    safe_add_clip_eq _ _ (by omega) powerPositive.le] at here
  rw [safe_sub_clip_eq _ _ positive, safe_sub_clip_eq _ _ positive] at here
  split at here <;> omega

def ComposesAfter (vals middle : ValidatorSet) (first : Int) : Prop :=
  ∀ second, 0 < second → first + second ≤ maxInt32 → ∃ result,
    vals.incrementProposerPriority (first + second) = .ok result ∧
    middle.incrementProposerPriority second = .ok result

/-- The difference that a call computes, with twice the total power added to it, is
an int64. -/
def DiffFits (vals : ValidatorSet) : Prop :=
  SpreadWithin vals (maxInt64 - 2 * weight vals.power (range vals.size))

section

variable {vals middle : ValidatorSet} (sound : vals.Sound) {first : Int} (positive : 0 < first)
  (reached : vals.incrementProposerPriority first = .ok middle)

include sound positive reached

theorem whole_call_eq (second : Int) (later : 0 < second) :
    vals.incrementProposerPriority (first + second) = incrementTimes second.toNat middle := by
  obtain ⟨normal, _, _, starts⟩ := sound.starts
  rw [starts first positive] at reached
  rw [starts _ (by omega), Int.toNat_add positive.le later.le, increment_times_add, reached]
  rfl

theorem composes_of_steady (steady : middle.Steady) : ComposesAfter vals middle first := by
  intro second later _
  have middleSound := (sound.incremented reached).1
  obtain ⟨result, done, _⟩ := middleSound.times second.toNat
  exact ⟨result, (whole_call_eq sound positive reached second later).trans done,
    (steady.increment_eq middleSound second later).trans done⟩

theorem steady_of_composes (inside : first < maxInt32) (fits : middle.DiffFits)
    (composes : ComposesAfter vals middle first) : middle.Steady := by
  have middleSound := (sound.incremented reached).1
  obtain ⟨normal, starts, same, narrow, between, centred, _⟩ :=
    increment_normalises middleSound.wellFormed middleSound.nonempty middleSound.inRange _ fits
      (by omega)
  obtain ⟨result, whole, split⟩ := composes 1 Int.one_pos (by omega)
  rw [whole_call_eq sound positive reached 1 Int.one_pos] at whole
  rw [starts 1 Int.one_pos] at split
  have one : ∀ set, incrementTimes (1 : Int).toNat set = set.incrementProposerPriorityOnce := by
    intro set
    simp only [Int.toNat_one, incrementTimes, bind]
    cases set.incrementProposerPriorityOnce <;> rfl
  rw [one] at whole split
  have agree := once_tells middleSound same between whole split
  refine steady_of_normal middleSound ?_ ?_
  · rw [spread_within_iff] at narrow ⊢
    intro index indexInside other otherInside
    rw [agree index indexInside, agree other otherInside]
    rw [same.size] at narrow
    exact narrow index indexInside other otherInside
  · rw [Centred, same.size] at centred
    rw [Centred, weight, sum_congr rfl agree]
    exact centred

end

def named (seed : UInt8) (votingPower proposerPriority : Int) : Validator :=
  ⟨[seed], ⟨.ed25519, [seed]⟩, votingPower, proposerPriority⟩

def oneTwoThree : ValidatorSet :=
  ⟨[named 3 3 (-3), named 2 2 2, named 1 1 1], some (named 3 3 (-3)), 6⟩

def afterFour : ValidatorSet :=
  ⟨[named 3 3 3, named 2 2 (-2), named 1 1 (-1)], some (named 2 2 (-2)), 6⟩

end Tendermint.Types.ValidatorSet
