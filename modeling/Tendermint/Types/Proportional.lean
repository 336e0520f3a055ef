import Tendermint.Types.NewSet

/-!
Proposer selection is proportional to the voting power. A new set is the first step of a round
robin that starts with priorities of zero. No later call rescales or shifts its priorities, so
the proposers of the next rounds are those of one schedule, and a schedule of as many steps as
the total power serves everyone as often as their power says.
-/

namespace Tendermint.Types.ValidatorSet

open List
open Quorum (weight)
open RoundRobin (Schedule)

/-- The copy is the value itself: a set is not changed in place here. -/
def copyIncrementProposerPriority (vals : ValidatorSet) (times : Int) : Panics ValidatorSet :=
  vals.incrementProposerPriority times

def ahead (vals : ValidatorSet) (rounds : Nat) : Panics ValidatorSet :=
  if rounds = 0 then .ok vals else vals.copyIncrementProposerPriority rounds

def proposers (vals : ValidatorSet) (rounds : Nat) : List (Option Address) :=
  (List.range rounds).map fun round =>
    (vals.ahead round).toOption.bind fun later => later.proposer.map (·.address)

theorem increment_times_schedule (count : Nat) {vals : ValidatorSet} (wellFormed : vals.WellFormed)
    (nonempty : vals.validators ≠ [])
    (fits : ∀ tops later, SameMembers vals later →
      Schedule (Finset.range vals.size) vals.power tops vals.priority later.priority →
      OnceFits later (weight vals.power (Finset.range vals.size))) :
    ∃ tops : List Nat, tops.length = count ∧ ∀ steps ≤ count, ∃ later,
      incrementTimes steps vals = .ok later ∧ SameMembers vals later ∧
      Schedule (Finset.range vals.size) vals.power (tops.take steps) vals.priority later.priority ∧
      ∀ top, (tops.take steps).getLast? = some top →
        later.proposer.map (·.address) = vals.addressAt top := by
  induction count with
  | zero =>
    refine ⟨[], rfl, fun steps none => ?_⟩
    rw [Nat.le_zero.mp none]
    exact ⟨vals, rfl, .refl vals, .start _, fun top found => nomatch found⟩
  | succ count ih =>
    obtain ⟨tops, length, each⟩ := ih
    obtain ⟨middle, reached, same, schedule, _⟩ := each count (Nat.le_refl count)
    rw [← length, take_length] at schedule
    have middleFits := fits tops middle same schedule
    rw [← same.power, ← same.size] at middleFits
    obtain ⟨result, top, done, sameNext, proposer, step⟩ :=
      once_step_by middle (same.wellFormed wellFormed) (same.nonempty nonempty) middleFits
    rw [same.power, same.size] at step
    have address : middle.addressAt top = vals.addressAt top := by
      have addresses := congrArg (·[top]?) (same.map_eq fun member => member.1)
      simpa [addressAt, Validator.member] using addresses
    refine ⟨tops ++ [top], by simp [length], fun steps few => ?_⟩
    rcases Nat.lt_or_eq_of_le few with earlier | last
    · have within : steps ≤ tops.length := by omega
      rw [take_append_of_le_length within]
      exact each steps (by omega)
    · -- the last step serves the proposer of the result
      have whole : (tops ++ [top]).take steps = tops ++ [top] :=
        take_of_length_le (by simp [length, last])
      refine ⟨result, ?_, same.trans sameNext, ?_, ?_⟩
      · rw [last, increment_times_add count 1, reached]
        simp [Except.bind, incrementTimes, bind, done]
      · rw [whole]
        exact .serve tops top _ _ _ schedule step
      · intro other found
        rw [whole, getLast?_append, getLast?_singleton, Option.some_or] at found
        cases found
        rw [proposer, address]

section Fresh

variable {fresh : ValidatorSet} (formed : fresh.WellFormed) (nonempty : fresh.validators ≠ [])
  (zero : ∀ val ∈ fresh.validators, val.proposerPriority = 0)
  (small : weight fresh.power (Finset.range fresh.size) ≤ maxInt32)

include zero in
theorem zero_priority (index : Nat) (inside : index ∈ Finset.range fresh.size) :
    fresh.priority index = 0 := by
  obtain ⟨val, member, priorityIs, _⟩ := mem_of_index inside
  rw [priorityIs, zero val member]

include zero in
theorem zero_sum : weight fresh.priority (Finset.range fresh.size) = 0 :=
  Finset.sum_eq_zero fun index inside => zero_priority zero index inside

include formed in
theorem size_le_total : (fresh.size : Int) ≤ weight fresh.power (Finset.range fresh.size) := by
  have each := Finset.card_nsmul_le_sum (Finset.range fresh.size) fresh.power 1
    fun index inside => by
      obtain ⟨val, member, _, powerIs⟩ := mem_of_index inside
      have positive := formed.positive val member
      omega
  simpa [weight] using each

include formed nonempty zero

theorem schedule_between {tops : List Nat} {later : ValidatorSet}
    (schedule : Schedule (Finset.range fresh.size) fresh.power tops fresh.priority
      later.priority) {index : Nat} (inside : index ∈ Finset.range fresh.size) :
    -weight fresh.power (Finset.range fresh.size) < later.priority index ∧
      later.priority index + weight fresh.power (Finset.range fresh.size) ≤
        fresh.size * weight fresh.power (Finset.range fresh.size) := by
  have positive := total_pos formed nonempty
  have above := schedule.above (fun index _ => power_nonneg formed index) positive
    (zero_sum zero).ge fun index inside => by rw [zero_priority zero index inside]; omega
  have sum := schedule.sum.trans (zero_sum zero)
  have below := RoundRobin.level_le_of_above sum above inside
  rw [Finset.card_range] at below
  exact ⟨above index inside, below⟩

include small

theorem schedule_fits (tops : List Nat) (later : ValidatorSet) (same : SameMembers fresh later)
    (schedule : Schedule (Finset.range fresh.size) fresh.power tops fresh.priority later.priority) :
    OnceFits later (weight fresh.power (Finset.range fresh.size)) := by
  intro val member
  obtain ⟨index, inside, priorityIs, powerIs⟩ := index_of_mem member
  rw [same.size] at inside
  have between := schedule_between formed nonempty zero schedule inside
  have positive := total_pos formed nonempty
  have size := size_le_total formed
  have square : fresh.size * weight fresh.power (Finset.range fresh.size) ≤
      maxInt32 * maxInt32 :=
    Int.mul_le_mul (size.trans small) small positive.le (by decide)
  have powerLe : fresh.power index ≤ weight fresh.power (Finset.range fresh.size) :=
    Finset.single_le_sum (fun index _ => power_nonneg formed index) inside
  have powerNonneg := power_nonneg formed index
  have room : maxInt32 * maxInt32 + maxInt32 ≤ maxInt64 := by decide
  have floor : minInt64 ≤ -(2 * maxInt32) := by decide
  rw [← priorityIs, ← powerIs, same.power]
  exact ⟨⟨by omega, by omega⟩, by omega⟩

theorem first_step_normal {vals : ValidatorSet} (same : SameMembers fresh vals) {top : Nat}
    (schedule : Schedule (Finset.range fresh.size) fresh.power [top] fresh.priority
      vals.priority) (times : Nat) (positive : 0 < times) :
    vals.incrementProposerPriority times = incrementTimes times vals := by
  have totalPositive := total_pos formed nonempty
  have valsFormed := same.wellFormed formed
  have limit : 6 * maxInt32 ≤ maxInt64 ∧ minInt64 ≤ -maxInt32 := by decide
  have near : ∀ index ∈ Finset.range vals.size,
      -weight fresh.power (Finset.range fresh.size) < vals.priority index ∧
        vals.priority index ≤ weight fresh.power (Finset.range fresh.size) := by
    intro index inside
    rw [same.size] at inside
    refine ⟨(schedule_between formed nonempty zero schedule inside).1, ?_⟩
    have level := schedule.level_eq index inside
    rw [zero_priority zero index inside, length_singleton, Nat.cast_one, Int.one_mul,
      Int.zero_add] at level
    have powerLe : fresh.power index ≤ weight fresh.power (Finset.range fresh.size) :=
      Finset.single_le_sum (fun index _ => power_nonneg formed index) inside
    have drop : 0 ≤ weight fresh.power (Finset.range fresh.size) * ([top].count index : Int) :=
      Int.mul_nonneg totalPositive.le (Int.natCast_nonneg _)
    omega
  have narrow : SpreadWithin vals (2 * weight fresh.power (Finset.range fresh.size)) := by
    rw [spread_within_iff]
    intro first firstInside second secondInside
    have high := (near first firstInside).2
    have low := (near second secondInside).1
    omega
  have inRange : ∀ val ∈ vals.validators, Fits64 val.proposerPriority := by
    intro val member
    obtain ⟨index, inside, priorityIs, _⟩ := index_of_mem member
    have bounds := near index inside
    rw [← priorityIs]
    exact ⟨by omega, by omega⟩
  have centred : Centred vals := by
    have sum := schedule.sum.trans (zero_sum zero)
    have some := length_pos_iff.mpr (same.nonempty nonempty)
    rw [Centred, same.size, sum, ← same.size]
    exact ⟨Int.le_refl 0, Int.natCast_pos.mpr some⟩
  obtain ⟨normal, increments, _, _, _, _, unchanged⟩ := increment_normalises valsFormed
    (same.nonempty nonempty) inRange _ narrow (by rw [same.power, same.size]; omega)
  rw [increments times (Int.natCast_pos.mpr positive), Int.toNat_natCast,
    unchanged (by rw [same.power, same.size]; exact narrow) centred]

theorem ahead_schedule (vals : ValidatorSet) (made : fresh.incrementProposerPriorityOnce = .ok vals)
    (count : Nat) : ∃ tops : List Nat, tops.length = count + 1 ∧ ∀ round ≤ count, ∃ later,
      vals.ahead round = .ok later ∧
      Schedule (Finset.range fresh.size) fresh.power (tops.take (round + 1)) fresh.priority
        later.priority ∧
      SameMembers fresh later ∧
      ∀ top, tops[round]? = some top → later.proposer.map (·.address) = fresh.addressAt top := by
  obtain ⟨tops, length, each⟩ := increment_times_schedule (count + 1) formed nonempty
    (schedule_fits formed nonempty zero small)
  refine ⟨tops, length, fun round few => ?_⟩
  have once : incrementTimes 1 fresh = .ok vals := by
    simp [incrementTimes, made]
  -- the first of the steps is the one that a new set has taken
  obtain ⟨first, firstReached, firstSame, firstSchedule, _⟩ := each 1 (by omega)
  rw [once] at firstReached
  cases firstReached
  obtain ⟨top, rest, shape⟩ : ∃ top rest, tops = top :: rest := by
    cases tops with
    | nil => cases length
    | cons top rest => exact ⟨top, rest, rfl⟩
  have single : tops.take 1 = [top] := by rw [shape]; rfl
  rw [single] at firstSchedule
  obtain ⟨later, reached, same, schedule, proposer⟩ := each (round + 1) (by omega)
  refine ⟨later, ?_, schedule, same, fun other found => proposer other ?_⟩
  · rw [Nat.add_comm, increment_times_add 1 round, once] at reached
    unfold ahead copyIncrementProposerPriority
    split
    case isTrue none =>
      rw [none] at reached
      exact reached
    case isFalse some =>
      rw [first_step_normal formed nonempty zero small firstSame firstSchedule round (by omega)]
      exact reached
  · rw [getLast?_eq_getElem?, length_take, length,
      Nat.min_eq_left (Nat.succ_le_succ few), Nat.succ_sub_one,
      getElem?_take_of_lt (Nat.lt_succ_self round), found]

end Fresh

section New

variable {valz : List Validator}

theorem new_acceptable (present : valz ≠ []) (named : ∀ val ∈ valz, val.address ≠ [])
    (distinct : (valz.map (·.address)).Nodup) (positive : ∀ val ∈ valz, 0 < val.votingPower)
    (bounded : (valz.map (·.votingPower)).sum ≤ maxTotalVotingPower) :
    Acceptable empty valz false := by
  have powers : ∀ val ∈ valz, 0 ≤ val.votingPower ∧ val.votingPower ≤ maxTotalVotingPower := by
    intro val member
    have bound := single_le_sum (l := valz.map (·.votingPower)) (fun power listed => by
      obtain ⟨other, otherMember, rfl⟩ := mem_map.mp listed
      exact (positive other otherMember).le) val.votingPower (mem_map_of_mem member)
    exact ⟨(positive val member).le, bound.trans bounded⟩
  obtain ⟨first, member⟩ := exists_mem_of_ne_nil _ present
  apply acceptable_of ⟨named, distinct, powers⟩ empty
  · intro change listed zero
    have power := positive change listed
    omega
  · exact ⟨first, member, positive first member, fun val nobody => nomatch nobody⟩
  · exact .inr fun change listed => (positive change listed).ne'
  · rw [empty_total, Int.zero_add]
    have own : (valz.map fun change => change.votingPower - empty.powerOf change.address) =
        valz.map (·.votingPower) :=
      map_congr_left fun change _ => Int.sub_zero change.votingPower
    rw [own]
    exact bounded

theorem new_zero {fresh : ValidatorSet} (members : ∀ val, val ∈ fresh.validators ↔
      ∃ listed ∈ valz, val = { listed with proposerPriority := 0 }) :
    ∀ val ∈ fresh.validators, val.proposerPriority = 0 := by
  intro val member
  obtain ⟨listed, _, rfl⟩ := (members val).mp member
  rfl

/-- In as many rounds as the total power, beginning with that of the new set, everyone proposes
as often as their power says, and then the priorities are zero again. -/
theorem proposers_proportional (valz : List Validator) (present : valz ≠ [])
    (distinct : (valz.map (·.address)).Nodup) (positive : ∀ val ∈ valz, 0 < val.votingPower)
    (total : Nat) (sum : (valz.map (·.votingPower)).sum = total)
    (small : (total : Int) ≤ maxInt32) :
    ((∀ val ∈ valz, val.address ≠ []) → ∃ vals, new valz = .ok vals) ∧
    ∀ vals, new valz = .ok vals →
      (∀ val ∈ valz, ((vals.proposers total).count (some val.address) : Int) = val.votingPower) ∧
      ∃ last, vals.ahead (total - 1) = .ok last ∧
        ∀ val ∈ last.validators, val.proposerPriority = 0 := by
  have room : maxInt32 ≤ maxTotalVotingPower := by decide
  refine ⟨fun named => ?_, fun vals made => ?_⟩
  · have acceptable := new_acceptable present named distinct positive (by omega)
    obtain ⟨fresh, formed, nonempty, members, weighs, makes⟩ := new_eq acceptable present
    have fits := schedule_fits formed nonempty (new_zero members) (by omega) [] fresh
      (.refl fresh) (.start _)
    obtain ⟨vals, _, made, _⟩ := once_step_by fresh formed nonempty fits
    exact ⟨vals, makes.trans made⟩
  have acceptable := new_accepts present made
  obtain ⟨fresh, formed, nonempty, members, weighs, makes⟩ := new_eq acceptable present
  have zero := new_zero members
  rw [sum] at weighs
  rw [makes] at made
  have totalPositive := total_pos formed nonempty
  obtain ⟨tops, length, each⟩ :=
    ahead_schedule formed nonempty zero (by omega) vals made (total - 1)
  have whole : tops.length = total := by omega
  obtain ⟨last, reached, schedule, same, _⟩ := each (total - 1) (Nat.le_refl _)
  rw [take_of_length_le (by omega)] at schedule
  have cycle := schedule.cycle (fun index _ => power_nonneg formed index) totalPositive
    (zero_priority zero) (by rw [whole, weighs])
  have turns : vals.proposers total = tops.map fresh.addressAt := by
    apply ext_getElem (by simp [proposers, whole])
    intro round inside _
    have few : round < total := by simpa [proposers] using inside
    obtain ⟨later, now, _, _, proposer⟩ := each round (by omega)
    have top := getElem?_eq_getElem (l := tops) (i := round) (by omega)
    simp [proposers, now, Except.toOption, proposer _ top]
  refine ⟨fun val member => ?_, last, reached, fun val member => ?_⟩
  · obtain ⟨index, inside, found⟩ :=
      getElem_of_mem ((members _).mpr ⟨val, member, rfl⟩)
    have inRange : index ∈ Finset.range fresh.size := Finset.mem_range.mpr inside
    have address : fresh.addressAt index = some val.address := by simp [addressAt, inside, found]
    have power : fresh.power index = val.votingPower := by simp [ValidatorSet.power, inside, found]
    -- only one index has the address
    have counts : (tops.map fresh.addressAt).count (some val.address) = tops.count index := by
      rw [List.count, countP_map, List.count]
      apply countP_congr
      intro top served
      have topInside := Finset.mem_range.mp (schedule.served top served)
      simp only [Function.comp_apply, beq_iff_eq]
      constructor
      · intro same
        have addresses := formed.distinct
        rw [← address] at same
        simp only [addressAt, getElem?_eq_getElem topInside, getElem?_eq_getElem inside,
          Option.map_some, Option.some.injEq] at same
        have nodup := inj_on_of_nodup_map addresses (getElem_mem topInside)
          (getElem_mem inside) same
        exact (List.Nodup.of_map _ addresses).getElem_inj_iff.mp nodup
      · rintro rfl
        exact address
    rw [turns, counts, (cycle index inRange).1, power]
  · obtain ⟨index, inside, priorityIs, _⟩ := index_of_mem member
    rw [same.size] at inside
    rw [← priorityIs]
    exact (cycle index inside).2

theorem pair_proportional :
    let valz : List Validator := [⟨[1], ⟨.ed25519, [1]⟩, 2, 0⟩, ⟨[2], ⟨.ed25519, [2]⟩, 1, 0⟩]
    ∃ vals, new valz = .ok vals ∧
      (∀ val ∈ valz, ((vals.proposers 3).count (some val.address) : Int) = val.votingPower) ∧
      ∃ last, vals.ahead 2 = .ok last ∧ ∀ val ∈ last.validators, val.proposerPriority = 0 := by
  intro valz
  obtain ⟨makes, proportional⟩ :=
    proposers_proportional valz (by decide) (by decide) (by decide) 3 (by decide) (by decide)
  obtain ⟨vals, made⟩ := makes (by decide)
  exact ⟨vals, made, proportional vals made⟩

end New

end Tendermint.Types.ValidatorSet
