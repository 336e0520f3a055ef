import Tendermint.Types.ChangeSet

/-!
What `NewValidatorSet` makes: the validators of its list join an empty set at one
priority, the shift to the mean takes all of them to zero, and one increment
follows.
-/

namespace Tendermint.Types.ValidatorSet

open List
open Quorum (weight)

def maxInt32 : Int := 2 ^ 31 - 1

theorem limits : maxTotalVotingPower * 8 ≤ maxInt64 ∧ minInt64 ≤ -(maxTotalVotingPower * 8) := by
  decide

theorem joining_exact (updatedPower : Int) (nonneg : 0 ≤ updatedPower)
    (high : updatedPower ≤ 2 * maxTotalVotingPower) :
    Fits64 (updatedPower + updatedPower / 8) ∧ Fits64 (-(updatedPower + updatedPower / 8)) ∧
      int64 (-(int64 (updatedPower + updatedPower / 8))) = -(updatedPower + updatedPower / 8) := by
  have limit := limits
  have sum : Fits64 (updatedPower + updatedPower / 8) := by
    unfold Fits64
    omega
  have negated : Fits64 (-(updatedPower + updatedPower / 8)) := by
    unfold Fits64
    omega
  refine ⟨sum, negated, ?_⟩
  rw [int64_exact _ sum.1 sum.2, int64_exact _ negated.1 negated.2]

section Update

variable {vals : ValidatorSet} {changes : List Validator}

theorem updated_total_le (wellFormed : vals.WellFormed) (proper : ProperChanges changes) :
    0 ≤ vals.updatedTotal changes ∧ vals.updatedTotal changes ≤
      weight vals.power (Finset.range vals.size) +
        (vals.updatedTotal changes - vals.removedTotal changes) := by
  have room := split_room wellFormed proper
  have othersNonneg := powers_of_nonneg wellFormed (splitOf changes).updates
  have removedNonneg : 0 ≤ vals.removedTotal changes := removed_total_nonneg wellFormed
  have split : ((splitOf changes).updates.map fun update =>
      update.votingPower - vals.powerOf update.address).sum =
      ((splitOf changes).updates.map (·.votingPower)).sum -
        ((splitOf changes).updates.map fun update => vals.powerOf update.address).sum :=
    sum_map_sub _ _ _
  have raised : 0 ≤ ((splitOf changes).updates.map (·.votingPower)).sum := by
    apply sum_nonneg
    intro power member
    obtain ⟨update, listed, rfl⟩ := mem_map.mp member
    exact (update_powers proper update listed).1
  unfold updatedTotal
  omega

theorem updated_priority_cases (updatedPower : Int) (address : Address) :
    vals.updatedPriority updatedPower address =
        int64 (-(int64 (updatedPower + updatedPower / 8))) ∨
      ∃ val ∈ vals.validators, vals.updatedPriority updatedPower address =
        val.proposerPriority := by
  unfold updatedPriority
  cases found : vals.getByAddress address with
  | none => exact Or.inl rfl
  | some entry =>
    have here := (get_by_address_some vals found).1
    exact Or.inr ⟨entry.2, mem_of_getElem? here, rfl⟩

theorem Changed.priority_cases {changed : ValidatorSet} (made : Changed vals changes changed)
    (val : Validator) (member : val ∈ changed.validators) :
    val.proposerPriority = int64 (-(int64 (vals.updatedTotal changes +
        vals.updatedTotal changes / 8))) ∨
      ∃ old ∈ vals.validators, val.proposerPriority = old.proposerPriority := by
  rcases (made.mem val).mp member with ⟨update, _, _, rfl⟩ | ⟨present, _⟩
  · exact updated_priority_cases _ update.address
  · exact Or.inr ⟨val, present, rfl⟩

end Update

section New

theorem empty_well_formed : empty.WellFormed :=
  ⟨by simp [empty], by simp [empty], rfl, by decide⟩

theorem empty_total : weight empty.power (Finset.range empty.size) = 0 := by
  simp [weight, empty, size]

variable {valz : List Validator}

theorem Acceptable.with_deletes {vals : ValidatorSet} {allowDeletes : Bool}
    (acceptable : Acceptable vals valz allowDeletes) : Acceptable vals valz true :=
  { acceptable with allowed := Or.inl rfl }

variable (acceptable : Acceptable empty valz false)

include acceptable

theorem new_total : empty.updatedTotal valz - empty.removedTotal valz =
    (valz.map (·.votingPower)).sum := by
  have none : (splitOf valz).removals = [] := by
    rcases acceptable.allowed with impossible | none
    · cases impossible
    · exact none
  have all := ((split_perm acceptable.proper).map (·.votingPower)).sum_eq
  rw [none, append_nil] at all
  have own : ((splitOf valz).updates.map fun update =>
      update.votingPower - empty.powerOf update.address) =
      (splitOf valz).updates.map (·.votingPower) :=
    map_congr_left fun update _ => Int.sub_zero update.votingPower
  rw [updatedTotal, removedTotal, none, own, all, empty_total]
  simp

theorem new_level {changed : ValidatorSet} (made : Changed empty valz changed) (val : Validator)
    (member : val ∈ changed.validators) :
    val.proposerPriority = -(empty.updatedTotal valz + empty.updatedTotal valz / 8) := by
  have updated := updated_total_le empty_well_formed acceptable.proper
  have fits := acceptable.fits
  rw [empty_total] at updated
  rcases made.priority_cases val member with joins | ⟨old, present, _⟩
  · rw [joins, (joining_exact _ updated.1 (by omega)).2.2]
  · cases present

theorem new_recentres (present : valz ≠ []) : ∃ changed,
    Changed empty valz changed ∧ changed.WellFormed ∧ changed.validators ≠ [] ∧
    (∀ val ∈ changed.validators, Fits64 val.proposerPriority) ∧ SpreadWithin changed 0 ∧
    ∀ fresh, changed.recentred = .ok fresh → new valz = fresh.incrementProposerPriority 1 := by
  have allowing := acceptable.with_deletes
  obtain ⟨changed, made, spec, formed⟩ := changed_set_ok empty_well_formed allowing
  refine ⟨changed, spec, formed, spec.nonempty empty_well_formed allowing, ?_, ?_, ?_⟩
  · intro val member
    have updated := updated_total_le empty_well_formed acceptable.proper
    have fits := acceptable.fits
    rw [empty_total] at updated
    rw [new_level acceptable spec _ member]
    exact (joining_exact _ updated.1 (by omega)).2.1
  · intro first firstMember second secondMember
    rw [new_level acceptable spec _ firstMember, new_level acceptable spec _ secondMember]
    omega
  · intro fresh recentres
    have done := update_accepted empty_well_formed present acceptable made recentres
    simp [new, done, present]

theorem new_positive {listed : Validator} (member : listed ∈ valz) : 0 < listed.votingPower := by
  rcases acceptable.allowed with impossible | none
  · cases impossible
  · have low := (acceptable.proper.powers listed member).1
    by_contra notPositive
    have removal := (mem_removals valz listed).mpr ⟨member, by omega⟩
    rw [none] at removal
    cases removal

variable (present : valz ≠ [])

include present

theorem new_eq : ∃ fresh : ValidatorSet, fresh.WellFormed ∧ fresh.validators ≠ [] ∧
    (∀ val, val ∈ fresh.validators ↔ ∃ listed ∈ valz, val = { listed with proposerPriority := 0 }) ∧
    weight fresh.power (Finset.range fresh.size) = (valz.map (·.votingPower)).sum ∧
    new valz = fresh.incrementProposerPriorityOnce := by
  obtain ⟨changed, spec, formed, nonempty, range, narrow, eventually⟩ :=
    new_recentres acceptable present
  have small := (weight_fits changed formed (Finset.Subset.refl _)).2
  have positive := total_pos formed nonempty
  have limit := limits
  have close : SpreadWithin changed (2 * weight changed.power (Finset.range changed.size)) := by
    intro first firstMember second secondMember
    have apart := narrow first firstMember second secondMember
    omega
  obtain ⟨rescaled, normal, rescales, shifts, _, same, _, _, normalNarrow, between, centred,
    unscaled⟩ := normalises formed nonempty range narrow (by omega)
  -- everyone is at the mean
  have level := new_level acceptable spec
  have zero : ∀ val ∈ normal.validators, val.proposerPriority = 0 := by
    intro val member
    have mean := average_between nonempty fun val member =>
      ⟨(level val member).ge, (level val member).le⟩
    rw [unscaled close] at member
    obtain ⟨before, listed, priorityIs, _⟩ := mem_with_priorities _ val member
    rw [priorityIs, level before listed]
    omega
  have freshMem : ∀ val, val ∈ normal.byPower.validators ↔
      ∃ listed ∈ valz, val = { listed with proposerPriority := 0 } := by
    intro val
    rw [by_power_mem]
    constructor
    · intro member
      have priorityIs := zero val member
      rw [unscaled close, mem_with_priorities_iff] at member
      obtain ⟨before, listed, rfl⟩ := member
      rcases (spec.mem before).mp listed with ⟨update, inList, _, rfl⟩ | ⟨none, _⟩
      · exact ⟨update, inList, by rw [Validator.mk.injEq]; exact ⟨rfl, rfl, rfl, priorityIs⟩⟩
      · cases none
    · rintro ⟨listed, inList, rfl⟩
      have positive := new_positive acceptable inList
      have joined := (spec.mem _).mpr (Or.inl ⟨listed, inList, positive, rfl⟩)
      have moved := (mem_with_priorities_iff changed (fun val => val.proposerPriority -
        (changed.validators.map (·.proposerPriority)).sum / changed.size) _).mpr ⟨_, joined, rfl⟩
      rw [← unscaled close] at moved
      have priorityIs := zero _ moved
      dsimp only at priorityIs
      rw [priorityIs] at moved
      exact moved
  have freshNonempty : normal.byPower.validators ≠ [] := by
    obtain ⟨val, member⟩ := exists_mem_of_ne_nil _ (same.nonempty nonempty)
    exact ne_nil_of_mem ((by_power_mem normal val).mpr member)
  have freshFormed := by_power_well_formed (same.wellFormed formed)
  have total := spec.sum empty_well_formed acceptable.proper
  rw [new_total acceptable, sum_eq_weight, ← same.power, ← same.size, ← by_power_total] at total
  refine ⟨normal.byPower, freshFormed, freshNonempty, freshMem, total, ?_⟩
  rw [eventually _ (recentred_eq formed rescales shifts)]
  have level : ∀ val ∈ normal.byPower.validators, val.proposerPriority = 0 :=
    fun val member => zero val ((by_power_mem normal val).mp member)
  have together : SpreadWithin normal.byPower 0 := by
    intro first firstMember second secondMember
    rw [level first firstMember, level second secondMember]
    omega
  have freshPositive := total_pos freshFormed freshNonempty
  have freshSmall := (weight_fits normal.byPower freshFormed (Finset.Subset.refl _)).2
  obtain ⟨again, increments, _, _, _, _, unchanged⟩ :=
    increment_normalises freshFormed freshNonempty
    (fun val member => by rw [level val member]; decide) 0 together (by omega)
  rw [increments 1 (by decide), unchanged (fun first firstMember second secondMember => by
    have apart := together first firstMember second secondMember
    omega) (by_power_centred centred)]
  exact bind_pure _

end New

theorem new_accepts {valz : List Validator} {vals : ValidatorSet} (present : valz ≠ [])
    (made : new valz = .ok vals) : Acceptable empty valz false := by
  by_contra unacceptable
  obtain ⟨error, refused⟩ := update_refused empty_well_formed present unacceptable
  simp [new, refused] at made

end Tendermint.Types.ValidatorSet
