import Tendermint.Types.Priorities

/-!
`UpdateWithChangeSet`: what its checks accept, and the set it then makes. The
changes are sorted by address and split into updates and removals, checked
against the set, merged with the sorted validators, rescaled, centred and sorted
by power again.
-/

namespace Tendermint.Types

open List
open Quorum (weight)

section Sorting

def AddressSorted (validators : List Validator) : Prop :=
  validators.Pairwise fun first second => addressKey first.address < addressKey second.address

theorem sort_by_perm (less : Validator → Validator → Bool) (validators : List Validator) :
    (sortBy less validators).Perm validators :=
  perm_insertionSort _ _

theorem sort_by_pairwise {κ : Type} [LinearOrder κ] {less : Validator → Validator → Bool}
    {key : Validator → κ}
    (order : ∀ first second, less second first = false ↔ key first ≤ key second)
    (validators : List Validator) :
    (sortBy less validators).Pairwise fun first second => key first ≤ key second := by
  have total : Std.Total fun first second : Validator => less second first = false :=
    ⟨fun first second => by simpa only [order] using le_total (key first) (key second)⟩
  have trans : IsTrans Validator fun first second => less second first = false :=
    ⟨fun first second third => by simpa only [order] using le_trans⟩
  exact (pairwise_insertionSort _ validators).imp fun {first second} sorted =>
    (order first second).mp sorted

theorem less_by_address_iff (first second : Validator) :
    second.lessByAddress first = false ↔ addressKey first.address ≤ addressKey second.address := by
  rw [Validator.lessByAddress, beq_eq_false_iff_ne, Ne, compare_bytes_lt_iff, not_lt]

def powerKey (val : Validator) : Int ×ₗ List Nat := toLex (-val.votingPower, addressKey val.address)

theorem less_by_voting_power_iff (first second : Validator) :
    second.lessByVotingPower first = false ↔ powerKey first ≤ powerKey second := by
  unfold Validator.lessByVotingPower powerKey
  rw [Prod.Lex.toLex_le_toLex]
  split
  case isTrue same =>
    rw [beq_eq_false_iff_ne, Ne, compare_bytes_lt_iff, not_lt, same]
    simp
  case isFalse different =>
    rw [decide_eq_false_iff_not]
    constructor
    · intro notLess
      exact Or.inl (by omega)
    · rintro (less | ⟨same, _⟩) <;> omega

theorem address_sorted_nodup {validators : List Validator} (sorted : AddressSorted validators) :
    (validators.map (·.address)).Nodup := by
  rw [List.Nodup, pairwise_map]
  refine sorted.imp ?_
  intro first second less same
  rw [same] at less
  exact lt_irrefl _ less

theorem sort_by_address_sorted {validators : List Validator}
    (distinct : (validators.map (·.address)).Nodup) :
    AddressSorted (sortBy Validator.lessByAddress validators) := by
  have sorted := sort_by_pairwise less_by_address_iff validators
  have perm := (sort_by_perm Validator.lessByAddress validators).map (·.address)
  have apart := pairwise_map.mp (perm.nodup_iff.mpr distinct)
  refine (sorted.and apart).imp ?_
  rintro first second ⟨order, different⟩
  exact lt_of_le_of_ne order fun same => different (address_key_injective same)

end Sorting

namespace ValidatorSet

section Split

/-- What the scan of the changes accepts: distinct addresses that are not empty,
and powers that are not negative nor above the limit. -/
structure ProperChanges (changes : List Validator) : Prop where
  named : ∀ change ∈ changes, change.address ≠ []
  distinct : (changes.map (·.address)).Nodup
  powers : ∀ change ∈ changes, 0 ≤ change.votingPower ∧ change.votingPower ≤ maxTotalVotingPower

def ScanAccepts : Address → List Validator → Prop
  | _, [] => True
  | prevAddr, val :: rest =>
    val.address ≠ prevAddr ∧ (0 ≤ val.votingPower ∧ val.votingPower ≤ maxTotalVotingPower) ∧
      ScanAccepts val.address rest

def splitOf (changes : List Validator) : Changes :=
  let sorted := sortBy Validator.lessByAddress changes
  ⟨sorted.filter fun val => 0 < val.votingPower, sorted.filter fun val => val.votingPower = 0⟩

theorem scan_changes_ok (all : List Validator) (rest : List Validator) (prevAddr : Address)
    (sorted : Changes) (accepts : ScanAccepts prevAddr rest) :
    scanChanges all prevAddr sorted rest =
      (.ok (.ok ⟨sorted.updates ++ rest.filter fun val => 0 < val.votingPower,
        sorted.removals ++ rest.filter fun val => val.votingPower = 0⟩) : Panics _) := by
  induction rest generalizing prevAddr sorted with
  | nil => simp [scanChanges, pure, ExceptT.pure, ExceptT.mk, Except.pure]
  | cons val rest ih =>
  obtain ⟨other, ⟨low, high⟩, later⟩ := accepts
  unfold scanChanges
  rw [if_neg other, if_neg (by omega), if_neg (by omega)]
  by_cases zero : val.votingPower = 0
  · rw [if_pos zero, ih _ _ later]
    simp [zero]
  · have positive : 0 < val.votingPower := by omega
    rw [if_neg zero, ih _ _ later]
    simp [zero, positive]

theorem scan_changes_refuses (all : List Validator) (rest : List Validator) (prevAddr : Address)
    (sorted : Changes) (refuses : ¬ ScanAccepts prevAddr rest) :
    ∃ error, scanChanges all prevAddr sorted rest = (.ok (.error error) : Panics _) := by
  induction rest generalizing prevAddr sorted with
  | nil => exact absurd trivial refuses
  | cons val rest ih =>
  unfold scanChanges
  split
  · exact ⟨_, rfl⟩
  split
  · exact ⟨_, rfl⟩
  split
  · exact ⟨_, rfl⟩
  rename_i other low high
  have later : ¬ ScanAccepts val.address rest := fun accepts =>
    refuses ⟨other, ⟨by omega, by omega⟩, accepts⟩
  split
  · exact ih _ _ later
  · exact ih _ _ later

theorem scan_accepts_iff (rest : List Validator) (prevAddr : Address)
    (sorted : rest.Pairwise fun first second =>
      addressKey first.address ≤ addressKey second.address)
    (after : ∀ val ∈ rest, addressKey prevAddr ≤ addressKey val.address) :
    ScanAccepts prevAddr rest ↔
      (∀ val ∈ rest, val.address ≠ prevAddr) ∧ (rest.map (·.address)).Nodup ∧
      ∀ val ∈ rest, 0 ≤ val.votingPower ∧ val.votingPower ≤ maxTotalVotingPower := by
  induction rest generalizing prevAddr with
  | nil => simp [ScanAccepts]
  | cons val rest ih =>
  obtain ⟨first, later⟩ := pairwise_cons.mp sorted
  rw [ScanAccepts, ih val.address later first]
  simp only [mem_cons, forall_eq_or_imp, map_cons, nodup_cons, mem_map, not_exists, not_and]
  constructor
  · rintro ⟨other, powers, fresh, distinct, restPowers⟩
    refine ⟨⟨other, ?_⟩, ⟨fun next member => fresh next member, distinct⟩, powers, restPowers⟩
    -- what comes back to the previous address would have to be below this one
    intro next member same
    have order := first next member
    rw [same] at order
    have equal := le_antisymm (after val mem_cons_self) order
    exact other (address_key_injective equal).symm
  · rintro ⟨⟨other, _⟩, ⟨fresh, distinct⟩, powers, restPowers⟩
    exact ⟨other, powers, fun next member => fresh next member, distinct, restPowers⟩

section

variable (changes : List Validator)

theorem scan_accepts_sorted_iff :
    ScanAccepts [] (sortBy Validator.lessByAddress changes) ↔ ProperChanges changes := by
  have perm := sort_by_perm Validator.lessByAddress changes
  rw [scan_accepts_iff _ _ (sort_by_pairwise
    less_by_address_iff changes) (fun val _ => not_lt.mp (by simp [addressKey]))]
  rw [(perm.map _).nodup_iff]
  simp only [perm.mem_iff]
  constructor
  · rintro ⟨named, distinct, powers⟩
    exact ⟨named, distinct, powers⟩
  · intro proper
    exact ⟨proper.named, proper.distinct, proper.powers⟩

theorem process_changes_ok (proper : ProperChanges changes) :
    processChanges changes = (.ok (.ok (splitOf changes)) : Panics _) := by
  have done := scan_changes_ok (sortBy Validator.lessByAddress changes) _ [] ⟨[], []⟩
    ((scan_accepts_sorted_iff changes).mpr proper)
  simpa [processChanges, splitOf] using done

theorem process_changes_refuses (improper : ¬ ProperChanges changes) :
    ∃ error, processChanges changes = (.ok (.error error) : Panics _) :=
  scan_changes_refuses _ _ _ _ (mt (scan_accepts_sorted_iff changes).mp improper)

theorem mem_updates (val : Validator) :
    val ∈ (splitOf changes).updates ↔ val ∈ changes ∧ 0 < val.votingPower := by
  simp [splitOf, (sort_by_perm Validator.lessByAddress changes).mem_iff]

theorem mem_removals (val : Validator) :
    val ∈ (splitOf changes).removals ↔ val ∈ changes ∧ val.votingPower = 0 := by
  simp [splitOf, (sort_by_perm Validator.lessByAddress changes).mem_iff]

end

variable {changes : List Validator} (proper : ProperChanges changes)

include proper

theorem updates_sorted : AddressSorted (splitOf changes).updates :=
  (sort_by_address_sorted proper.distinct).filter _

theorem removals_sorted : AddressSorted (splitOf changes).removals :=
  (sort_by_address_sorted proper.distinct).filter _

theorem split_disjoint : ∀ update ∈ (splitOf changes).updates,
    ∀ removal ∈ (splitOf changes).removals, update.address ≠ removal.address := by
  intro update updateMember removal removalMember same
  obtain ⟨updated, positive⟩ := (mem_updates changes update).mp updateMember
  obtain ⟨removed, zero⟩ := (mem_removals changes removal).mp removalMember
  have equal := inj_on_of_nodup_map proper.distinct updated removed same
  rw [equal] at positive
  omega

end Split

section Lookup

variable (vals : ValidatorSet)

theorem get_by_address_none (address : Address) :
    vals.getByAddress address = none ↔ ∀ val ∈ vals.validators, val.address ≠ address := by
  rw [getByAddress, Option.map_eq_none_iff, find?_eq_none]
  constructor
  · intro missing val member same
    obtain ⟨index, inside, rfl⟩ := getElem_of_mem member
    have listed : (vals.validators[index], index) ∈ vals.validators.zipIdx :=
      mem_zipIdx_iff_getElem?.mpr (getElem?_eq_getElem inside)
    exact missing _ listed (by simpa using same)
  · intro missing entry member found
    have listed := mem_zipIdx_iff_getElem?.mp member
    exact missing entry.1 (mem_of_getElem? listed) (by simpa using found)

theorem get_by_address_mem (distinct : (vals.validators.map (·.address)).Nodup) {val : Validator}
    (member : val ∈ vals.validators) :
    ∃ index, vals.getByAddress val.address = some (index, val) := by
  obtain ⟨index, inside, rfl⟩ := getElem_of_mem member
  exact ⟨index, get_by_address_distinct vals distinct index (getElem?_eq_getElem inside)⟩

def powerOf (address : Address) : Int :=
  ((vals.getByAddress address).map (·.2.votingPower)).getD 0

variable {vals} (wellFormed : vals.WellFormed)

include wellFormed

theorem power_of_mem (val : Validator) (member : val ∈ vals.validators) :
    vals.powerOf val.address = val.votingPower := by
  obtain ⟨index, found⟩ := get_by_address_mem vals wellFormed.distinct member
  rw [powerOf, found]
  rfl

theorem power_of_nonneg (address : Address) : 0 ≤ vals.powerOf address := by
  unfold powerOf
  cases found : vals.getByAddress address with
  | none => exact Int.le_refl 0
  | some entry =>
    have here := (get_by_address_some vals found).1
    exact (wellFormed.positive entry.2 (mem_of_getElem? here)).le

theorem powers_of_nonneg (validators : List Validator) :
    0 ≤ (validators.map fun val => vals.powerOf val.address).sum := by
  apply sum_nonneg
  intro power member
  obtain ⟨val, _, rfl⟩ := mem_map.mp member
  exact power_of_nonneg wellFormed val.address

theorem power_of_sum_eq {addresses : List Address} (distinct : addresses.Nodup) :
    (addresses.map vals.powerOf).sum =
      ((vals.validators.filter fun val => val.address ∈ addresses).map (·.votingPower)).sum := by
  have own : (vals.validators.filter fun val => val.address ∈ addresses).map (·.votingPower) =
      ((vals.validators.filter fun val => val.address ∈ addresses).map (·.address)).map
        vals.powerOf := by
    rw [map_map]
    exact map_congr_left fun val member =>
      (power_of_mem wellFormed val (mem_filter.mp member).1).symm
  have found : ((vals.validators.filter fun val => val.address ∈ addresses).map
      (·.address)).Nodup :=
    wellFormed.distinct.sublist (filter_sublist.map _)
  rw [own, ← sum_toFinset _ distinct, ← sum_toFinset _ found]
  refine (Finset.sum_subset ?_ ?_).symm
  · intro address member
    obtain ⟨val, listed, rfl⟩ := mem_map.mp (mem_toFinset.mp member)
    exact mem_toFinset.mpr (by simpa using (mem_filter.mp listed).2)
  · -- an address of no validator has no power
    intro address member outside
    have missing : vals.getByAddress address = none := by
      rw [get_by_address_none]
      intro val present same
      apply outside
      rw [mem_toFinset, mem_map]
      exact ⟨val, mem_filter.mpr ⟨present, by simpa [same] using member⟩, same⟩
    rw [powerOf, missing]
    rfl

omit wellFormed in
variable (vals) in
theorem power_split (keep : Validator → Bool) :
    ((vals.validators.filter keep).map (·.votingPower)).sum +
      ((vals.validators.filter fun val => !keep val).map (·.votingPower)).sum =
      weight vals.power (Finset.range vals.size) := by
  rw [← sum_eq_weight, ← sum_append, ← map_append]
  exact ((filter_append_perm keep vals.validators).map _).sum_eq

theorem power_of_sum_le (addresses : List Address) (distinct : addresses.Nodup) :
    (addresses.map vals.powerOf).sum ≤ (vals.validators.map (·.votingPower)).sum := by
  have split := power_split vals fun val => decide (val.address ∈ addresses)
  have others : 0 ≤ ((vals.validators.filter fun val =>
      !decide (val.address ∈ addresses)).map (·.votingPower)).sum := by
    apply sum_nonneg
    intro power member
    obtain ⟨val, listed, rfl⟩ := mem_map.mp member
    exact (wellFormed.positive val (mem_filter.mp listed).1).le
  rw [power_of_sum_eq wellFormed distinct, sum_eq_weight]
  omega

theorem power_of_le (address : Address) : vals.powerOf address ≤ maxTotalVotingPower := by
  have alone := power_of_sum_le wellFormed [address] (nodup_singleton address)
  simp only [map_cons, map_nil, sum_cons, sum_nil, add_zero] at alone
  exact Int.le_trans alone wellFormed.bounded

end Lookup

section Checks

variable {vals : ValidatorSet} (wellFormed : vals.WellFormed)

def Known (vals : ValidatorSet) (deletes : List Validator) : Prop :=
  ∀ delete ∈ deletes, ∃ val ∈ vals.validators, val.address = delete.address

include wellFormed

theorem removed_power_ok {deletes : List Validator} (removed : Int) (nonneg : 0 ≤ removed)
    (known : Known vals deletes)
    (fits : removed + (deletes.map fun delete => vals.powerOf delete.address).sum ≤ maxInt64) :
    removedPower vals removed deletes =
      (.ok (.ok (removed + (deletes.map fun delete => vals.powerOf delete.address).sum)) :
        Panics _) := by
  induction deletes generalizing removed with
  | nil => simp [removedPower, pure, ExceptT.pure, ExceptT.mk, Except.pure]
  | cons delete rest ih =>
  obtain ⟨val, member, same⟩ := known delete mem_cons_self
  obtain ⟨index, found⟩ := get_by_address_mem vals wellFormed.distinct member
  have power := power_of_mem wellFormed val member
  rw [same] at found power
  rw [map_cons, sum_cons] at fits ⊢
  have restNonneg : 0 ≤ (rest.map fun delete => vals.powerOf delete.address).sum :=
    powers_of_nonneg wellFormed rest
  have own := power_of_nonneg wellFormed delete.address
  have exact : int64 (removed + val.votingPower) = removed + vals.powerOf delete.address := by
    rw [power]
    exact int64_exact _ (by unfold minInt64; omega) (by omega)
  unfold removedPower
  simp only [found, exact]
  rw [ih _ (by omega) (fun other later => known other (mem_cons_of_mem _ later))
    (by omega), Int.add_assoc]

omit wellFormed in
theorem removed_power_refuses {deletes : List Validator} (removed : Int)
    (unknown : ¬ Known vals deletes) :
    ∃ error, removedPower vals removed deletes = (.ok (.error error) : Panics _) := by
  induction deletes generalizing removed with
  | nil => exact absurd (by simp [Known]) unknown
  | cons delete rest ih =>
  unfold removedPower
  cases found : vals.getByAddress delete.address with
  | none => exact ⟨_, rfl⟩
  | some entry =>
  apply ih
  intro knownRest
  obtain ⟨here, same⟩ := get_by_address_some vals found
  apply unknown
  intro other member
  rcases mem_cons.mp member with rfl | later
  · exact ⟨entry.2, mem_of_getElem? here, same⟩
  · exact knownRest other later

theorem verify_removals_ok (deletes : List Validator)
    (distinct : (deletes.map (·.address)).Nodup) (known : Known vals deletes) :
    verifyRemovals deletes vals =
      (.ok (.ok (deletes.map fun delete => vals.powerOf delete.address).sum) : Panics _) := by
  have within := power_of_sum_le wellFormed _ distinct
  rw [map_map] at within
  have limit : maxTotalVotingPower ≤ maxInt64 := by decide
  have bounded := wellFormed.bounded
  have removed := removed_power_ok wellFormed 0 (Int.le_refl 0) known (by
    simp only [Function.comp_def] at within
    omega)
  have fewer : deletes.length ≤ vals.size := by
    have subset : deletes.map (·.address) ⊆ vals.validators.map (·.address) := by
      intro address member
      obtain ⟨delete, listed, rfl⟩ := mem_map.mp member
      obtain ⟨val, present, same⟩ := known delete listed
      exact same ▸ mem_map_of_mem present
    simpa [size] using (distinct.subperm subset).length_le
  unfold verifyRemovals
  simp [removed, Nat.not_lt.mpr fewer, bind, ExceptT.bind, ExceptT.mk, ExceptT.bindCont,
    Except.bind, pure, ExceptT.pure, Except.pure]

omit wellFormed in
theorem verify_removals_refuses (deletes : List Validator) (unknown : ¬ Known vals deletes) :
    ∃ error, verifyRemovals deletes vals = (.ok (.error error) : Panics _) := by
  obtain ⟨error, refused⟩ := removed_power_refuses 0 unknown
  refine ⟨error, ?_⟩
  unfold verifyRemovals
  simp [refused, bind, ExceptT.bind, ExceptT.mk, ExceptT.bindCont, Except.bind, pure, Except.pure]

theorem power_delta_eq {update : Validator}
    (power : 0 ≤ update.votingPower ∧ update.votingPower ≤ maxTotalVotingPower) :
    vals.powerDelta update = update.votingPower - vals.powerOf update.address := by
  have nonneg := power_of_nonneg wellFormed update.address
  have bounded := power_of_le wellFormed update.address
  have limit : maxTotalVotingPower ≤ maxInt64 := by decide
  unfold powerDelta
  cases found : vals.getByAddress update.address with
  | none => simp [powerOf, found]
  | some entry =>
    have own : vals.powerOf update.address = entry.2.votingPower := by simp [powerOf, found]
    rw [own] at nonneg bounded ⊢
    exact int64_exact _ (by unfold minInt64; unfold maxInt64 at limit; omega) (by omega)

section

variable (updates : List Validator) (tvp : Int)
  (powers : ∀ update ∈ updates, 0 ≤ update.votingPower ∧ update.votingPower ≤ maxTotalVotingPower)

include powers

/-- The sum stays above the powers that the rest can take away, and the limit is passed on the
way only if it is passed at the end. -/
theorem add_deltas_eq
    (sorted : updates.Pairwise fun first second => vals.powerDelta first ≤ vals.powerDelta second)
    (room : (updates.map fun update => vals.powerOf update.address).sum ≤ tvp)
    (high : tvp ≤ maxTotalVotingPower) :
    addDeltas vals tvp updates = (.ok (if tvp + (updates.map fun update =>
        update.votingPower - vals.powerOf update.address).sum ≤ maxTotalVotingPower
      then .ok (tvp + (updates.map fun update =>
        update.votingPower - vals.powerOf update.address).sum)
      else .error .totalVotingPowerOverflow) : Panics _) := by
  induction updates generalizing tvp with
  | nil => simp [addDeltas, high, pure, ExceptT.pure, ExceptT.mk, Except.pure]
  | cons update rest ih =>
  obtain ⟨least, later⟩ := pairwise_cons.mp sorted
  have own := powers update mem_cons_self
  have restPowers := fun other member => powers other (mem_cons_of_mem _ member)
  have delta := power_delta_eq wellFormed own
  rw [map_cons, sum_cons] at room ⊢
  have restNonneg : 0 ≤ (rest.map fun update => vals.powerOf update.address).sum :=
    powers_of_nonneg wellFormed rest
  have nonneg := power_of_nonneg wellFormed update.address
  have limit : maxTotalVotingPower * 2 ≤ maxInt64 := by decide
  have exact : int64 (tvp + vals.powerDelta update) =
      tvp + (update.votingPower - vals.powerOf update.address) := by
    rw [delta]
    exact int64_exact _ (by unfold minInt64; omega) (by omega)
  unfold addDeltas
  simp only [exact]
  by_cases now : maxTotalVotingPower < tvp + (update.votingPower - vals.powerOf update.address)
  · -- once a change adds power, all the later ones do
    have rising : 0 ≤ (rest.map fun update =>
        update.votingPower - vals.powerOf update.address).sum := by
      apply sum_nonneg
      intro change member
      obtain ⟨other, listed, rfl⟩ := mem_map.mp member
      have order := least other listed
      rw [delta, power_delta_eq wellFormed (restPowers other listed)] at order
      omega
    rw [if_pos now, if_neg (by omega)]
    rfl
  · rw [if_neg now, ih _ restPowers later (by omega) (by omega), Int.add_assoc]

end

section Updates

variable (updates : List Validator) (removed : Int) (nonneg : 0 ≤ removed)
  (powers : ∀ update ∈ updates, 0 ≤ update.votingPower ∧ update.votingPower ≤ maxTotalVotingPower)
  (room : (updates.map fun update => vals.powerOf update.address).sum + removed ≤
    weight vals.power (Finset.range vals.size))

include nonneg powers room

theorem verify_updates_eq :
    verifyUpdates updates vals removed =
      (.ok (if weight vals.power (Finset.range vals.size) - removed + (updates.map fun update =>
          update.votingPower - vals.powerOf update.address).sum ≤ maxTotalVotingPower
        then .ok (weight vals.power (Finset.range vals.size) + (updates.map fun update =>
          update.votingPower - vals.powerOf update.address).sum)
        else .error .totalVotingPowerOverflow) : Panics _) := by
  have total := total_voting_power_eq vals wellFormed
  have small := (weight_fits vals wellFormed (Finset.Subset.refl _)).2
  have limit : maxTotalVotingPower * 2 ≤ maxInt64 := by decide
  have othersNonneg := powers_of_nonneg wellFormed updates
  have perm := perm_insertionSort
    (fun first second => vals.powerDelta first ≤ vals.powerDelta second) updates
  have start : int64 (weight vals.power (Finset.range vals.size) - removed) =
      weight vals.power (Finset.range vals.size) - removed :=
    int64_exact _ (by unfold minInt64; omega) (by omega)
  have added := add_deltas_eq wellFormed _ (weight vals.power (Finset.range vals.size) - removed)
    (fun update member => powers update (perm.mem_iff.mp member))
    (pairwise_insertionSort _ updates)
    (by rw [(perm.map _).sum_eq]; omega) (by omega)
  rw [(perm.map _).sum_eq] at added
  unfold verifyUpdates
  by_cases fits : weight vals.power (Finset.range vals.size) - removed + (updates.map fun update =>
      update.votingPower - vals.powerOf update.address).sum ≤ maxTotalVotingPower
  · have below : -(updates.map fun update => vals.powerOf update.address).sum ≤
        (updates.map fun update => update.votingPower - vals.powerOf update.address).sum := by
      have split : (updates.map fun update =>
          update.votingPower - vals.powerOf update.address).sum =
          (updates.map (·.votingPower)).sum -
            (updates.map fun update => vals.powerOf update.address).sum :=
        sum_map_sub _ _ _
      have raised : 0 ≤ (updates.map (·.votingPower)).sum := by
        apply sum_nonneg
        intro power member
        obtain ⟨update, listed, rfl⟩ := mem_map.mp member
        exact (powers update listed).1
      omega
    have finish : int64 (weight vals.power (Finset.range vals.size) - removed +
        (updates.map fun update => update.votingPower - vals.powerOf update.address).sum +
          removed) =
        weight vals.power (Finset.range vals.size) + (updates.map fun update =>
          update.votingPower - vals.powerOf update.address).sum := by
      rw [int64_exact _ (by unfold minInt64; omega) (by omega)]
      ring
    simp [total, start, added, fits, finish, bind, ExceptT.bind, ExceptT.mk, ExceptT.bindCont,
      Except.bind, pure, ExceptT.pure, Except.pure, liftM, monadLift, MonadLift.monadLift,
      ExceptT.lift, Functor.map, Except.map]
  · simp [total, start, added, fits, bind, ExceptT.bind, ExceptT.mk, ExceptT.bindCont, Except.bind,
      pure, Except.pure, liftM, monadLift, MonadLift.monadLift, ExceptT.lift, Functor.map,
      Except.map]

end Updates

end Checks

section Check

def updatedTotal (vals : ValidatorSet) (changes : List Validator) : Int :=
  weight vals.power (Finset.range vals.size) + ((splitOf changes).updates.map fun update =>
    update.votingPower - vals.powerOf update.address).sum

def removedTotal (vals : ValidatorSet) (changes : List Validator) : Int :=
  ((splitOf changes).removals.map fun delete => vals.powerOf delete.address).sum

structure Acceptable (vals : ValidatorSet) (changes : List Validator) (allowDeletes : Bool) :
    Prop where
  proper : ProperChanges changes
  allowed : allowDeletes = true ∨ (splitOf changes).removals = []
  remains : ¬ (numNewValidators (splitOf changes).updates vals = 0 ∧
    vals.size = (splitOf changes).removals.length)
  known : Known vals (splitOf changes).removals
  fits : vals.updatedTotal changes - vals.removedTotal changes ≤ maxTotalVotingPower

variable {vals : ValidatorSet} (wellFormed : vals.WellFormed) {changes : List Validator}
  (proper : ProperChanges changes)

include proper

theorem update_powers : ∀ update ∈ (splitOf changes).updates,
    0 ≤ update.votingPower ∧ update.votingPower ≤ maxTotalVotingPower :=
  fun update member => proper.powers update ((mem_updates changes update).mp member).1

include wellFormed

theorem split_room : ((splitOf changes).updates.map fun update =>
    vals.powerOf update.address).sum + vals.removedTotal changes ≤
      weight vals.power (Finset.range vals.size) := by
  have distinct : (((splitOf changes).updates ++ (splitOf changes).removals).map
      (·.address)).Nodup := by
    rw [map_append, nodup_append]
    refine ⟨address_sorted_nodup (updates_sorted proper),
      address_sorted_nodup (removals_sorted proper), ?_⟩
    intro address updated other removed
    obtain ⟨update, updateMember, rfl⟩ := mem_map.mp updated
    obtain ⟨removal, removalMember, rfl⟩ := mem_map.mp removed
    exact split_disjoint proper update updateMember removal removalMember
  have within := power_of_sum_le wellFormed _ distinct
  rw [map_map, map_append, sum_append, sum_eq_weight] at within
  exact within

omit proper in
theorem removed_total_nonneg : 0 ≤ vals.removedTotal changes :=
  powers_of_nonneg wellFormed _

omit proper in
theorem check_changes_ok {allowDeletes : Bool} (acceptable : Acceptable vals changes allowDeletes) :
    vals.checkChanges changes allowDeletes =
      (.ok (.ok (splitOf changes, vals.updatedTotal changes)) : Panics _) := by
  have proper := acceptable.proper
  have processed := process_changes_ok changes proper
  have removals := verify_removals_ok wellFormed _
    (address_sorted_nodup (removals_sorted proper)) acceptable.known
  have updates := verify_updates_eq wellFormed (splitOf changes).updates
    (vals.removedTotal changes) (removed_total_nonneg wellFormed) (update_powers proper)
    (split_room wellFormed proper)
  rw [if_pos (by have fits := acceptable.fits; unfold updatedTotal at fits; omega)] at updates
  have allowed : (!allowDeletes && !(splitOf changes).removals.isEmpty) = false := by
    rcases acceptable.allowed with yes | none
    · simp [yes]
    · simp [none]
  unfold removedTotal at updates
  unfold checkChanges
  simp [processed, allowed, acceptable.remains, removals, updates, updatedTotal, bind,
    ExceptT.bind, ExceptT.mk, ExceptT.bindCont, Except.bind, pure, ExceptT.pure, Except.pure]

omit proper in
theorem check_changes_refuses {allowDeletes : Bool}
    (unacceptable : ¬ Acceptable vals changes allowDeletes) :
    ∃ error, vals.checkChanges changes allowDeletes = (.ok (.error error) : Panics _) := by
  unfold checkChanges
  by_cases proper : ProperChanges changes
  case neg =>
    obtain ⟨error, refused⟩ := process_changes_refuses changes proper
    exact ⟨error, by simp [refused, bind, ExceptT.bind, ExceptT.mk, ExceptT.bindCont, Except.bind,
      pure, Except.pure]⟩
  have processed := process_changes_ok changes proper
  by_cases forbidden : (!allowDeletes && !(splitOf changes).removals.isEmpty) = true
  · exact ⟨_, by simp [processed, forbidden, bind, ExceptT.bind, ExceptT.mk, ExceptT.bindCont,
      Except.bind, throw, throwThe, MonadExceptOf.throw, pure, Except.pure]; rfl⟩
  by_cases emptied : numNewValidators (splitOf changes).updates vals = 0 ∧
      vals.size = (splitOf changes).removals.length
  · exact ⟨_, by simp [processed, forbidden, emptied, bind, ExceptT.bind, ExceptT.mk,
      ExceptT.bindCont, Except.bind, throw, throwThe, MonadExceptOf.throw, pure,
      Except.pure]; rfl⟩
  by_cases known : Known vals (splitOf changes).removals
  case neg =>
    obtain ⟨error, refused⟩ := verify_removals_refuses _ known
    exact ⟨error, by simp [processed, forbidden, emptied, refused, bind, ExceptT.bind, ExceptT.mk,
      ExceptT.bindCont, Except.bind, pure, Except.pure]⟩
  have removals := verify_removals_ok wellFormed _
    (address_sorted_nodup (removals_sorted proper)) known
  have allowed : allowDeletes = true ∨ (splitOf changes).removals = [] := by
    simpa [Bool.and_eq_true, imp_iff_not_or] using forbidden
  have above : maxTotalVotingPower <
      vals.updatedTotal changes - vals.removedTotal changes :=
    Int.not_le.mp fun fits => unacceptable ⟨proper, allowed, emptied, known, fits⟩
  have refused := verify_updates_eq wellFormed (splitOf changes).updates
    (vals.removedTotal changes) (removed_total_nonneg wellFormed) (update_powers proper)
    (split_room wellFormed proper)
  rw [if_neg (by unfold updatedTotal at above; omega)] at refused
  unfold removedTotal at refused
  exact ⟨.totalVotingPowerOverflow, by simp [processed, forbidden, emptied, removals, refused,
    bind, ExceptT.bind, ExceptT.mk, ExceptT.bindCont, Except.bind, pure, Except.pure]⟩

end Check

section Merge

/-- The updates and the validators whose addresses they do not have, in order. -/
structure Merged (existing updates result : List Validator) : Prop where
  sorted : AddressSorted result
  mem : ∀ val, val ∈ result ↔ val ∈ updates ∨
    val ∈ existing ∧ ∀ update ∈ updates, update.address ≠ val.address

theorem ne_of_key_lt {first second : Address} (less : addressKey first < addressKey second) :
    first ≠ second := by
  rintro rfl
  exact lt_irrefl _ less

theorem merge_into_spec {current : Validator} {later : List Validator}
    (mergeLater : List Validator → List Validator) (existing : AddressSorted (current :: later))
    (laterMerged : ∀ updates, AddressSorted updates → Merged later updates (mergeLater updates))
    {updates : List Validator} (sorted : AddressSorted updates) :
    Merged (current :: later) updates (mergeInto current later mergeLater updates) := by
  obtain ⟨currentFirst, laterSorted⟩ := pairwise_cons.mp existing
  induction updates with
  | nil => exact ⟨existing, by simp [mergeInto]⟩
  | cons update updates ih =>
  obtain ⟨updateFirst, updatesSorted⟩ := pairwise_cons.mp sorted
  unfold mergeInto
  cases order : compareBytes current.address update.address with
  | lt =>
    have less := (compare_bytes_lt_iff _ _).mp order
    have rest := laterMerged (update :: updates) sorted
    have after : ∀ other ∈ update :: updates,
        addressKey current.address < addressKey other.address := by
      rintro other member
      rcases mem_cons.mp member with rfl | inUpdates
      · exact less
      · exact lt_trans less (updateFirst other inUpdates)
    refine ⟨pairwise_cons.mpr ⟨?_, rest.sorted⟩, ?_⟩
    · intro other member
      rcases (rest.mem other).mp member with updated | ⟨kept, _⟩
      · exact after other updated
      · exact currentFirst other kept
    · intro val
      rw [mem_cons, rest.mem, mem_cons (b := current)]
      constructor
      · rintro (rfl | updated | ⟨kept, fresh⟩)
        · exact Or.inr ⟨Or.inl rfl, fun other member =>
            (ne_of_key_lt (after other member)).symm⟩
        · exact Or.inl updated
        · exact Or.inr ⟨Or.inr kept, fresh⟩
      · rintro (updated | ⟨rfl | kept, fresh⟩)
        · exact Or.inr (Or.inl updated)
        · exact Or.inl rfl
        · exact Or.inr (Or.inr ⟨kept, fresh⟩)
  | eq =>
    have same := compare_bytes_eq order
    have rest := laterMerged updates updatesSorted
    refine ⟨pairwise_cons.mpr ⟨?_, rest.sorted⟩, ?_⟩
    · intro other member
      rcases (rest.mem other).mp member with updated | ⟨kept, _⟩
      · exact updateFirst other updated
      · exact same ▸ currentFirst other kept
    · intro val
      rw [mem_cons, rest.mem]
      simp only [mem_cons, forall_eq_or_imp]
      constructor
      · rintro (rfl | updated | ⟨kept, fresh⟩)
        · exact Or.inl (Or.inl rfl)
        · exact Or.inl (Or.inr updated)
        · exact Or.inr ⟨Or.inr kept,
            same ▸ ne_of_key_lt (currentFirst val kept), fresh⟩
      · rintro ((rfl | updated) | ⟨rfl | kept, other, fresh⟩)
        · exact Or.inl rfl
        · exact Or.inr (Or.inl updated)
        · exact absurd same.symm other
        · exact Or.inr (Or.inr ⟨kept, fresh⟩)
  | gt =>
    have less := (compare_bytes_lt_iff _ _).mp ((compare_bytes_swap _ _).mp order)
    have rest := ih updatesSorted
    have after : ∀ other ∈ current :: later,
        addressKey update.address < addressKey other.address := by
      intro other member
      rcases mem_cons.mp member with rfl | inLater
      · exact less
      · exact lt_trans less (currentFirst other inLater)
    refine ⟨pairwise_cons.mpr ⟨?_, rest.sorted⟩, ?_⟩
    · intro other member
      rcases (rest.mem other).mp member with updated | ⟨kept, _⟩
      · exact updateFirst other updated
      · exact after other kept
    · intro val
      rw [mem_cons, rest.mem]
      simp only [mem_cons (a := val) (b := update), mem_cons (b := update), forall_eq_or_imp]
      constructor
      · rintro (rfl | updated | ⟨kept, fresh⟩)
        · exact Or.inl (Or.inl rfl)
        · exact Or.inl (Or.inr updated)
        · exact Or.inr ⟨kept, ne_of_key_lt (after val kept), fresh⟩
      · rintro ((rfl | updated) | ⟨kept, _, fresh⟩)
        · exact Or.inl rfl
        · exact Or.inr (Or.inl updated)
        · exact Or.inr (Or.inr ⟨kept, fresh⟩)

theorem merge_updates_spec (existing : List Validator) (existingSorted : AddressSorted existing)
    (updates : List Validator) (sorted : AddressSorted updates) :
    Merged existing updates (mergeUpdates existing updates) := by
  induction existing generalizing updates with
  | nil => exact ⟨sorted, by simp [mergeUpdates]⟩
  | cons current later ih =>
    have laterSorted := (pairwise_cons.mp existingSorted).2
    exact merge_into_spec _ existingSorted (fun updates sorted => ih laterSorted _ sorted) sorted

theorem remove_sorted_ok {existing deletes : List Validator}
    (existingSorted : AddressSorted existing) (deletesSorted : AddressSorted deletes)
    (known : ∀ delete ∈ deletes, ∃ val ∈ existing, val.address = delete.address) :
    ∃ remaining, removeSorted existing deletes = .ok remaining ∧ AddressSorted remaining ∧
      ∀ val, val ∈ remaining ↔ val ∈ existing ∧ ∀ delete ∈ deletes,
        delete.address ≠ val.address := by
  induction existing generalizing deletes with
  | nil => cases deletes with
    | nil => exact ⟨[], rfl, List.Pairwise.nil, by simp⟩
    | cons delete deletes =>
      obtain ⟨val, none, _⟩ := known delete mem_cons_self
      cases none
  | cons current later ih => cases deletes with
    | nil => exact ⟨current :: later, rfl, existingSorted, by simp⟩
    | cons delete deletes =>
      obtain ⟨currentFirst, laterSorted⟩ := pairwise_cons.mp existingSorted
      obtain ⟨deleteFirst, restSorted⟩ := pairwise_cons.mp deletesSorted
      unfold removeSorted
      by_cases same : current.address = delete.address
      · obtain ⟨remaining, done, sorted, mem⟩ := ih laterSorted restSorted (by
          intro other member
          obtain ⟨val, present, address⟩ := known other (mem_cons_of_mem _ member)
          rcases mem_cons.mp present with rfl | inLater
          · have less := deleteFirst other member
            rw [← same, address] at less
            exact absurd less (lt_irrefl _)
          · exact ⟨val, inLater, address⟩)
        rw [if_pos same]
        refine ⟨remaining, done, sorted, ?_⟩
        intro val
        rw [mem, mem_cons]
        simp only [mem_cons, forall_eq_or_imp]
        constructor
        · rintro ⟨present, fresh⟩
          exact ⟨Or.inr present, same ▸ ne_of_key_lt (currentFirst val present), fresh⟩
        · rintro ⟨rfl | present, other, fresh⟩
          · exact absurd same.symm other
          · exact ⟨present, fresh⟩
      · -- the first to delete comes later, and so do the others
        obtain ⟨found, present, address⟩ := known delete mem_cons_self
        have inLater : found ∈ later := by
          rcases mem_cons.mp present with rfl | inLater
          · exact absurd address same
          · exact inLater
        have after : ∀ other ∈ delete :: deletes,
            addressKey current.address < addressKey other.address := by
          have less := currentFirst found inLater
          rw [address] at less
          intro other member
          rcases mem_cons.mp member with rfl | inDeletes
          · exact less
          · exact lt_trans less (deleteFirst other inDeletes)
        obtain ⟨remaining, done, sorted, mem⟩ := ih laterSorted
          deletesSorted (by
            intro other member
            obtain ⟨val, valPresent, valAddress⟩ := known other member
            rcases mem_cons.mp valPresent with rfl | valLater
            · exact absurd valAddress (ne_of_key_lt (after other member))
            · exact ⟨val, valLater, valAddress⟩)
        rw [if_neg same]
        refine ⟨current :: remaining, by simp [done], pairwise_cons.mpr ⟨?_, sorted⟩, ?_⟩
        · intro other member
          exact currentFirst other ((mem other).mp member).1
        · intro val
          rw [mem_cons, mem, mem_cons]
          constructor
          · rintro (rfl | ⟨kept, fresh⟩)
            · exact ⟨Or.inl rfl, fun other member =>
                (ne_of_key_lt (after other member)).symm⟩
            · exact ⟨Or.inr kept, fresh⟩
          · rintro ⟨rfl | kept, fresh⟩
            · exact Or.inl rfl
            · exact Or.inr ⟨kept, fresh⟩

theorem sum_voting_power_ok (validators : List Validator) (start : Int) (nonneg : 0 ≤ start)
    (powers : ∀ val ∈ validators, 0 ≤ val.votingPower)
    (fits : start + (validators.map (·.votingPower)).sum ≤ maxTotalVotingPower) :
    sumVotingPower start validators = .ok (start + (validators.map (·.votingPower)).sum) := by
  induction validators generalizing start with
  | nil => simp [sumVotingPower]
  | cons val rest ih =>
  have own := powers val mem_cons_self
  have restPowers := fun other member => powers other (mem_cons_of_mem _ member)
  have restNonneg : 0 ≤ (rest.map (·.votingPower)).sum := by
    apply sum_nonneg
    intro power member
    obtain ⟨other, listed, rfl⟩ := mem_map.mp member
    exact restPowers other listed
  rw [map_cons, sum_cons] at fits ⊢
  have limit : maxTotalVotingPower ≤ maxInt64 := by decide
  have exact := safe_add_clip_exact start val.votingPower (by unfold minInt64; omega) (by omega)
  unfold sumVotingPower
  simp only [exact]
  rw [if_neg (by omega), ih _ (by omega) restPowers (by omega), Int.add_assoc]

end Merge

section Apply

/-- The set with the changes in it, before its priorities are rescaled. -/
def changedSet (vals : ValidatorSet) (split : Changes) (updatedPower : Int) :
    Panics ValidatorSet := do
  let updates := computeNewPriorities split.updates vals updatedPower
  let removed ← (vals.applyUpdates updates).applyRemovals split.removals
  removed.updateTotalVotingPower

def recentred (vals : ValidatorSet) : Panics ValidatorSet := do
  let rescaled ← vals.rescalePriorities
    (int64 (priorityWindowSizeFactor * (← vals.totalVotingPower)))
  let shifted ← rescaled.shiftByAvgProposerPriority
  pure { shifted with validators := sortBy Validator.lessByVotingPower shifted.validators }

theorem apply_changes_eq (vals : ValidatorSet) (split : Changes) (updatedPower : Int) :
    vals.applyChanges split updatedPower = vals.changedSet split updatedPower >>= recentred := by
  simp only [applyChanges, changedSet, bind_assoc]
  rfl

/-- The priority an update has: that of the validator it changes, or that of one
who joins. -/
def updatedPriority (vals : ValidatorSet) (updatedPower : Int) (address : Address) : Int :=
  match vals.getByAddress address with
  | none => int64 (-(int64 (updatedPower + updatedPower / 8)))
  | some (_, val) => val.proposerPriority

def prioritised (vals : ValidatorSet) (updatedPower : Int) (update : Validator) : Validator :=
  { update with proposerPriority := vals.updatedPriority updatedPower update.address }

theorem compute_new_priorities_eq (updates : List Validator) (vals : ValidatorSet)
    (updatedPower : Int) : computeNewPriorities updates vals updatedPower =
      updates.map (vals.prioritised updatedPower) := by
  apply map_congr_left
  intro update _
  unfold prioritised updatedPriority
  cases vals.getByAddress update.address <;> rfl

/-- The set with the changes in it: the updates, with the priorities they get, and
the validators that no change names, in the order of their addresses. -/
structure Changed (vals : ValidatorSet) (changes : List Validator) (changed : ValidatorSet) :
    Prop where
  sorted : AddressSorted changed.validators
  mem : ∀ val, val ∈ changed.validators ↔
    (∃ update ∈ changes, 0 < update.votingPower ∧
      val = vals.prioritised (vals.updatedTotal changes) update) ∨
    (val ∈ vals.validators ∧ ∀ change ∈ changes, change.address ≠ val.address)
  proposer : changed.proposer = vals.proposer

variable {vals : ValidatorSet} (wellFormed : vals.WellFormed) {changes : List Validator}

def unchanged (vals : ValidatorSet) (changes : List Validator) : List Validator :=
  vals.validators.filter fun val => !changes.any fun change => change.address == val.address

theorem mem_unchanged (vals : ValidatorSet) (changes : List Validator) (val : Validator) :
    val ∈ vals.unchanged changes ↔
      val ∈ vals.validators ∧ ∀ change ∈ changes, change.address ≠ val.address := by
  simp [unchanged]

section Proper

variable (proper : ProperChanges changes)

include proper

theorem split_perm : ((splitOf changes).updates ++ (splitOf changes).removals).Perm changes := by
  have sortedPerm := sort_by_perm Validator.lessByAddress changes
  refine List.Perm.trans ?_ sortedPerm
  have zero : (splitOf changes).removals =
      (sortBy Validator.lessByAddress changes).filter fun val => !decide (0 < val.votingPower) := by
    apply filter_congr
    intro (val : Validator) member
    have low := (proper.powers val (sortedPerm.mem_iff.mp member)).1
    by_cases positive : 0 < val.votingPower
    · simp [positive, positive.ne']
    · simp [Int.le_antisymm (Int.not_lt.mp positive) low]
  rw [zero]
  exact filter_append_perm (fun val : Validator => decide (0 < val.votingPower)) _

theorem total_after_eq (vals : ValidatorSet) :
    vals.updatedTotal changes - vals.removedTotal changes =
      weight vals.power (Finset.range vals.size) +
        (changes.map fun change => change.votingPower - vals.powerOf change.address).sum := by
  have parts := ((split_perm proper).map fun change =>
    change.votingPower - vals.powerOf change.address).sum_eq
  rw [map_append, sum_append] at parts
  have removals : ((splitOf changes).removals.map fun change =>
      change.votingPower - vals.powerOf change.address) =
      (splitOf changes).removals.map fun change => 0 - vals.powerOf change.address := by
    apply map_congr_left
    intro change member
    rw [((mem_removals changes change).mp member).2]
  have negated := sum_map_sub (splitOf changes).removals (fun _ => 0)
  rw [removals, negated] at parts
  simp only [map_const', sum_replicate, nsmul_zero] at parts
  unfold updatedTotal removedTotal
  omega

theorem acceptable_of (vals : ValidatorSet)
    (known : ∀ change ∈ changes, change.votingPower = 0 →
      ∃ val ∈ vals.validators, val.address = change.address)
    (joins : ∃ change ∈ changes, 0 < change.votingPower ∧
      ∀ val ∈ vals.validators, val.address ≠ change.address) (allowDeletes : Bool)
    (allowed : allowDeletes = true ∨ ∀ change ∈ changes, change.votingPower ≠ 0)
    (fits : weight vals.power (Finset.range vals.size) + (changes.map fun change =>
      change.votingPower - vals.powerOf change.address).sum ≤ maxTotalVotingPower) :
    Acceptable vals changes allowDeletes := by
  refine ⟨proper, ?_, ?_, ?_, ?_⟩
  · refine allowed.imp_right fun positive => eq_nil_iff_forall_not_mem.mpr ?_
    intro delete member
    obtain ⟨listed, zero⟩ := (mem_removals changes delete).mp member
    exact positive delete listed zero
  · rintro ⟨noneNew, _⟩
    obtain ⟨change, listed, positive, fresh⟩ := joins
    have new : change ∈ (splitOf changes).updates.filter
        fun val => !vals.hasAddress val.address := by
      refine mem_filter.mpr ⟨(mem_updates changes change).mpr ⟨listed, positive⟩, ?_⟩
      simpa [hasAddress] using fresh
    rw [numNewValidators, length_eq_zero_iff] at noneNew
    rw [noneNew] at new
    cases new
  · intro delete member
    obtain ⟨listed, zero⟩ := (mem_removals changes delete).mp member
    exact known delete listed zero
  · rw [total_after_eq proper vals]
    exact fits

include wellFormed

theorem Changed.perm {changed : ValidatorSet} (made : Changed vals changes changed) :
    changed.validators.Perm
      ((splitOf changes).updates.map (vals.prioritised (vals.updatedTotal changes)) ++
        vals.unchanged changes) := by
  have updatesNodup : ((splitOf changes).updates.map
      (vals.prioritised (vals.updatedTotal changes))).Nodup := by
    apply List.Nodup.of_map (·.address)
    rw [map_map]
    exact address_sorted_nodup (updates_sorted proper)
  have unchangedNodup : (vals.unchanged changes).Nodup :=
    (List.Nodup.of_map _ wellFormed.distinct).filter _
  have apart : ((splitOf changes).updates.map
      (vals.prioritised (vals.updatedTotal changes)) ++ vals.unchanged changes).Nodup := by
    refine nodup_append.mpr ⟨updatesNodup, unchangedNodup, ?_⟩
    rintro val updated other kept rfl
    obtain ⟨update, member, rfl⟩ := mem_map.mp updated
    exact ((mem_unchanged vals changes _).mp kept).2 update
      ((mem_updates changes update).mp member).1 rfl
  refine (perm_ext_iff_of_nodup
    (List.Nodup.of_map _ (address_sorted_nodup made.sorted)) apart).mpr ?_
  intro val
  rw [made.mem, mem_append, mem_unchanged, mem_map]
  refine or_congr ?_ Iff.rfl
  constructor
  · rintro ⟨update, member, positive, rfl⟩
    exact ⟨update, (mem_updates changes update).mpr ⟨member, positive⟩, rfl⟩
  · rintro ⟨update, member, rfl⟩
    obtain ⟨listed, positive⟩ := (mem_updates changes update).mp member
    exact ⟨update, listed, positive, rfl⟩

theorem Changed.sum {changed : ValidatorSet} (made : Changed vals changes changed) :
    (changed.validators.map (·.votingPower)).sum =
      vals.updatedTotal changes - vals.removedTotal changes := by
  have powers := ((made.perm wellFormed proper).map (·.votingPower)).sum_eq
  rw [map_append, sum_append, map_map] at powers
  have named := power_of_sum_eq wellFormed proper.distinct
  have split := power_split vals fun val =>
    decide (val.address ∈ changes.map (·.address))
  have parts := ((split_perm proper).map fun change => vals.powerOf change.address).sum_eq
  rw [map_append, sum_append] at parts
  rw [map_map] at named
  have gained : ((splitOf changes).updates.map fun update =>
      update.votingPower - vals.powerOf update.address).sum =
      ((splitOf changes).updates.map (·.votingPower)).sum -
        ((splitOf changes).updates.map fun update => vals.powerOf update.address).sum :=
    sum_map_sub _ _ _
  have same : ((splitOf changes).updates.map ((·.votingPower) ∘
      vals.prioritised (vals.updatedTotal changes))).sum =
      ((splitOf changes).updates.map (·.votingPower)).sum := rfl
  have kept : vals.unchanged changes =
      vals.validators.filter fun val => !decide (val.address ∈ changes.map (·.address)) := by
    apply filter_congr
    intro val _
    rw [Bool.eq_iff_iff]
    simp
  rw [kept] at powers
  unfold updatedTotal removedTotal
  simp only [Function.comp_def] at named
  omega

end Proper

variable (acceptable : Acceptable vals changes true)

include wellFormed acceptable

theorem Changed.nonempty {changed : ValidatorSet} (made : Changed vals changes changed) :
    changed.validators ≠ [] := by
  intro empty
  have proper := acceptable.proper
  have perm := made.perm wellFormed proper
  rw [empty] at perm
  obtain ⟨noUpdates, noneKept⟩ := append_eq_nil_iff.mp perm.symm.eq_nil
  have updatesNil := map_eq_nil_iff.mp noUpdates
  refine acceptable.remains ⟨by simp [updatesNil, numNewValidators], ?_⟩
  -- every validator is removed, and every removal is of a validator
  have removedAll : (vals.validators.map (·.address)).Perm
      ((splitOf changes).removals.map (·.address)) := by
    refine (perm_ext_iff_of_nodup wellFormed.distinct
      (address_sorted_nodup (removals_sorted proper))).mpr ?_
    intro address
    rw [mem_map, mem_map]
    constructor
    · rintro ⟨val, member, rfl⟩
      by_contra missing
      have kept : val ∈ vals.unchanged changes := by
        rw [mem_unchanged]
        refine ⟨member, ?_⟩
        intro change listed same
        rcases (proper.powers change listed).1.lt_or_eq with positive | zero
        · have updated := (mem_updates changes change).mpr ⟨listed, positive⟩
          rw [updatesNil] at updated
          cases updated
        · exact missing ⟨change, (mem_removals changes change).mpr ⟨listed, zero.symm⟩, same⟩
      rw [noneKept] at kept
      cases kept
    · rintro ⟨delete, member, rfl⟩
      exact acceptable.known delete member
  simpa [size] using removedAll.length_eq

theorem changed_set_ok : ∃ changed,
    vals.changedSet (splitOf changes) (vals.updatedTotal changes) = .ok changed ∧
      Changed vals changes changed ∧ changed.WellFormed := by
  have proper := acceptable.proper
  have updatesSorted : AddressSorted ((splitOf changes).updates.map
      (vals.prioritised (vals.updatedTotal changes))) :=
    pairwise_map.mpr (updates_sorted proper)
  have merged := merge_updates_spec _ (sort_by_address_sorted wellFormed.distinct) _ updatesSorted
  have listed := fun val =>
    (sort_by_perm Validator.lessByAddress vals.validators).mem_iff (a := val)
  obtain ⟨remaining, removes, sorted, mem⟩ := remove_sorted_ok
    merged.sorted (removals_sorted proper) (by
      intro delete member
      obtain ⟨val, present, same⟩ := acceptable.known delete member
      refine ⟨val, (merged.mem val).mpr (Or.inr ⟨(listed val).mpr present, ?_⟩), same⟩
      intro update updated equal
      obtain ⟨change, changeMember, rfl⟩ := mem_map.mp updated
      exact split_disjoint proper change changeMember delete member (equal.trans same))
  have made : Changed vals changes { vals with validators := remaining } := by
    refine ⟨sorted, ?_, rfl⟩
    intro val
    rw [mem, merged.mem, listed]
    constructor
    · rintro ⟨updated | ⟨present, fresh⟩, kept⟩
      · obtain ⟨update, member, rfl⟩ := mem_map.mp updated
        obtain ⟨change, positive⟩ := (mem_updates changes update).mp member
        exact Or.inl ⟨update, change, positive, rfl⟩
      · refine Or.inr ⟨present, ?_⟩
        intro change member
        rcases (proper.powers change member).1.lt_or_eq with positive | zero
        · exact fresh (vals.prioritised (vals.updatedTotal changes) change)
            (mem_map_of_mem ((mem_updates changes change).mpr ⟨member, positive⟩))
        · exact kept change ((mem_removals changes change).mpr ⟨member, zero.symm⟩)
    · rintro (⟨update, member, positive, rfl⟩ | ⟨present, fresh⟩)
      · have updated := (mem_updates changes update).mpr ⟨member, positive⟩
        exact ⟨Or.inl (mem_map_of_mem updated), fun delete removed =>
          (split_disjoint proper update updated delete removed).symm⟩
      · refine ⟨Or.inr ⟨present, ?_⟩, fun delete removed =>
          fresh delete ((mem_removals changes delete).mp removed).1⟩
        intro update updated
        obtain ⟨change, member, rfl⟩ := mem_map.mp updated
        exact fresh change ((mem_updates changes change).mp member).1
  have positive : ∀ val ∈ remaining, 0 < val.votingPower := by
    intro val member
    rcases (made.mem val).mp member with ⟨update, _, positive, rfl⟩ | ⟨present, _⟩
    · exact positive
    · exact wellFormed.positive val present
  have sum : (remaining.map (·.votingPower)).sum =
      vals.updatedTotal changes - vals.removedTotal changes := made.sum wellFormed proper
  have total := sum_voting_power_ok remaining 0 (Int.le_refl 0)
    (fun val member => (positive val member).le) (by have fits := acceptable.fits; omega)
  refine ⟨⟨remaining, vals.proposer, (remaining.map (·.votingPower)).sum⟩, ?_,
    ⟨made.sorted, made.mem, rfl⟩, ⟨positive, address_sorted_nodup sorted, rfl, ?_⟩⟩
  · rw [← compute_new_priorities_eq] at removes
    simp [changedSet, applyUpdates, applyRemovals, updateTotalVotingPower, removes, total]
  · exact sum ▸ acceptable.fits

end Apply

section Update

theorem update_empty (vals : ValidatorSet) (allowDeletes : Bool) :
    vals.updateWithChangeSet [] allowDeletes = .ok (none, vals) := rfl

variable {vals : ValidatorSet} (wellFormed : vals.WellFormed) {changes : List Validator}

include wellFormed

theorem update_refused {allowDeletes : Bool} (present : changes ≠ [])
    (unacceptable : ¬ Acceptable vals changes allowDeletes) :
    ∃ error, vals.updateWithChangeSet changes allowDeletes = .ok (some error, vals) := by
  obtain ⟨error, refused⟩ := check_changes_refuses wellFormed unacceptable
  refine ⟨error, ?_⟩
  simp [updateWithChangeSet, present, ExceptT.run, refused, bind, Except.bind, pure, Except.pure]

theorem update_accepted {allowDeletes : Bool} (present : changes ≠ [])
    (acceptable : Acceptable vals changes allowDeletes) {changed updated : ValidatorSet}
    (made : vals.changedSet (splitOf changes) (vals.updatedTotal changes) = .ok changed)
    (recentres : changed.recentred = .ok updated) :
    vals.updateWithChangeSet changes allowDeletes = .ok (none, updated) := by
  have checked := check_changes_ok wellFormed acceptable
  have applied := apply_changes_eq vals (splitOf changes) (vals.updatedTotal changes)
  rw [made] at applied
  simp [updateWithChangeSet, present, ExceptT.run, checked, applied, recentres, bind, Except.bind,
    pure, Except.pure]

end Update

section Recentre

def byPower (vals : ValidatorSet) : ValidatorSet :=
  { vals with validators := sortBy Validator.lessByVotingPower vals.validators }

theorem by_power_mem (vals : ValidatorSet) (val : Validator) :
    val ∈ vals.byPower.validators ↔ val ∈ vals.validators :=
  (sort_by_perm _ _).mem_iff

variable {vals : ValidatorSet}

theorem by_power_well_formed (wellFormed : vals.WellFormed) :
    vals.byPower.WellFormed := by
  have perm := sort_by_perm Validator.lessByVotingPower vals.validators
  refine ⟨?_, (perm.map _).nodup_iff.mpr wellFormed.distinct, ?_, ?_⟩
  · intro val member
    exact wellFormed.positive val ((by_power_mem vals val).mp member)
  · exact wellFormed.cached.trans (perm.map _).sum_eq.symm
  · exact (perm.map _).sum_eq.trans_le wellFormed.bounded

theorem by_power_size (vals : ValidatorSet) : vals.byPower.size = vals.size :=
  (sort_by_perm _ _).length_eq

theorem by_power_centred (centred : Centred vals) :
    Centred vals.byPower := by
  have perm := sort_by_perm Validator.lessByVotingPower vals.validators
  have same : weight vals.byPower.priority (Finset.range vals.byPower.size) =
      weight vals.priority (Finset.range vals.size) := by
    rw [← priority_sum, ← priority_sum]
    exact (perm.map (·.proposerPriority)).sum_eq
  rw [Centred, same, by_power_size]
  exact centred

theorem by_power_total (vals : ValidatorSet) :
    weight vals.byPower.power (Finset.range vals.byPower.size) =
      weight vals.power (Finset.range vals.size) := by
  have perm := sort_by_perm Validator.lessByVotingPower vals.validators
  rw [← sum_eq_weight, ← sum_eq_weight]
  exact (perm.map (·.votingPower)).sum_eq

theorem recentred_eq (wellFormed : vals.WellFormed) {rescaled normal : ValidatorSet}
    (rescales : vals.rescalePriorities (2 * weight vals.power (Finset.range vals.size)) =
      .ok rescaled) (shifts : rescaled.shiftByAvgProposerPriority = .ok normal) :
    vals.recentred = .ok normal.byPower := by
  have total := total_voting_power_eq vals wellFormed
  have window := window_exact wellFormed
  simp [recentred, total, window, rescales, shifts, byPower]

end Recentre

end ValidatorSet

end Tendermint.Types
