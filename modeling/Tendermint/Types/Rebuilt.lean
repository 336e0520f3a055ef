import Tendermint.Types.NewSet
import Tendermint.Types.Updates

/-!
A validator set that is rebuilt from its validators (`ValidatorSetFromExistingValidators`). The
proposer is not in the list: the one with the lowest priority is taken for it. Whatever its
history, a set keeps its validators sorted by power, its total and a proposer of its own, so
that the rebuilt set is the old one exactly when that guess is right.
-/

namespace Tendermint.Types

open List
open Quorum (weight)

namespace ValidatorSet

/-- One turn of the loop of `findPreviousProposer`: the loser of the comparison is kept. -/
def preferPrevious : Option Validator → Validator → Panics (Option Validator)
  | none, val => .ok (some val)
  | some previousProposer, val => do
    let winner ← previousProposer.compareProposerPriority val
    pure (some (if winner = previousProposer then val else previousProposer))

def findPreviousProposer (vals : ValidatorSet) : Panics (Option Validator) :=
  vals.validators.foldlM preferPrevious none

def invalidValidator (valz : List Validator) : Option String :=
  valz.findSome? Validator.validateBasic

def validatorSetFromExistingValidators (valz : List Validator) :
    Panics (Except String ValidatorSet) := do
  if valz.isEmpty then return .error "validator set is empty"
  if let some error := invalidValidator valz then
    return .error ("can't create validator set: " ++ error)
  let vals : ValidatorSet := ⟨valz, none, 0⟩
  let proposer ← vals.findPreviousProposer
  let totalled ← { vals with proposer := proposer }.updateTotalVotingPower
  pure (.ok totalled.byPower)

/-- The sets that `updateState` makes: changes, which may be none or refused, and then
increments. -/
inductive Updated : ValidatorSet → Prop
  | new (valz : List Validator) (vals : ValidatorSet) (present : valz ≠ [])
      (made : new valz = .ok vals) : Updated vals
  | update (vals changed next : ValidatorSet) (changes : List Validator)
      (error : Option ChangeSetError) (times : Int) (before : Updated vals)
      (updates : vals.updateWithChangeSet changes true = .ok (error, changed))
      (increments : changed.incrementProposerPriority times = .ok next) : Updated next

inductive Reachable : ValidatorSet → Prop
  | new (valz : List Validator) (vals : ValidatorSet) (present : valz ≠ [])
      (made : new valz = .ok vals) : Reachable vals
  | update (vals changed : ValidatorSet) (changes : List Validator)
      (error : Option ChangeSetError) (before : Reachable vals)
      (updates : vals.updateWithChangeSet changes true = .ok (error, changed)) : Reachable changed
  | increment (vals next : ValidatorSet) (times : Int) (before : Reachable vals)
      (increments : vals.incrementProposerPriority times = .ok next) : Reachable next

section Members

structure Sound (vals : ValidatorSet) : Prop where
  wellFormed : vals.WellFormed
  nonempty : vals.validators ≠ []
  inRange : ∀ val ∈ vals.validators, Fits64 val.proposerPriority

theorem safe_add_clip_eq (a b : Int) (fits : a ≤ maxInt64) (nonneg : 0 ≤ b) :
    safeAddClip a b = min maxInt64 (a + b) := by
  unfold safeAddClip safeAdd
  split_ifs <;> simp only [Bool.false_eq_true, if_true, if_false] <;> omega

variable {vals next : ValidatorSet}

theorem Sound.once (sound : vals.Sound) :
    ∃ result, vals.incrementProposerPriorityOnce = .ok result ∧ result.Sound ∧
      SameMembers vals result ∧
      ∃ proposer ∈ result.validators, result.proposer = some proposer := by
  obtain ⟨wellFormed, nonempty, inRange⟩ := sound
  obtain ⟨result, top, _, done, same, ⟨proposer, listed, proposes, _⟩, _, moved⟩ :=
    once_spec vals wellFormed nonempty
  refine ⟨result, done, ⟨same.wellFormed wellFormed, same.nonempty nonempty, ?_⟩, same,
    proposer, listed, proposes⟩
  intro val member
  obtain ⟨index, inside, priorityIs, _⟩ := index_of_mem member
  rw [same.size] at inside
  obtain ⟨before, present, beforeIs, powerIs⟩ := mem_of_index inside
  have fits := inRange before present
  have positive := wellFormed.positive before present
  have raised : Fits64 (safeAddClip before.proposerPriority before.votingPower) := by
    rw [safe_add_clip_eq _ _ fits.2 positive.le]
    unfold Fits64 minInt64 maxInt64 at fits ⊢
    omega
  rw [← priorityIs, moved index inside, beforeIs, powerIs]
  split
  · exact safe_sub_clip_fits _ _ raised
  · exact raised

theorem Sound.times (count : Nat) (sound : vals.Sound) :
    ∃ result, incrementTimes count vals = .ok result ∧ result.Sound ∧ SameMembers vals result ∧
      (0 < count → ∃ proposer ∈ result.validators, result.proposer = some proposer) := by
  induction count generalizing vals with
  | zero => exact ⟨vals, rfl, sound, .refl vals, fun none => absurd none (Nat.lt_irrefl 0)⟩
  | succ count ih =>
  obtain ⟨once, done, onceSound, same, proposes⟩ := sound.once
  obtain ⟨result, reached, last, later, proposer⟩ := ih onceSound
  refine ⟨result, by simp [incrementTimes, done, reached], last, same.trans later, fun _ => ?_⟩
  cases count with
  | zero =>
    cases reached
    exact proposes
  | succ count => exact proposer (Nat.succ_pos count)

theorem Sound.starts (sound : vals.Sound) :
    ∃ normal, normal.Sound ∧ SameMembers vals normal ∧ ∀ times, 0 < times →
      vals.incrementProposerPriority times = incrementTimes times.toNat normal := by
  obtain ⟨rescaled, rescales, same, fits⟩ :=
    rescale_returns sound.wellFormed sound.nonempty sound.inRange
  obtain ⟨normal, shifts, sameNext, normalFits⟩ := shift_returns (same.nonempty sound.nonempty) fits
  have both := same.trans sameNext
  exact ⟨normal, ⟨both.wellFormed sound.wellFormed, both.nonempty sound.nonempty, normalFits⟩,
    both, increment_eq sound.wellFormed sound.nonempty rescales shifts⟩

/-- Whatever the priorities, a valid set can be incremented, which changes them only
and makes one of the validators the proposer. -/
theorem Sound.increment (sound : vals.Sound) {times : Int} (positive : 0 < times) :
    ∃ next, vals.incrementProposerPriority times = .ok next ∧ next.Sound ∧
      SameMembers vals next ∧ ∃ proposer ∈ next.validators, next.proposer = some proposer := by
  obtain ⟨normal, normalSound, same, starts⟩ := sound.starts
  obtain ⟨next, reached, nextSound, later, proposes⟩ := normalSound.times times.toNat
  exact ⟨next, (starts times positive).trans reached, nextSound, same.trans later,
    proposes (by omega)⟩

theorem Sound.incremented (sound : vals.Sound) {times : Int}
    (increments : vals.incrementProposerPriority times = .ok next) : next.Sound ∧
      SameMembers vals next ∧ ∃ proposer ∈ next.validators, next.proposer = some proposer := by
  have positive : 0 < times := by
    by_contra few
    simp [incrementProposerPriority, isNilOrEmpty, sound.nonempty, Int.not_lt.mp few] at increments
  obtain ⟨result, done, facts⟩ := sound.increment positive
  cases increments.symm.trans done
  exact facts

def PowerSorted (vals : ValidatorSet) : Prop :=
  vals.validators.Pairwise fun first second => powerKey first ≤ powerKey second

theorem SameMembers.power_sorted (same : SameMembers vals next) (sorted : vals.PowerSorted) :
    next.PowerSorted := by
  have keys :=
    same.map_eq fun member => (toLex (-member.2.2, addressKey member.1) : Int ×ₗ List Nat)
  change next.validators.map powerKey = vals.validators.map powerKey at keys
  have ordered := pairwise_map.mpr sorted
  rw [← keys] at ordered
  exact pairwise_map.mp ordered

theorem by_power_sorted (vals : ValidatorSet) : vals.byPower.PowerSorted :=
  sort_by_pairwise less_by_voting_power_iff vals.validators

theorem PowerSorted.by_power_eq (sorted : vals.PowerSorted) : vals.byPower = vals := by
  have ordered : vals.validators.Pairwise fun first second =>
      second.lessByVotingPower first = false :=
    sorted.imp fun {first second} less => (less_by_voting_power_iff first second).mpr less
  have same : sortBy Validator.lessByVotingPower vals.validators = vals.validators :=
    ordered.insertionSort_eq
  rw [byPower, same]

theorem accepted_sound {changes : List Validator} {allowDeletes : Bool}
    (wellFormed : vals.WellFormed)
    (inRange : ∀ val ∈ vals.validators, Fits64 val.proposerPriority) (present : changes ≠ [])
    (updates : vals.updateWithChangeSet changes allowDeletes = .ok (none, next)) :
    next.Sound ∧ next.PowerSorted := by
  by_cases acceptable : Acceptable vals changes allowDeletes
  · have deletes := acceptable.with_deletes
    obtain ⟨changed, made, isChanged, formed⟩ := changed_set_ok wellFormed deletes
    have changedNonempty := isChanged.nonempty wellFormed deletes
    obtain ⟨normal, recentres, same, fits⟩ :=
      recentred_returns formed changedNonempty (isChanged.in_range inRange)
    rw [update_accepted wellFormed present acceptable made recentres] at updates
    cases updates
    refine ⟨⟨by_power_well_formed (same.wellFormed formed), ?_, fun val member =>
      fits val ((by_power_mem normal val).mp member)⟩, by_power_sorted normal⟩
    obtain ⟨val, member⟩ := exists_mem_of_ne_nil _ (same.nonempty changedNonempty)
    exact ne_nil_of_mem ((by_power_mem normal val).mpr member)
  · obtain ⟨error, refused⟩ := update_refused wellFormed present acceptable
    rw [refused] at updates
    cases updates

theorem Sound.updated (sound : vals.Sound) (sorted : vals.PowerSorted) {changes : List Validator}
    {error : Option ChangeSetError}
    (updates : vals.updateWithChangeSet changes true = .ok (error, next)) :
    next.Sound ∧ next.PowerSorted := by
  by_cases present : changes = []
  · subst present
    cases updates
    exact ⟨sound, sorted⟩
  by_cases acceptable : Acceptable vals changes true
  · obtain ⟨result, accepted, _⟩ :=
      update_of_acceptable sound.wellFormed sound.inRange present acceptable
    cases updates.symm.trans accepted
    exact accepted_sound sound.wellFormed sound.inRange present accepted
  · obtain ⟨refusal, refused⟩ := update_refused sound.wellFormed present acceptable
    cases updates.symm.trans refused
    exact ⟨sound, sorted⟩

theorem new_incremented {valz : List Validator} (present : valz ≠ []) (made : new valz = .ok vals) :
    ∃ fresh : ValidatorSet, fresh.Sound ∧ fresh.PowerSorted ∧
      fresh.incrementProposerPriority 1 = .ok vals := by
  rcases updates : empty.updateWithChangeSet valz false with text | ⟨_ | error, fresh⟩
  · simp [new, updates] at made
  · simp [new, updates, present] at made
    obtain ⟨sound, sorted⟩ :=
      accepted_sound empty_well_formed (by simp [empty]) present updates
    exact ⟨fresh, sound, sorted, made⟩
  · simp [new, updates] at made

end Members

variable {vals : ValidatorSet}

theorem Reachable.sound (reachable : Reachable vals) :
    vals.Sound ∧ vals.PowerSorted := by
  induction reachable with
  | new valz vals present made =>
    obtain ⟨fresh, sound, sorted, increments⟩ := new_incremented present made
    obtain ⟨next, same, _⟩ := sound.incremented increments
    exact ⟨next, same.power_sorted sorted⟩
  | update vals changed changes error before updates ih => exact ih.1.updated ih.2 updates
  | increment vals next times before increments ih =>
    obtain ⟨sound, same, _⟩ := ih.1.incremented increments
    exact ⟨sound, same.power_sorted ih.2⟩

theorem Updated.reachable (updated : Updated vals) : Reachable vals := by
  induction updated with
  | new valz vals present made => exact .new valz vals present made
  | update vals changed next changes error times before updates increments ih =>
    exact .increment _ _ times (.update _ _ changes error ih updates) increments

theorem Updated.proposes (updated : Updated vals) :
    ∃ proposer ∈ vals.validators, vals.proposer = some proposer := by
  cases updated with
  | new valz vals present made =>
    obtain ⟨fresh, sound, _, increments⟩ := new_incremented present made
    exact (sound.incremented increments).2.2
  | update vals changed next changes error times before updates increments =>
    have sound := (Reachable.update _ _ changes error before.reachable updates).sound.1
    exact (sound.incremented increments).2.2

theorem prefer_previous_spec (rest : List Validator) (best : Validator)
    (distinct : ((best :: rest).map (·.address)).Nodup) :
    ∃ last ∈ best :: rest, rest.foldlM preferPrevious (some best) = .ok (some last) ∧
      ∀ other ∈ best :: rest, other = last ∨ other.Beats last := by
  refine fold_prefers (fun first second => second.Beats first)
    (fun first second => second.trans first) (·.address) (fun best next apart => ?_) rest best
    distinct
  have different : next ≠ best := fun same => apart (by rw [same])
  rcases Validator.compare_proposer_priority_cases apart with
    ⟨chosen, beats⟩ | ⟨chosen, beats⟩
  · exact .inr ⟨by simp [preferPrevious, chosen], beats⟩
  · exact .inl ⟨by simp [preferPrevious, chosen, different], beats⟩

theorem find_previous_proposer_eq (distinct : (vals.validators.map (·.address)).Nodup)
    (nonempty : vals.validators ≠ []) :
    ∃ last ∈ vals.validators, vals.findPreviousProposer = .ok (some last) ∧
      ∀ other ∈ vals.validators, other = last ∨ other.Beats last := by
  unfold findPreviousProposer
  cases shape : vals.validators with
  | nil => exact absurd shape nonempty
  | cons first rest =>
    rw [shape] at distinct
    exact prefer_previous_spec rest first distinct

theorem invalid_validator_none (valz : List Validator) :
    invalidValidator valz = none ↔ ∀ val ∈ valz, val.validateBasic = none :=
  findSome?_eq_none_iff

theorem rebuild_eq (reachable : Reachable vals) (valid : invalidValidator vals.validators = none) :
    ∃ last ∈ vals.validators, (∀ other ∈ vals.validators, other = last ∨ other.Beats last) ∧
      validatorSetFromExistingValidators vals.validators =
        .ok (.ok { vals with proposer := some last }) := by
  obtain ⟨⟨formed, nonempty, _⟩, ordered⟩ := reachable.sound
  obtain ⟨last, member, found, loses⟩ :=
    @find_previous_proposer_eq ⟨vals.validators, none, 0⟩ formed.distinct nonempty
  refine ⟨last, member, loses, ?_⟩
  have total := sum_voting_power_ok vals.validators 0 (Int.le_refl 0)
    (fun val member => (formed.positive val member).le) (by rw [Int.zero_add]; exact formed.bounded)
  rw [Int.zero_add, ← formed.cached] at total
  have sorted : PowerSorted { vals with proposer := some last } := ordered
  simp only [validatorSetFromExistingValidators, List.isEmpty_iff, nonempty, if_false,
    valid, found, updateTotalVotingPower, total, bind_eq, pure_eq]
  exact congrArg (fun rebuilt => Except.ok (Except.ok rebuilt)) sorted.by_power_eq

/-- Rebuilding keeps a set exactly when its validators pass their checks and everyone else
comes before the proposer in the order of the priorities. -/
theorem rebuilt_set_iff (vals : ValidatorSet) (updated : Updated vals) :
    validatorSetFromExistingValidators vals.validators = .ok (.ok vals) ↔
      (∀ val ∈ vals.validators, val.validateBasic = none) ∧
        ∃ proposer ∈ vals.validators, vals.proposer = some proposer ∧
          ∀ other ∈ vals.validators, other ≠ proposer → other.Beats proposer := by
  have reachable := updated.reachable
  have nonempty := reachable.sound.1.nonempty
  constructor
  · intro rebuilt
    cases invalid : invalidValidator vals.validators with
    | some error =>
      simp [validatorSetFromExistingValidators, nonempty, invalid] at rebuilt
    | none =>
    obtain ⟨last, member, loses, same⟩ := rebuild_eq reachable invalid
    rw [same] at rebuilt
    have proposer : some last = vals.proposer :=
      congrArg ValidatorSet.proposer (Except.ok.inj (Except.ok.inj rebuilt))
    exact ⟨(invalid_validator_none _).mp invalid, last, member, proposer.symm,
      fun other present different => (loses other present).resolve_left different⟩
  · rintro ⟨valid, proposer, listed, proposes, behind⟩
    obtain ⟨last, member, loses, same⟩ :=
      rebuild_eq reachable ((invalid_validator_none _).mpr valid)
    have guessed : last = proposer := by
      by_contra different
      have beats := behind last member different
      rcases loses proposer listed with equal | back
      · exact different equal.symm
      · exact beats.asymm back
    rw [same, guessed, ← proposes]

def addressed (seed : UInt8) (votingPower proposerPriority : Int) : Validator :=
  ⟨List.replicate 20 seed, ⟨.ed25519, [seed]⟩, votingPower, proposerPriority⟩

theorem new_pair_rebuilt :
    let vals : ValidatorSet := ⟨[addressed 1 2 (-1), addressed 2 1 1], some (addressed 1 2 (-1)), 3⟩
    validatorSetFromExistingValidators vals.validators = .ok (.ok vals) := by
  intro vals
  have made : new [addressed 1 2 0, addressed 2 1 0] = .ok vals := by rfl
  refine (rebuilt_set_iff vals (.new _ vals (by decide) made)).mpr
    ⟨by decide, addressed 1 2 (-1), by decide, rfl, ?_⟩
  intro other member different
  simp only [vals, mem_cons, not_mem_nil, or_false] at member
  rcases member with rfl | rfl
  · exact absurd rfl different
  · exact .inl (by decide)

/-- A validator of power one joins another of power ten, far behind it. The other proposes and
is still ahead, so the rebuilt set has the one who joined for its proposer. -/
theorem joined_validator_guessed :
    let vals : ValidatorSet := ⟨[addressed 1 10 5, addressed 2 1 (-5)], some (addressed 1 10 5), 11⟩
    Updated vals ∧ validatorSetFromExistingValidators vals.validators =
      .ok (.ok { vals with proposer := some (addressed 2 1 (-5)) }) := by
  intro vals
  have made : new [addressed 1 10 0] =
      .ok ⟨[addressed 1 10 0], some (addressed 1 10 0), 10⟩ := by rfl
  have updates : updateWithChangeSet ⟨[addressed 1 10 0], some (addressed 1 10 0), 10⟩
      [addressed 2 1 0] true =
        .ok (none, ⟨[addressed 1 10 6, addressed 2 1 (-6)], some (addressed 1 10 0), 11⟩) := by rfl
  have increments : incrementProposerPriority
      ⟨[addressed 1 10 6, addressed 2 1 (-6)], some (addressed 1 10 0), 11⟩ 1 = .ok vals := by rfl
  exact ⟨.update _ _ vals _ none 1 (.new _ _ (by decide) made) updates increments, by rfl⟩

end ValidatorSet

end Tendermint.Types
