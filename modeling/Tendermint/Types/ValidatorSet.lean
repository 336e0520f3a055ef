import Tendermint.Lib.Quorum
import Tendermint.Types.Canonical

/-!
Validators and validator sets. A set is the value of the Go struct: the
proposer is the validator as it was when it was chosen, and a copy is the value
itself. Where the source works on `int64` without a check the model wraps, so
that nothing below assumes the priorities to be small. `TotalVotingPower`
recomputes an absent cache on each call and does not store it, which no caller
can tell.
-/

namespace Tendermint.Types

open List
open Quorum (weight)

/-- The value that `int64` arithmetic leaves. -/
def int64 (value : Int) : Int := Int.bmod value (2 ^ 64)

def maxInt64 : Int := 2 ^ 63 - 1

def minInt64 : Int := -2 ^ 63

def maxTotalVotingPower : Int := maxInt64.tdiv 8

def priorityWindowSizeFactor : Int := 2

def safeAdd (a b : Int) : Int × Bool :=
  if 0 < b ∧ maxInt64 - b < a then (-1, true)
  else if b < 0 ∧ a < minInt64 - b then (-1, true)
  else (a + b, false)

def safeSub (a b : Int) : Int × Bool :=
  if 0 < b ∧ a < minInt64 + b then (-1, true)
  else if b < 0 ∧ maxInt64 + b < a then (-1, true)
  else (a - b, false)

def safeAddClip (a b : Int) : Int :=
  let (sum, overflow) := safeAdd a b
  if overflow then (if b < 0 then minInt64 else maxInt64) else sum

def safeSubClip (a b : Int) : Int :=
  let (difference, overflow) := safeSub a b
  if overflow then (if 0 < b then minInt64 else maxInt64) else difference

theorem int64_exact (value : Int) (low : minInt64 ≤ value) (high : value ≤ maxInt64) :
    int64 value = value := by
  unfold minInt64 at low
  unfold maxInt64 at high
  exact Int.bmod_eq_of_le (by omega) (by omega)

theorem safe_add_clip_exact (a b : Int) (low : minInt64 ≤ a + b) (high : a + b ≤ maxInt64) :
    safeAddClip a b = a + b := by
  unfold safeAddClip safeAdd
  rw [if_neg (by omega), if_neg (by omega)]
  rfl

/-- bytes.Compare -/
def compareBytes : Bytes → Bytes → Ordering
  | [], [] => .eq
  | [], _ :: _ => .lt
  | _ :: _, [] => .gt
  | a :: as, b :: bs => if a < b then .lt else if b < a then .gt else compareBytes as bs

theorem compare_bytes_eq {a b : Bytes} (equal : compareBytes a b = .eq) : a = b := by
  induction a generalizing b with
  | nil => cases b with
    | nil => rfl
    | cons _ _ => cases equal
  | cons x xs ih => cases b with
    | nil => cases equal
    | cons y ys =>
      simp only [compareBytes] at equal
      split at equal
      · cases equal
      split at equal
      · cases equal
      rename_i notLess notMore
      have same : x = y := UInt8.le_antisymm (UInt8.not_lt.mp notMore) (UInt8.not_lt.mp notLess)
      rw [same, ih equal]

/-- Byte strings in the order of bytes.Compare. -/
def addressKey (address : Bytes) : List Nat := address.map UInt8.toNat

theorem address_key_injective {a b : Bytes} (same : addressKey a = addressKey b) : a = b :=
  map_injective_iff.mpr (fun _ _ => UInt8.toNat_inj.mp) same

theorem compare_bytes_lt_iff (a b : Bytes) :
    compareBytes a b = .lt ↔ addressKey a < addressKey b := by
  induction a generalizing b with
  | nil => cases b <;> simp [compareBytes, addressKey]
  | cons x xs ih => cases b with
    | nil => simp [compareBytes, addressKey]
    | cons y ys =>
      have tail := ih ys
      simp only [addressKey, map_cons, cons_lt_cons_iff, compareBytes] at tail ⊢
      by_cases less : x < y
      · simp [less, UInt8.lt_iff_toNat_lt.mp less]
      by_cases more : y < x
      · have moreNat := UInt8.lt_iff_toNat_lt.mp more
        simp only [less, more, if_false, if_true, reduceCtorEq, false_iff, not_or]
        omega
      · have same : x = y := UInt8.le_antisymm (UInt8.not_lt.mp more) (UInt8.not_lt.mp less)
        simp [same, tail]

theorem compare_bytes_swap (a b : Bytes) : compareBytes a b = .gt ↔ compareBytes b a = .lt := by
  induction a generalizing b with
  | nil => cases b <;> simp [compareBytes]
  | cons x xs ih => cases b with
    | nil => simp [compareBytes]
    | cons y ys =>
      simp only [compareBytes]
      by_cases less : x < y
      · simp [less, UInt8.lt_asymm less]
      by_cases more : y < x
      · simp [less, more]
      · simpa [less, more] using ih ys

structure Validator where
  address : Address
  pubKey : PubKey
  votingPower : Int
  proposerPriority : Int
  deriving DecidableEq, Repr

namespace Validator

def new (crypto : Crypto) (pubKey : PubKey) (votingPower : Int) : Validator :=
  ⟨crypto.address pubKey, pubKey, votingPower, 0⟩

def validateBasic (val : Validator) : Option String :=
  if val.votingPower < 0 then some "validator has negative voting power"
  else if val.address.length ≠ addressSize then some "validator address is the wrong size"
  else none

/-- The one with the higher priority, or the lower address among equals. -/
def compareProposerPriority (val other : Validator) : Panics Validator :=
  if other.proposerPriority < val.proposerPriority then .ok val
  else if val.proposerPriority < other.proposerPriority then .ok other
  else match compareBytes val.address other.address with
    | .lt => .ok val
    | .gt => .ok other
    | .eq => .error "Cannot compare identical validators"

theorem compare_proposer_priority_ok (val other : Validator)
    (distinct : val.address ≠ other.address) :
    ∃ winner, val.compareProposerPriority other = .ok winner := by
  unfold compareProposerPriority
  split
  · exact ⟨_, rfl⟩
  split
  · exact ⟨_, rfl⟩
  cases order : compareBytes val.address other.address with
  | lt => exact ⟨_, rfl⟩
  | gt => exact ⟨_, rfl⟩
  | eq => exact absurd (compare_bytes_eq order) distinct

def lessByVotingPower (val other : Validator) : Bool :=
  if val.votingPower = other.votingPower then
    compareBytes val.address other.address == .lt
  else decide (other.votingPower < val.votingPower)

def lessByAddress (val other : Validator) : Bool :=
  compareBytes val.address other.address == .lt

def member (val : Validator) : Address × PubKey × Int := (val.address, val.pubKey, val.votingPower)

end Validator

def sortBy (less : Validator → Validator → Bool) (vals : List Validator) : List Validator :=
  vals.insertionSort fun a b => less b a = false

structure ValidatorSet where
  validators : List Validator
  proposer : Option Validator
  /-- The unexported field `totalVotingPower`, zero when it was not computed. -/
  cachedVotingPower : Int
  deriving DecidableEq, Repr

namespace ValidatorSet

def empty : ValidatorSet := ⟨[], none, 0⟩

def isNilOrEmpty (vals : ValidatorSet) : Bool := vals.validators.isEmpty

def size (vals : ValidatorSet) : Nat := vals.validators.length

def hasAddress (vals : ValidatorSet) (address : Address) : Bool :=
  vals.validators.any fun val => val.address == address

def getByAddress (vals : ValidatorSet) (address : Address) : Option (Nat × Validator) :=
  (vals.validators.zipIdx.find? fun entry => entry.1.address == address).map fun entry =>
    (entry.2, entry.1)

def getByIndex (vals : ValidatorSet) (index : Int) : Option Validator :=
  if index < 0 then none else vals.validators[index.toNat]?

def sumVotingPower : Int → List Validator → Panics Int
  | sum, [] => .ok sum
  | sum, val :: rest =>
    let next := safeAddClip sum val.votingPower
    if maxTotalVotingPower < next then
      .error
        s!"Total voting power should be guarded to not exceed {maxTotalVotingPower}; got: {next}"
    else sumVotingPower next rest

def updateTotalVotingPower (vals : ValidatorSet) : Panics ValidatorSet := do
  let sum ← sumVotingPower 0 vals.validators
  pure { vals with cachedVotingPower := sum }

def totalVotingPower (vals : ValidatorSet) : Panics Int :=
  if vals.cachedVotingPower = 0 then sumVotingPower 0 vals.validators
  else .ok vals.cachedVotingPower

def withPriorities (vals : ValidatorSet) (change : Validator → Int) : ValidatorSet :=
  { vals with validators := vals.validators.map fun val =>
      { val with proposerPriority := change val } }

def computeMaxMinPriorityDiff (vals : ValidatorSet) : Int :=
  let highest := vals.validators.foldl (fun top val => max top val.proposerPriority) minInt64
  let lowest := vals.validators.foldl (fun low val => min low val.proposerPriority) maxInt64
  let diff := int64 (highest - lowest)
  if diff < 0 then int64 (-1 * diff) else diff

def rescalePriorities (vals : ValidatorSet) (diffMax : Int) : Panics ValidatorSet :=
  if vals.isNilOrEmpty then .error "empty validator set"
  else if diffMax ≤ 0 then .ok vals
  else
    let diff := vals.computeMaxMinPriorityDiff
    let ratio := (int64 (int64 (diff + diffMax) - 1)).tdiv diffMax
    if diffMax < diff then .ok (vals.withPriorities fun val => val.proposerPriority.tdiv ratio)
    else .ok vals

def computeAvgProposerPriority (vals : ValidatorSet) : Panics Int :=
  let avg := (vals.validators.map (·.proposerPriority)).sum / vals.size
  if minInt64 ≤ avg ∧ avg ≤ maxInt64 then .ok avg
  else .error s!"Cannot represent avg ProposerPriority as an int64 {avg}"

def shiftByAvgProposerPriority (vals : ValidatorSet) : Panics ValidatorSet := do
  if vals.isNilOrEmpty then throw "empty validator set"
  let avg ← vals.computeAvgProposerPriority
  pure (vals.withPriorities fun val => safeSubClip val.proposerPriority avg)

/-- The best validator so far with its position, as the source's pointer tells
where to write. -/
def preferPosition (best : Option (Validator × Nat)) (next : Validator × Nat) :
    Panics (Option (Validator × Nat)) :=
  match best with
  | none => .ok (some next)
  | some best => do
    let winner ← best.1.compareProposerPriority next.1
    pure (some (if winner = best.1 then best else next))

def getValWithMostPriority (vals : ValidatorSet) : Panics (Option (Validator × Nat)) :=
  vals.validators.zipIdx.foldlM preferPosition none

def incrementProposerPriorityOnce (vals : ValidatorSet) : Panics ValidatorSet := do
  let raised := vals.withPriorities fun val => safeAddClip val.proposerPriority val.votingPower
  match ← raised.getValWithMostPriority with
  | none => throw "invalid memory address or nil pointer dereference"
  | some (mostest, position) =>
    let total ← raised.totalVotingPower
    let lowered := { mostest with proposerPriority := safeSubClip mostest.proposerPriority total }
    pure { raised with
      validators := raised.validators.set position lowered, proposer := some lowered }

def incrementTimes : Nat → ValidatorSet → Panics ValidatorSet
  | 0, vals => .ok vals
  | times + 1, vals => do incrementTimes times (← vals.incrementProposerPriorityOnce)

def incrementProposerPriority (vals : ValidatorSet) (times : Int) : Panics ValidatorSet := do
  if vals.isNilOrEmpty then throw "empty validator set"
  if times ≤ 0 then throw "Cannot call IncrementProposerPriority with non-positive times"
  let diffMax := int64 (priorityWindowSizeFactor * (← vals.totalVotingPower))
  let rescaled ← vals.rescalePriorities diffMax
  let shifted ← rescaled.shiftByAvgProposerPriority
  incrementTimes times.toNat shifted

def findProposer (vals : ValidatorSet) : Panics (Option Validator) :=
  vals.validators.foldlM (fun proposer val => match proposer with
    | none => .ok (some val)
    | some current =>
      if val.address ≠ current.address then some <$> current.compareProposerPriority val
      else .ok proposer) none

def getProposer (vals : ValidatorSet) : Panics (Option Validator) :=
  if vals.validators.isEmpty then .ok none
  else match vals.proposer with
    | some proposer => .ok (some proposer)
    | none => vals.findProposer

inductive ChangeSetError where
  | duplicateEntry (val : Validator) (changes : List Validator)
  | negativePower (power : Int)
  | powerTooHigh (power : Int)
  | zeroPower (deletes : List Validator)
  | emptySet
  | removalNotFound (address : Address)
  | totalVotingPowerOverflow
  deriving DecidableEq, Repr

abbrev Checked := ExceptT ChangeSetError Panics

structure Changes where
  updates : List Validator
  removals : List Validator
  deriving DecidableEq, Repr

/-- The scan of the sorted changes; `prevAddr` is nil before the first one. -/
def scanChanges (all : List Validator) : Address → Changes → List Validator →
    Checked Changes
  | _, sorted, [] => pure sorted
  | prevAddr, sorted, val :: rest =>
    if val.address = prevAddr then throw (.duplicateEntry val all)
    else if val.votingPower < 0 then throw (.negativePower val.votingPower)
    else if maxTotalVotingPower < val.votingPower then throw (.powerTooHigh val.votingPower)
    else if val.votingPower = 0 then
      scanChanges all val.address { sorted with removals := sorted.removals ++ [val] } rest
    else scanChanges all val.address { sorted with updates := sorted.updates ++ [val] } rest

def processChanges (origChanges : List Validator) : Checked Changes :=
  let changes := sortBy Validator.lessByAddress origChanges
  scanChanges changes [] ⟨[], []⟩ changes

def numNewValidators (updates : List Validator) (vals : ValidatorSet) : Nat :=
  (updates.filter fun val => !vals.hasAddress val.address).length

def removedPower (vals : ValidatorSet) : Int → List Validator → Checked Int
  | removed, [] => pure removed
  | removed, val :: rest => match vals.getByAddress val.address with
    | none => throw (.removalNotFound val.address)
    | some (_, found) => removedPower vals (int64 (removed + found.votingPower)) rest

def verifyRemovals (deletes : List Validator) (vals : ValidatorSet) : Checked Int := do
  let removed ← removedPower vals 0 deletes
  if vals.size < deletes.length then
    (Except.error "more deletes than validators" : Panics Unit)
  pure removed

def powerDelta (vals : ValidatorSet) (update : Validator) : Int :=
  match vals.getByAddress update.address with
  | some (_, val) => int64 (update.votingPower - val.votingPower)
  | none => update.votingPower

def addDeltas (vals : ValidatorSet) : Int → List Validator → Checked Int
  | tvpAfterRemovals, [] => pure tvpAfterRemovals
  | tvpAfterRemovals, update :: rest =>
    let next := int64 (tvpAfterRemovals + vals.powerDelta update)
    if maxTotalVotingPower < next then throw .totalVotingPowerOverflow
    else addDeltas vals next rest

def verifyUpdates (updates : List Validator) (vals : ValidatorSet) (removedPower : Int) :
    Checked Int := do
  let sorted := updates.insertionSort fun a b => vals.powerDelta a ≤ vals.powerDelta b
  let total ← (vals.totalVotingPower : Panics Int)
  let tvpAfterRemovals ← addDeltas vals (int64 (total - removedPower)) sorted
  pure (int64 (tvpAfterRemovals + removedPower))

def computeNewPriorities (updates : List Validator) (vals : ValidatorSet)
    (updatedTotalVotingPower : Int) : List Validator :=
  -- An arithmetic shift right by three divides by eight and rounds down.
  let joining := int64 (-(int64 (updatedTotalVotingPower + updatedTotalVotingPower / 8)))
  updates.map fun update => match vals.getByAddress update.address with
    | none => { update with proposerPriority := joining }
    | some (_, val) => { update with proposerPriority := val.proposerPriority }

def mergeInto (current : Validator) (later : List Validator)
    (mergeLater : List Validator → List Validator) : List Validator → List Validator
  | [] => current :: later
  | update :: updates =>
    match compareBytes current.address update.address with
    | .lt => current :: mergeLater (update :: updates)
    | .eq => update :: mergeLater updates
    | .gt => update :: mergeInto current later mergeLater updates

def mergeUpdates : List Validator → List Validator → List Validator
  | [], updates => updates
  | current :: later, updates => mergeInto current later (mergeUpdates later) updates

def applyUpdates (vals : ValidatorSet) (updates : List Validator) : ValidatorSet :=
  { vals with validators := mergeUpdates (sortBy Validator.lessByAddress vals.validators) updates }

def removeSorted : List Validator → List Validator → Panics (List Validator)
  | existing, [] => .ok existing
  | [], _ :: _ => .error "index out of range"
  | current :: later, val :: deletes =>
    if current.address = val.address then removeSorted later deletes
    else (current :: ·) <$> removeSorted later (val :: deletes)

def applyRemovals (vals : ValidatorSet) (deletes : List Validator) : Panics ValidatorSet := do
  let remaining ← removeSorted vals.validators deletes
  pure { vals with validators := remaining }

def checkChanges (vals : ValidatorSet) (changes : List Validator) (allowDeletes : Bool) :
    Checked (Changes × Int) := do
  let split ← processChanges changes
  if !allowDeletes && !split.removals.isEmpty then throw (.zeroPower split.removals)
  if numNewValidators split.updates vals = 0 ∧ vals.size = split.removals.length then
    throw .emptySet
  let removedVotingPower ← verifyRemovals split.removals vals
  let updatedPower ← verifyUpdates split.updates vals removedVotingPower
  pure (split, updatedPower)

def applyChanges (vals : ValidatorSet) (split : Changes) (updatedPower : Int) :
    Panics ValidatorSet := do
  let updates := computeNewPriorities split.updates vals updatedPower
  let removed ← (vals.applyUpdates updates).applyRemovals split.removals
  let totalled ← removed.updateTotalVotingPower
  let rescaled ← totalled.rescalePriorities
    (int64 (priorityWindowSizeFactor * (← totalled.totalVotingPower)))
  let shifted ← rescaled.shiftByAvgProposerPriority
  pure { shifted with validators := sortBy Validator.lessByVotingPower shifted.validators }

def updateWithChangeSet (vals : ValidatorSet) (changes : List Validator)
    (allowDeletes : Bool) : Panics (Option ChangeSetError × ValidatorSet) := do
  if changes.isEmpty then return (none, vals)
  match ← (vals.checkChanges changes allowDeletes).run with
  | .error error => pure (some error, vals)
  | .ok (split, updatedPower) =>
    let updated ← vals.applyChanges split updatedPower
    pure (none, updated)

def new (valz : List Validator) : Panics ValidatorSet := do
  let (error, vals) ← empty.updateWithChangeSet valz false
  if error.isSome then throw "Cannot create validator set"
  if valz.isEmpty then pure vals else vals.incrementProposerPriority 1

def power (vals : ValidatorSet) (index : Nat) : Int :=
  match vals.validators[index]? with
  | some val => val.votingPower
  | none => 0

/-- What `NewValidatorSet` and the changes after it establish of a set. -/
structure WellFormed (vals : ValidatorSet) : Prop where
  positive : ∀ val ∈ vals.validators, 0 < val.votingPower
  distinct : (vals.validators.map (·.address)).Nodup
  cached : vals.cachedVotingPower = (vals.validators.map (·.votingPower)).sum
  bounded : (vals.validators.map (·.votingPower)).sum ≤ maxTotalVotingPower

theorem power_nonneg {vals : ValidatorSet} (wellFormed : vals.WellFormed) (index : Nat) :
    0 ≤ vals.power index := by
  unfold power
  split
  case h_1 val found =>
    exact Int.le_of_lt (wellFormed.positive val (mem_of_getElem? found))
  case h_2 => exact Int.le_refl 0

theorem sum_by_index (validators : List Validator) (value : Validator → Int) :
    (validators.map value).sum = ∑ index ∈ Finset.range validators.length,
      match validators[index]? with
      | some val => value val
      | none => 0 := by
  induction validators with
  | nil => simp
  | cons val rest ih =>
    rw [length_cons, Finset.sum_range_succ', map_cons, sum_cons, ih]
    simp [Int.add_comm]

section

variable (vals : ValidatorSet)

theorem sum_eq_weight : (vals.validators.map (·.votingPower)).sum =
      weight vals.power (Finset.range vals.size) :=
  sum_by_index vals.validators (·.votingPower)

theorem total_voting_power_eq (wellFormed : vals.WellFormed) :
    vals.totalVotingPower = .ok (weight vals.power (Finset.range vals.size)) := by
  rw [← sum_eq_weight, totalVotingPower]
  split
  case isFalse => rw [wellFormed.cached]
  case isTrue zero =>
    have none : vals.validators = [] := by
      cases shape : vals.validators with
      | nil => rfl
      | cons val rest =>
      have positive := wellFormed.positive val (by simp [shape])
      have others : 0 ≤ (rest.map (·.votingPower)).sum := by
        apply sum_nonneg
        intro power member
        obtain ⟨other, present, rfl⟩ := mem_map.mp member
        exact Int.le_of_lt (wellFormed.positive other (by simp [shape, present]))
      have total := wellFormed.cached
      rw [zero, shape, map_cons, sum_cons] at total
      omega
    simp [none, sumVotingPower]

variable {val : Validator}

theorem get_by_index_some {index : Int} (found : vals.getByIndex index = some val) :
    0 ≤ index ∧ index.toNat < vals.size ∧ vals.power index.toNat = val.votingPower := by
  unfold getByIndex at found
  split at found
  · cases found
  · refine ⟨by omega, ?_, by simp [power, found]⟩
    exact (List.getElem?_eq_some_iff.mp found).1

theorem get_by_address_some {address : Address} {index : Nat}
    (found : vals.getByAddress address = some (index, val)) :
    vals.validators[index]? = some val ∧ val.address = address := by
  obtain ⟨⟨entry, position⟩, searched, same⟩ := Option.map_eq_some_iff.mp found
  cases same
  have matched := find?_some searched
  have member := mem_of_find?_eq_some searched
  exact ⟨by simpa using mk_mem_zipIdx_iff_getElem?.mp member, by simpa using matched⟩

theorem get_by_address_distinct (distinct : (vals.validators.map (·.address)).Nodup) (index : Nat)
    (here : vals.validators[index]? = some val) :
    vals.getByAddress val.address = some (index, val) := by
  cases found : vals.getByAddress val.address with
  | none =>
    have missing := find?_eq_none.mp (Option.map_eq_none_iff.mp found)
    have member : (val, index) ∈ vals.validators.zipIdx :=
      mk_mem_zipIdx_iff_getElem?.mpr here
    exact absurd (by simp) (missing _ member)
  | some entry =>
    obtain ⟨position, other⟩ := entry
    obtain ⟨there, same⟩ := get_by_address_some vals found
    have bound := (List.getElem?_eq_some_iff.mp there).1
    have addresses : (vals.validators.map (·.address))[position]? =
        (vals.validators.map (·.address))[index]? := by
      rw [getElem?_map, getElem?_map, here, there, Option.map_some, Option.map_some, same]
    have position_eq := (getElem?_inj (by simpa using bound) distinct).mp addresses
    rw [position_eq, here] at there
    cases there
    rw [position_eq]

theorem weight_fits (wellFormed : vals.WellFormed) {members : Finset Nat}
    (inside : members ⊆ Finset.range vals.size) :
    0 ≤ weight vals.power members ∧ weight vals.power members ≤ maxTotalVotingPower := by
  have nonneg := power_nonneg wellFormed
  have within := Quorum.weight_mono vals.power members _ inside fun index _ => nonneg index
  rw [← sum_eq_weight] at within
  exact ⟨Quorum.weight_nonneg _ _ fun index _ => nonneg index,
    Int.le_trans within wellFormed.bounded⟩

theorem double_total_exact (wellFormed : vals.WellFormed) :
    int64 (weight vals.power (Finset.range vals.size) * 2) =
      weight vals.power (Finset.range vals.size) * 2 := by
  have fits := weight_fits vals wellFormed (Finset.Subset.refl _)
  have small : maxTotalVotingPower * 2 ≤ maxInt64 := by decide
  exact int64_exact _ (by unfold minInt64; omega) (by omega)

/-- A set that is not empty has a proposer; the search compares no validator
with one of the same address. -/
theorem get_proposer_some (nonempty : vals.validators ≠ []) :
    ∃ proposer, vals.getProposer = .ok (some proposer) := by
  unfold getProposer
  rw [if_neg (by simpa using nonempty)]
  cases vals.proposer with
  | some proposer => exact ⟨proposer, rfl⟩
  | none =>
  simp only [findProposer]
  have search : ∀ (rest : List Validator) (current : Validator), ∃ proposer,
      rest.foldlM (fun proposer val => match proposer with
        | none => .ok (some val)
        | some current =>
          if val.address ≠ current.address then some <$> current.compareProposerPriority val
          else .ok proposer) (some current) = (.ok (some proposer) : Panics _) := by
    intro rest
    induction rest with
    | nil => exact fun current => ⟨current, rfl⟩
    | cons val rest ih =>
    intro current
    by_cases same : val.address = current.address
    · simpa [same] using ih current
    · obtain ⟨winner, chosen⟩ := Validator.compare_proposer_priority_ok current val
        (Ne.symm same)
      simpa [same, chosen, Functor.map, Except.map] using ih winner
  cases shape : vals.validators with
  | nil => exact absurd shape nonempty
  | cons val rest => exact search rest val

end

end ValidatorSet

end Tendermint.Types
