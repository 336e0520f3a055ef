import Tendermint.Lib.Median
import Tendermint.Types.CommitVerification
import Tendermint.Types.Params

/-!
internal/state/state.go: the State that is kept between blocks. A nil validator set is
the empty one, copying is the identity on values, serialisation is left out.

internal/state/time.go, `MedianTime`, and the times in `MakeBlock` and
`validateBlock`: the time of a block is the weighted median of the times in the
commit for the block before it. The median is taken at half of the power that
signed, rounded down, so that a faulty minority can hold it when the power that
signed is one more than twice its own.
-/

namespace Tendermint.SM

open Types List
open Quorum (weight)
open Median (pick mass)

structure Version where
  consensus : ConsensusVersion
  software : String
  deriving DecidableEq, Repr

structure State where
  version : Version
  chainID : ChainID
  initialHeight : Int
  lastBlockHeight : Int
  lastBlockID : BlockID
  lastBlockTime : Time
  nextValidators : ValidatorSet
  validators : ValidatorSet
  lastValidators : ValidatorSet
  lastHeightValidatorsChanged : Int
  consensusParams : ConsensusParams
  lastHeightConsensusParamsChanged : Int
  lastResultsHash : Bytes
  appHash : Bytes
  deriving DecidableEq, Repr

structure WeightedTime where
  time : Time
  weight : Int
  deriving DecidableEq, Repr

def unixNano (time : Time) : Int := int64 time

theorem unix_nano_exact (time : Time) (inRange : InInt64 time) : unixNano time = time := by
  unfold InInt64 at inRange
  exact int64_exact _ (by unfold minInt64; omega) (by unfold maxInt64; omega)

/-- The order of the sort: by time, the entries that are not there last. -/
def earlier : Option WeightedTime → Option WeightedTime → Bool
  | none, _ => false
  | some _, none => true
  | some first, some second => decide (unixNano first.time < unixNano second.time)

def medianWalk : Int → List (Option WeightedTime) → Time
  | _, [] => zeroTime
  | median, none :: rest => medianWalk median rest
  | median, some weighted :: rest =>
    if median ≤ weighted.weight then weighted.time
    else medianWalk (int64 (median - weighted.weight)) rest

def weightedMedian (weightedTimes : List (Option WeightedTime)) (totalVotingPower : Int) : Time :=
  medianWalk (totalVotingPower.tdiv 2)
    (weightedTimes.insertionSort fun first second => earlier second first = false)

def weightedTimeOf (validators : ValidatorSet) (sig : CommitSig) : Option WeightedTime :=
  if sig.absent then none
  else (validators.getByAddress sig.validatorAddress).map fun found =>
    ⟨sig.timestamp, found.2.votingPower⟩

def addWeight (total : Int) (weighted : Option WeightedTime) : Int :=
  match weighted with
  | some weighted => int64 (total + weighted.weight)
  | none => total

def medianTime (commit : Commit) (validators : ValidatorSet) : Time :=
  let weightedTimes := commit.signatures.map (weightedTimeOf validators)
  weightedMedian weightedTimes (weightedTimes.foldl addWeight 0)

def State.makeBlockTime (state : State) (height : Int) (commit : Commit) : Time :=
  if height = state.initialHeight then state.lastBlockTime
  else medianTime commit state.lastValidators

inductive TimeError where
  | notGreater (time lastBlockTime : Time)
  | notMedian (expected got : Time)
  | notGenesis (time genesisTime : Time)
  | lowHeight (height initialHeight : Int)
  deriving DecidableEq, Repr

def State.validateBlockTime (state : State) (block : Block) : Option TimeError :=
  if state.initialHeight < block.header.height then
    if state.lastBlockTime < block.header.time then
      let medianTime := medianTime block.lastCommit state.lastValidators
      if block.header.time = medianTime then none
      else some (.notMedian medianTime block.header.time)
    else some (.notGreater block.header.time state.lastBlockTime)
  else if block.header.height = state.initialHeight then
    if block.header.time = state.lastBlockTime then none
    else some (.notGenesis block.header.time state.lastBlockTime)
  else some (.lowHeight block.header.height state.initialHeight)

/-- After the initial height, the time a proposer puts passes the check exactly
when the median is after the time of the last block. -/
theorem made_time_passes_iff {state : State} {block : Block}
    (made : block.header.time = state.makeBlockTime block.header.height block.lastCommit)
    (later : state.initialHeight < block.header.height) :
    state.validateBlockTime block = none ↔
      state.lastBlockTime < medianTime block.lastCommit state.lastValidators := by
  rw [State.makeBlockTime, if_neg (by omega)] at made
  rw [State.validateBlockTime, if_pos later, made]
  by_cases after : state.lastBlockTime < medianTime block.lastCommit state.lastValidators
  · simp [after]
  · simp [after]

section Walk

def timePairs (weightedTimes : List (Option WeightedTime)) : List (Time × Int) :=
  weightedTimes.filterMap fun weighted => weighted.map fun weighted =>
    (weighted.time, weighted.weight)

theorem time_pairs_some (weighted : WeightedTime) (rest : List (Option WeightedTime)) :
    timePairs (some weighted :: rest) = (weighted.time, weighted.weight) :: timePairs rest := by
  simp [timePairs]

theorem median_walk_eq (weightedTimes : List (Option WeightedTime)) (median : Int)
    (nonneg : ∀ item ∈ timePairs weightedTimes, 0 ≤ item.2)
    (fits : minInt64 ≤ median ∧ median ≤ maxInt64) :
    medianWalk median weightedTimes = (pick median (timePairs weightedTimes)).getD zeroTime := by
  induction weightedTimes generalizing median with
  | nil => rfl
  | cons head rest ih =>
  cases head with
  | none => exact ih median (by simpa [timePairs] using nonneg) fits
  | some weighted =>
  rw [time_pairs_some] at nonneg ⊢
  have positive := nonneg _ mem_cons_self
  unfold medianWalk pick
  by_cases reached : median ≤ weighted.weight
  · rw [if_pos reached, if_pos reached]
    rfl
  · have exact : int64 (median - weighted.weight) = median - weighted.weight :=
      int64_exact _ (by unfold minInt64; omega) (by omega)
    rw [if_neg reached, if_neg reached, exact]
    refine ih _ (fun item member => nonneg item (mem_cons_of_mem _ member)) ?_
    unfold minInt64
    omega

def sortKey (weighted : Option WeightedTime) : WithTop Int :=
  match weighted with
  | some weighted => (unixNano weighted.time : WithTop Int)
  | none => ⊤

theorem not_earlier_iff (first second : Option WeightedTime) :
    earlier second first = false ↔ sortKey first ≤ sortKey second := by
  cases first <;> cases second <;> simp [earlier, sortKey]

instance : Std.Total fun first second : Option WeightedTime => earlier second first = false where
  total first second := by
    rw [not_earlier_iff, not_earlier_iff]
    exact le_total _ _

instance : IsTrans (Option WeightedTime) fun first second => earlier second first = false where
  trans first second third := by
    simp only [not_earlier_iff]
    exact le_trans

theorem time_pairs_sorted (weightedTimes : List (Option WeightedTime))
    (sorted : weightedTimes.Pairwise fun first second => earlier second first = false)
    (inRange : ∀ item ∈ timePairs weightedTimes, InInt64 item.1) :
    (timePairs weightedTimes).Pairwise fun first second => first.1 ≤ second.1 := by
  induction weightedTimes with
  | nil => exact List.Pairwise.nil
  | cons head rest ih =>
  obtain ⟨first, later⟩ := pairwise_cons.mp sorted
  cases head with
  | none => exact ih later (by simpa [timePairs] using inRange)
  | some weighted =>
  refine pairwise_cons.mpr ⟨?_, ih later fun item member => inRange item (mem_cons_of_mem _ member)⟩
  intro item member
  have own := inRange _ mem_cons_self
  have other := inRange item (mem_cons_of_mem _ member)
  obtain ⟨entry, present, found⟩ := mem_filterMap.mp member
  obtain ⟨next, rfl, rfl⟩ := Option.map_eq_some_iff.mp found
  have order : unixNano weighted.time ≤ unixNano next.time :=
    Int.not_lt.mp (of_decide_eq_false (first _ present))
  rw [unix_nano_exact _ own, unix_nano_exact _ other] at order
  exact order

theorem total_weight_eq (weightedTimes : List (Option WeightedTime)) (start : Int)
    (low : 0 ≤ start) (nonneg : ∀ item ∈ timePairs weightedTimes, 0 ≤ item.2)
    (fits : start + mass (fun _ => true) (timePairs weightedTimes) ≤ maxInt64) :
    weightedTimes.foldl addWeight start =
      start + mass (fun _ => true) (timePairs weightedTimes) := by
  induction weightedTimes generalizing start with
  | nil => simp [timePairs, mass]
  | cons head rest ih =>
  cases head with
  | none =>
    exact ih start low nonneg fits
  | some weighted =>
  rw [time_pairs_some, Median.mass_cons, if_pos rfl] at fits ⊢
  rw [time_pairs_some] at nonneg
  have own := nonneg _ mem_cons_self
  have later := fun item member => nonneg item (mem_cons_of_mem _ member)
  have restNonneg := Median.mass_nonneg (fun _ => true) later
  have exact : int64 (start + weighted.weight) = start + weighted.weight :=
    int64_exact _ (by unfold minInt64; omega) (by omega)
  rw [foldl_cons, addWeight, exact, ih _ (by omega) later (by omega)]
  omega

end Walk

section Commit

variable (vals : ValidatorSet) (commit : Commit)

def signers : Finset Nat :=
  (Finset.range commit.signatures.length).filter fun index =>
    (commit.signatures[index]?.any fun sig => !sig.absent) = true

def stampAt (index : Nat) : Time := (commit.signatures[index]?.map (·.timestamp)).getD zeroTime

theorem mem_signers (index : Nat) :
    index ∈ signers commit ↔ ∃ sig, commit.signatures[index]? = some sig ∧ sig.absent = false := by
  rw [signers, Finset.mem_filter, Finset.mem_range]
  constructor
  · rintro ⟨_, present⟩
    simpa [Option.any_eq_true] using present
  · rintro ⟨sig, found, present⟩
    exact ⟨(List.getElem?_eq_some_iff.mp found).1, by simp [found, present]⟩

/-- Each signature that is not absent carries its own validator's address. -/
structure OwnAddresses : Prop where
  length : commit.signatures.length = vals.size
  address : ∀ (index : Nat) (sig : CommitSig), commit.signatures[index]? = some sig →
    sig.absent = false →
    ∃ val : Validator, vals.validators[index]? = some val ∧ sig.validatorAddress = val.address

variable {vals commit}

theorem signers_subset (own : OwnAddresses vals commit) :
    signers commit ⊆ Finset.range vals.size := by
  rw [← own.length]
  exact Finset.filter_subset _ _

theorem weighted_time_at (wellFormed : vals.WellFormed) (own : OwnAddresses vals commit)
    (index : Nat) {sig : CommitSig} (found : commit.signatures[index]? = some sig) :
    weightedTimeOf vals sig =
      if sig.absent then none else some ⟨sig.timestamp, vals.power index⟩ := by
  unfold weightedTimeOf
  split
  · rfl
  · rename_i present
    obtain ⟨val, here, address⟩ := own.address index sig found (by simpa using present)
    rw [address, ValidatorSet.get_by_address_distinct vals wellFormed.distinct index here]
    simp [ValidatorSet.power, here]

theorem weighted_times_eq (wellFormed : vals.WellFormed) (own : OwnAddresses vals commit) :
    commit.signatures.map (weightedTimeOf vals) = commit.signatures.zipIdx.map fun entry =>
      if entry.1.absent then none else some ⟨entry.1.timestamp, vals.power entry.2⟩ := by
  apply ext_getElem (by simp)
  intro index inside _
  rw [length_map] at inside
  simp [weighted_time_at wellFormed own index (getElem?_eq_getElem inside)]

theorem mass_of_pairs (keep : Time → Bool) (weightedTimes : List (Option WeightedTime)) :
    mass keep (timePairs weightedTimes) = (weightedTimes.map fun weighted =>
      (weighted.map fun weighted =>
        if keep weighted.time then weighted.weight else 0).getD 0).sum := by
  induction weightedTimes with
  | nil => rfl
  | cons head rest ih =>
  cases head with
  | none => simpa [timePairs] using ih
  | some weighted =>
  rw [time_pairs_some, Median.mass_cons, ih]
  simp

section

variable (wellFormed : vals.WellFormed) (own : OwnAddresses vals commit)

include wellFormed own

theorem mass_eq_weight (keep : Time → Bool) :
    mass keep (timePairs (commit.signatures.map (weightedTimeOf vals))) =
      weight vals.power
        ((signers commit).filter fun index => keep (stampAt commit index) = true) := by
  rw [mass_of_pairs, weighted_times_eq wellFormed own, map_map, sum_zip_idx, weight,
    signers, Finset.filter_filter, Finset.sum_filter]
  apply Finset.sum_congr rfl
  intro index member
  have inside := Finset.mem_range.mp member
  cases absent : commit.signatures[index].absent <;> simp [stampAt, inside, absent]

theorem pair_facts {item : Time × Int}
    (member : item ∈ timePairs (commit.signatures.map (weightedTimeOf vals))) :
    ∃ index ∈ signers commit, item = (stampAt commit index, vals.power index) := by
  obtain ⟨weighted, present, found⟩ := mem_filterMap.mp member
  obtain ⟨entry, rfl, rfl⟩ := Option.map_eq_some_iff.mp found
  obtain ⟨sig, listed, same⟩ := mem_map.mp present
  obtain ⟨index, inside, rfl⟩ := getElem_of_mem listed
  have here := getElem?_eq_getElem inside
  rw [weighted_time_at wellFormed own index here] at same
  split at same
  · cases same
  · rename_i notAbsent
    cases same
    exact ⟨index, (mem_signers commit index).mpr ⟨_, here, by simpa using notAbsent⟩,
      by simp [stampAt, here]⟩

theorem signer_pair_mem {index : Nat} (signer : index ∈ signers commit) :
    (stampAt commit index, vals.power index) ∈
      timePairs (commit.signatures.map (weightedTimeOf vals)) := by
  obtain ⟨sig, found, present⟩ := (mem_signers commit index).mp signer
  have listed : weightedTimeOf vals sig ∈ commit.signatures.map (weightedTimeOf vals) :=
    mem_map_of_mem (mem_of_getElem? found)
  rw [weighted_time_at wellFormed own index found, present] at listed
  exact mem_filterMap.mpr ⟨_, listed, by simp [stampAt, found]⟩

end

def sortedPairs (vals : ValidatorSet) (commit : Commit) : List (Time × Int) :=
  timePairs ((commit.signatures.map (weightedTimeOf vals)).insertionSort
    fun first second => earlier second first = false)

theorem sorted_pairs_perm (vals : ValidatorSet) (commit : Commit) :
    (sortedPairs vals commit).Perm (timePairs (commit.signatures.map (weightedTimeOf vals))) :=
  (perm_insertionSort _ _).filterMap _

section

variable (wellFormed : vals.WellFormed) (own : OwnAddresses vals commit)

include wellFormed own

theorem sorted_pairs_nonneg : ∀ item ∈ sortedPairs vals commit, 0 ≤ item.2 := by
  intro item member
  obtain ⟨index, _, rfl⟩ :=
    pair_facts wellFormed own ((sorted_pairs_perm vals commit).mem_iff.mp member)
  exact ValidatorSet.power_nonneg wellFormed index

theorem sorted_mass_eq (keep : Time → Bool) : mass keep (sortedPairs vals commit) =
      weight vals.power
        ((signers commit).filter fun index => keep (stampAt commit index) = true) := by
  rw [Median.mass_perm (sorted_pairs_perm vals commit), mass_eq_weight wellFormed own]

theorem whole_mass_eq :
    mass (fun _ => true) (sortedPairs vals commit) = weight vals.power (signers commit) := by
  rw [sorted_mass_eq wellFormed own]
  simp

theorem sorted_pairs_sorted (inRange : ∀ index ∈ signers commit, InInt64 (stampAt commit index)) :
    (sortedPairs vals commit).Pairwise fun first second => first.1 ≤ second.1 := by
  refine time_pairs_sorted _ (pairwise_insertionSort _ _) ?_
  intro item member
  obtain ⟨index, signer, rfl⟩ :=
    pair_facts wellFormed own ((sorted_pairs_perm vals commit).mem_iff.mp member)
  exact inRange index signer

theorem median_time_picked (signed : (signers commit).Nonempty) :
    pick (weight vals.power (signers commit) / 2) (sortedPairs vals commit) =
      some (medianTime commit vals) := by
  have bounds := ValidatorSet.weight_fits vals wellFormed (signers_subset own)
  have small : maxTotalVotingPower ≤ maxInt64 := by decide
  have nonneg := sorted_pairs_nonneg wellFormed own
  have whole := whole_mass_eq wellFormed own
  have perm := sorted_pairs_perm vals commit
  have total : (commit.signatures.map (weightedTimeOf vals)).foldl addWeight 0 =
      weight vals.power (signers commit) := by
    rw [total_weight_eq _ 0 (Int.le_refl 0) (fun item member =>
      nonneg item (perm.mem_iff.mpr member))
      (by rw [← Median.mass_perm perm, whole]; omega), ← Median.mass_perm perm, whole,
      Int.zero_add]
  have nonempty : sortedPairs vals commit ≠ [] := by
    obtain ⟨index, signer⟩ := signed
    exact ne_nil_of_mem (perm.mem_iff.mpr (signer_pair_mem wellFormed own signer))
  obtain ⟨value, picked⟩ := Median.pick_some (weight vals.power (signers commit) / 2) _ nonempty
    (by rw [whole]; omega)
  have result : medianTime commit vals =
      medianWalk ((weight vals.power (signers commit)).tdiv 2)
        ((commit.signatures.map (weightedTimeOf vals)).insertionSort
          fun first second => earlier second first = false) := by
    rw [← total]
    rfl
  have half : (weight vals.power (signers commit)).tdiv 2 =
      weight vals.power (signers commit) / 2 := Int.tdiv_eq_ediv_of_nonneg bounds.1
  rw [half, median_walk_eq _ _ nonneg (by unfold minInt64; omega)] at result
  rw [result]
  exact picked.trans (congrArg some (by rw [← sortedPairs, picked, Option.getD_some]))

theorem median_time_spec (inRange : ∀ index ∈ signers commit, InInt64 (stampAt commit index))
    (signed : (signers commit).Nonempty) :
    (∃ index ∈ signers commit, medianTime commit vals = stampAt commit index) ∧
    weight vals.power (signers commit) / 2 ≤ weight vals.power ((signers commit).filter fun index =>
      stampAt commit index ≤ medianTime commit vals) ∧
    ((∃ index ∈ signers commit, stampAt commit index < medianTime commit vals) →
      weight vals.power ((signers commit).filter fun index =>
        stampAt commit index < medianTime commit vals) <
          weight vals.power (signers commit) / 2) := by
  have picked := median_time_picked wellFormed own signed
  have sorted := sorted_pairs_sorted wellFormed own inRange
  have reaches := Median.pick_reaches _ _ _ sorted (sorted_pairs_nonneg wellFormed own) picked
  have below := Median.pick_below _ _ _ sorted picked
  rw [sorted_mass_eq wellFormed own] at reaches below
  simp only [decide_eq_true_eq] at reaches below
  have perm := sorted_pairs_perm vals commit
  refine ⟨?_, reaches, ?_⟩
  · obtain ⟨power, member⟩ := Median.pick_mem picked
    obtain ⟨index, signer, same⟩ := pair_facts wellFormed own (perm.mem_iff.mp member)
    exact ⟨index, signer, congrArg Prod.fst same⟩
  · rintro ⟨index, signer, before⟩
    exact below ⟨_, perm.mem_iff.mpr (signer_pair_mem wellFormed own signer), before⟩

end

end Commit

section Honest

variable {vals : ValidatorSet} {commit : Commit} (faulty : Finset Nat)

/-- The faulty signers with times before those of all the other signers. -/
def early (commit : Commit) : Finset Nat :=
  (signers commit ∩ faulty).filter fun index =>
    ∀ other ∈ signers commit \ faulty, stampAt commit index < stampAt commit other

variable {faulty}

theorem mem_early (index : Nat) : index ∈ early faulty commit ↔
    (index ∈ signers commit ∧ index ∈ faulty) ∧
      ∀ other ∈ signers commit \ faulty, stampAt commit index < stampAt commit other := by
  rw [early, Finset.mem_filter, Finset.mem_inter]

theorem power_pos (wellFormed : vals.WellFormed) (own : OwnAddresses vals commit) (index : Nat)
    (signer : index ∈ signers commit) : 0 < vals.power index := by
  have inside := Finset.mem_range.mp (signers_subset own signer)
  have found : vals.validators[index]? = some vals.validators[index] :=
    getElem?_eq_getElem inside
  rw [ValidatorSet.power, found]
  exact wellFormed.positive _ (getElem_mem inside)

variable (few : 3 * weight vals.power (faulty ∩ Finset.range vals.size) <
    weight vals.power (Finset.range vals.size))
  (most : 2 * weight vals.power (Finset.range vals.size) < 3 * weight vals.power (signers commit))

include few most

section

variable (wellFormed : vals.WellFormed) (own : OwnAddresses vals commit)

include wellFormed own

theorem honest_majority :
    weight vals.power (signers commit) < 2 * weight vals.power (signers commit \ faulty) := by
  have nonneg := ValidatorSet.power_nonneg wellFormed
  have split : weight vals.power (signers commit ∩ faulty) +
      weight vals.power (signers commit \ faulty) = weight vals.power (signers commit) :=
    Finset.sum_inter_add_sum_sdiff _ _ _
  have shared : weight vals.power (signers commit ∩ faulty) ≤
      weight vals.power (faulty ∩ Finset.range vals.size) := by
    refine Quorum.weight_mono _ _ _ ?_ fun index _ => nonneg index
    intro index member
    have both := Finset.mem_inter.mp member
    exact Finset.mem_inter.mpr ⟨both.2, signers_subset own both.1⟩
  omega

theorem honest_signer : (signers commit \ faulty).Nonempty := by
  have majority := honest_majority few most wellFormed own
  have signed := (ValidatorSet.weight_fits vals wellFormed (signers_subset own)).1
  by_contra none
  rw [Finset.not_nonempty_iff_eq_empty.mp none] at majority
  have zero : weight vals.power ∅ = 0 := rfl
  omega

theorem median_time_at_most (inRange : ∀ index ∈ signers commit, InInt64 (stampAt commit index)) :
    ∃ high ∈ signers commit \ faulty, medianTime commit vals ≤ stampAt commit high := by
  have majority := honest_majority few most wellFormed own
  obtain ⟨honest, member⟩ := honest_signer few most wellFormed own
  have honestSigns := (Finset.mem_sdiff.mp member).1
  obtain ⟨_, _, below⟩ := median_time_spec wellFormed own inRange ⟨honest, honestSigns⟩
  by_contra none
  push Not at none
  have lower := below ⟨honest, honestSigns, none honest member⟩
  have covered : weight vals.power (signers commit \ faulty) ≤
      weight vals.power ((signers commit).filter fun index =>
        stampAt commit index < medianTime commit vals) := by
    refine Quorum.weight_mono _ _ _ ?_ fun index _ => ValidatorSet.power_nonneg wellFormed index
    intro index other
    exact Finset.mem_filter.mpr ⟨(Finset.mem_sdiff.mp other).1, none index other⟩
  omega

theorem median_time_at_least_iff
    (inRange : ∀ index ∈ signers commit, InInt64 (stampAt commit index)) :
    (∃ low ∈ signers commit \ faulty, stampAt commit low ≤ medianTime commit vals) ↔
      weight vals.power (early faulty commit) = 0 ∨
      weight vals.power (early faulty commit) < weight vals.power (signers commit) / 2 := by
  obtain ⟨honest, member⟩ := honest_signer few most wellFormed own
  obtain ⟨⟨middle, signs, same⟩, reaches, below⟩ :=
    median_time_spec wellFormed own inRange ⟨honest, (Finset.mem_sdiff.mp member).1⟩
  have nonneg := ValidatorSet.power_nonneg wellFormed
  constructor
  · rintro ⟨low, lowMember, least⟩
    by_cases none : early faulty commit = ∅
    · exact Or.inl (by rw [none]; rfl)
    · right
      have before : early faulty commit ⊆ (signers commit).filter fun index =>
          stampAt commit index < medianTime commit vals := by
        intro index first
        obtain ⟨⟨signer, _⟩, earlier⟩ := (mem_early index).mp first
        exact Finset.mem_filter.mpr ⟨signer, lt_of_lt_of_le (earlier low lowMember) least⟩
      obtain ⟨index, first⟩ := Finset.nonempty_iff_ne_empty.mpr none
      have lower := below ⟨index, Finset.mem_filter.mp (before first)⟩
      have covered := Quorum.weight_mono vals.power _ _ before fun index _ => nonneg index
      omega
  · intro held
    by_contra none
    push Not at none
    have upTo : (signers commit).filter (fun index =>
        stampAt commit index ≤ medianTime commit vals) ⊆ early faulty commit := by
      intro index first
      obtain ⟨signer, atMost⟩ := Finset.mem_filter.mp first
      refine (mem_early index).mpr ⟨⟨signer, ?_⟩, fun other honestOther =>
        lt_of_le_of_lt atMost (none other honestOther)⟩
      by_contra honestIndex
      exact absurd atMost (not_le.mpr (none index (Finset.mem_sdiff.mpr ⟨signer, honestIndex⟩)))
    have covered := Quorum.weight_mono vals.power _ _ upTo fun index _ => nonneg index
    -- the signer whose time was picked is early, so that the early power is not zero
    have picked : middle ∈ early faulty commit :=
      upTo (Finset.mem_filter.mpr ⟨signs, by rw [same]⟩)
    have own := Quorum.weight_mono vals.power {middle} _ (Finset.singleton_subset_iff.mpr picked)
      fun index _ => nonneg index
    have alone : weight vals.power {middle} = vals.power middle := Finset.sum_singleton _ _
    have positive := power_pos wellFormed ‹OwnAddresses vals commit› middle signs
    omega

end

/-- The median lies between times of signers that are not faulty exactly when
the faulty ones that come before all of those hold less than half of the power
that signed, rounded down. -/
theorem median_time_bounded_iff (wellFormed : vals.WellFormed) (own : OwnAddresses vals commit)
    (inRange : ∀ index ∈ signers commit, InInt64 (stampAt commit index)) :
    (∃ low ∈ signers commit \ faulty, ∃ high ∈ signers commit \ faulty,
      stampAt commit low ≤ medianTime commit vals ∧
      medianTime commit vals ≤ stampAt commit high) ↔
      weight vals.power (early faulty commit) = 0 ∨
      weight vals.power (early faulty commit) < weight vals.power (signers commit) / 2 := by
  rw [← median_time_at_least_iff few most wellFormed own inRange]
  constructor
  · rintro ⟨low, lowMember, _, _, least, _⟩
    exact ⟨low, lowMember, least⟩
  · rintro ⟨low, lowMember, least⟩
    obtain ⟨high, highMember, most⟩ := median_time_at_most few most wellFormed own inRange
    exact ⟨low, lowMember, high, highMember, least, most⟩

/-- Whatever the times of the faulty signers, the median is bounded unless the
power that signed is one more than twice theirs. -/
theorem early_below_half (wellFormed : vals.WellFormed) (own : OwnAddresses vals commit)
    (other : weight vals.power (signers commit) ≠
      2 * weight vals.power (signers commit ∩ faulty) + 1) :
    weight vals.power (early faulty commit) < weight vals.power (signers commit) / 2 := by
  have majority := honest_majority few most wellFormed own
  have nonneg := ValidatorSet.power_nonneg wellFormed
  have within : weight vals.power (early faulty commit) ≤
      weight vals.power (signers commit ∩ faulty) :=
    Quorum.weight_mono _ _ _ (Finset.filter_subset _ _) fun index _ => nonneg index
  have split : weight vals.power (signers commit ∩ faulty) +
      weight vals.power (signers commit \ faulty) = weight vals.power (signers commit) :=
    Finset.sum_inter_add_sum_sdiff _ _ _
  omega

end Honest

def fourEqual : ValidatorSet where
  validators := [⟨[1], ⟨.ed25519, [1]⟩, 1, 0⟩, ⟨[2], ⟨.ed25519, [2]⟩, 1, 0⟩,
    ⟨[3], ⟨.ed25519, [3]⟩, 1, 0⟩, ⟨[4], ⟨.ed25519, [4]⟩, 1, 0⟩]
  proposer := none
  cachedVotingPower := 4

theorem four_equal_well_formed : fourEqual.WellFormed :=
  ⟨by decide, by decide, by decide, by decide⟩

def fourSigned (last : Time) : Commit :=
  ⟨1, 0, ⟨[], ⟨0, []⟩⟩, [⟨.commit, [1], 10, [7]⟩, ⟨.commit, [2], 20, [7]⟩,
    ⟨.commit, [3], 30, [7]⟩, ⟨.commit, [4], last, [7]⟩]⟩

def threeSigned : Commit :=
  ⟨1, 0, ⟨[], ⟨0, []⟩⟩, [⟨.commit, [1], 10, [7]⟩, ⟨.commit, [2], 20, [7]⟩,
    ⟨.absent, [], zeroTime, []⟩, ⟨.commit, [4], 0, [7]⟩]⟩

theorem median_time_bounded_four :
    ∃ low ∈ signers (fourSigned 0) \ {3}, ∃ high ∈ signers (fourSigned 0) \ {3},
      stampAt (fourSigned 0) low ≤ medianTime (fourSigned 0) fourEqual ∧
      medianTime (fourSigned 0) fourEqual ≤ stampAt (fourSigned 0) high := by
  have own : OwnAddresses fourEqual (fourSigned 0) := by
    refine ⟨rfl, ?_⟩
    intro index sig found present
    match index, found with
    | 0, found | 1, found | 2, found | 3, found =>
      cases found
      exact ⟨_, rfl, rfl⟩
  have few : 3 * weight fourEqual.power ({3} ∩ Finset.range fourEqual.size) <
      weight fourEqual.power (Finset.range fourEqual.size) := by decide
  have most : 2 * weight fourEqual.power (Finset.range fourEqual.size) <
      3 * weight fourEqual.power (signers (fourSigned 0)) := by decide
  exact (median_time_bounded_iff few most four_equal_well_formed own
    (by unfold InInt64; decide)).mpr
    (Or.inr (early_below_half few most four_equal_well_formed own (by decide)))

/-- One faulty validator of four sets the time before those of the two others
that signed. -/
theorem faulty_time_is_median :
    fourEqual.WellFormed ∧ OwnAddresses fourEqual threeSigned ∧
    3 * weight fourEqual.power ({3} ∩ Finset.range fourEqual.size) <
      weight fourEqual.power (Finset.range fourEqual.size) ∧
    2 * weight fourEqual.power (Finset.range fourEqual.size) <
      3 * weight fourEqual.power (signers threeSigned) ∧
    (∀ index ∈ signers threeSigned, InInt64 (stampAt threeSigned index)) ∧
    medianTime threeSigned fourEqual = 0 ∧
    ∀ honest ∈ signers threeSigned \ {3}, 0 < stampAt threeSigned honest := by
  refine ⟨four_equal_well_formed, ⟨rfl, ?_⟩, by decide, by decide, by unfold InInt64; decide,
    by decide, by decide⟩
  intro index sig found present
  match index, found with
  | 0, found | 1, found | 3, found =>
    cases found
    exact ⟨_, rfl, rfl⟩
  | 2, found =>
    cases found
    cases present

end Tendermint.SM
