import Tendermint.Types.CommitSoundness

/-!
light/verifier.go: the trust level of the light client, and what acceptance of a
commit at a trust level proves. The numerator and the denominator are unsigned
while the powers are signed, so a denominator of 2^63 or more turns negative in
the conversion and the power that is needed with it.
-/

namespace Tendermint.Types

open Quorum (weight)

def Fraction.toString (fraction : Fraction) : String :=
  s!"{fraction.numerator}/{fraction.denominator}"

def Fraction.Typed (fraction : Fraction) : Prop :=
  fraction.numerator < 2 ^ 64 ∧ fraction.denominator < 2 ^ 64

end Tendermint.Types

namespace Tendermint.Light

open Types
open Quorum (weight)

def validateTrustLevel (lvl : Fraction) : Option String :=
  if lvl.numerator * 3 % 2 ^ 64 < lvl.denominator ∨ lvl.denominator ≤ lvl.numerator ∨
      lvl.denominator = 0 then
    some s!"trustLevel must be within [1/3, 1], given {lvl.toString}"
  else none

theorem validate_trust_level_ok {lvl : Fraction} (valid : validateTrustLevel lvl = none) :
    lvl.numerator < lvl.denominator := by
  unfold validateTrustLevel at valid
  split at valid
  · cases valid
  · omega

theorem safe_mul_nonneg {a b : Int} (left : 0 ≤ a) (right : 0 ≤ b) :
    safeMul a b = if a * b ≤ maxInt64 then (a * b, false) else (0, true) := by
  unfold safeMul
  by_cases zero : a = 0 ∨ b = 0
  · have product : a * b = 0 := by
      rcases zero with rfl | rfl <;> simp
    rw [if_pos zero, product, if_pos (by decide)]
  rw [if_neg zero]
  have positive : 0 < b := by omega
  have divided : maxInt64.tdiv b < a ↔ maxInt64 < a * b := by
    rw [Int.tdiv_eq_ediv_of_nonneg (by decide), Int.ediv_lt_iff_lt_mul positive]
  simp only [if_neg (Int.not_lt.mpr left), if_neg (Int.not_lt.mpr right), divided]
  by_cases fits : a * b ≤ maxInt64
  · have low : 0 ≤ a * b := Int.mul_nonneg left right
    rw [if_neg (Int.not_lt.mpr fits), if_pos fits, int64_exact _ (by unfold minInt64; omega) fits]
  · rw [if_pos (Int.not_le.mp fits), if_neg fits]

theorem int64_of_nat {value : Nat} (typed : value < 2 ^ 64) :
    int64 value = if value < 2 ^ 63 then (value : Int) else (value : Int) - 2 ^ 64 := by
  unfold int64
  rw [Int.bmod_def]
  split <;> split <;> omega

section Soundness

variable (crypto : Crypto) (vals : ValidatorSet)

def total : Int := weight vals.power (Finset.range vals.size)

/-- The trust level keeps its value for this set: both conversions are exact, or
the numerator turns negative as well and nothing is accepted, or the negative
denominator does not divide the scaled power, or the product overflows. -/
def TrustFits (trustLevel : Fraction) : Prop :=
  trustLevel.denominator < 2 ^ 63 ∨ 2 ^ 63 ≤ trustLevel.numerator ∨
    total vals * trustLevel.numerator + trustLevel.denominator < 2 ^ 64 ∨
    2 ^ 63 ≤ total vals * trustLevel.numerator

theorem full_counts_for_block (sig : CommitSig) (_kept : fullMode.ignoreSig sig = false)
    (counts : fullMode.countSig sig = true) : sig.forBlock = true := counts

theorem light_counts_for_block (sig : CommitSig) (kept : lightMode.ignoreSig sig = false)
    (_counts : lightMode.countSig sig = true) : sig.forBlock = true := by
  simpa [lightMode] using kept

theorem trusting_counts_for_block (sig : CommitSig) (kept : trustingMode.ignoreSig sig = false)
    (_counts : trustingMode.countSig sig = true) : sig.forBlock = true := by
  simpa [trustingMode] using kept

theorem total_bounds (wellFormed : vals.WellFormed) :
    0 ≤ total vals ∧ total vals ≤ maxTotalVotingPower :=
  ValidatorSet.weight_fits vals wellFormed (Finset.Subset.refl _)

variable {crypto vals} in
theorem signers_at_most_total (wellFormed : vals.WellFormed) {chainID : ChainID}
    {commit : Commit} {power : Int} (signers : SignersWith crypto chainID vals commit power) :
    0 ≤ power ∧ power ≤ total vals := by
  obtain ⟨members, inside, _, rfl⟩ := signers
  exact ⟨(ValidatorSet.weight_fits vals wellFormed inside).1,
    Quorum.weight_mono _ _ _ inside fun index _ => ValidatorSet.power_nonneg wellFormed index⟩

variable {trustLevel : Fraction} {multiplied : Int}

theorem trusting_needed (wellFormed : vals.WellFormed) {chainID : ChainID} {commit : Commit}
    (accepted : verifyCommitLightTrusting crypto chainID vals commit trustLevel = .ok none) :
    ∃ multiplied, safeMul (total vals) (int64 trustLevel.numerator) = (multiplied, false) ∧
      verifyCommitWith crypto chainID vals commit
        (multiplied.tdiv (int64 trustLevel.denominator)) trustingMode = .ok none := by
  unfold verifyCommitLightTrusting at accepted
  split at accepted
  · cases accepted
  rw [ValidatorSet.total_voting_power_eq _ wellFormed] at accepted
  cases product : safeMul (total vals) (int64 trustLevel.numerator) with
  | mk multiplied overflow =>
  rw [total] at product
  simp only [bind_eq, pure_eq, product] at accepted
  cases overflow with
  | true => cases accepted
  | false => exact ⟨multiplied, rfl, accepted⟩

theorem needed_small (ordered : trustLevel.numerator < trustLevel.denominator)
    (small : trustLevel.denominator < 2 ^ 63) (wellFormed : vals.WellFormed) {power : Int}
    (product : safeMul (total vals) (int64 trustLevel.numerator) = (multiplied, false))
    (above : multiplied.tdiv (int64 trustLevel.denominator) < power) :
    total vals * trustLevel.numerator < power * trustLevel.denominator := by
  have bounds := total_bounds vals wellFormed
  rw [int64_of_nat (by omega), if_pos (by omega),
    safe_mul_nonneg bounds.1 (Int.natCast_nonneg _)] at product
  rw [int64_of_nat (by omega), if_pos small] at above
  split at product
  case isFalse => cases product
  case isTrue =>
    cases product
    rw [Int.tdiv_eq_ediv_of_nonneg (Int.mul_nonneg bounds.1 (Int.natCast_nonneg _))] at above
    exact (Int.ediv_lt_iff_lt_mul (by omega)).mp above

theorem needed_negative (typed : trustLevel.Typed)
    (ordered : trustLevel.numerator < trustLevel.denominator)
    (large : 2 ^ 63 ≤ trustLevel.numerator) (wellFormed : vals.WellFormed)
    (product : safeMul (total vals) (int64 trustLevel.numerator) = (multiplied, false)) :
    total vals ≤ multiplied.tdiv (int64 trustLevel.denominator) := by
  have bounds := total_bounds vals wellFormed
  obtain ⟨numerator, denominator⟩ := trustLevel
  simp only [Fraction.Typed] at *
  rw [int64_of_nat typed.1, if_neg (by omega)] at product
  rw [int64_of_nat typed.2, if_neg (by omega)]
  generalize total vals = power at *
  by_cases zero : power = 0
  · subst zero
    simp only [safeMul, true_or, if_true, Prod.mk.injEq, and_true] at product
    rw [← product, Int.zero_tdiv]
  unfold safeMul at product
  rw [if_neg (by omega)] at product
  simp only [if_pos (show (numerator : Int) - 2 ^ 64 < 0 by omega),
    if_neg (Int.not_lt.mpr bounds.1)] at product
  split at product
  · cases product
  rename_i fits
  simp only [Prod.mk.injEq, and_true] at product
  by_cases edge : numerator = 2 ^ 63
  · exfalso
    apply fits
    subst edge
    have wrapped : int64 (-(((2 ^ 63 : Nat) : Int) - 2 ^ 64)) = -2 ^ 63 := by decide
    have quotient : maxInt64.tdiv (-2 ^ 63) = 0 := by decide
    rw [wrapped, quotient]
    omega
  have magnitude : int64 (-((numerator : Int) - 2 ^ 64)) = 2 ^ 64 - numerator := by
    rw [int64_exact _ (by unfold minInt64; omega) (by unfold maxInt64; omega)]
    omega
  rw [magnitude, Int.tdiv_eq_ediv_of_nonneg (by decide),
    Int.ediv_lt_iff_lt_mul (by omega), Int.not_lt] at fits
  have flipped : power * ((numerator : Int) - 2 ^ 64) = -(power * (2 ^ 64 - numerator)) := by
    rw [← Int.mul_neg]
    congr 1
    omega
  have low : 0 ≤ power * (2 ^ 64 - (numerator : Int)) := Int.mul_nonneg bounds.1 (by omega)
  rw [flipped, int64_exact _ (by unfold minInt64; unfold maxInt64 at fits; omega)
    (by unfold maxInt64; omega)] at product
  rw [← product, show (denominator : Int) - 2 ^ 64 = -(2 ^ 64 - denominator) by omega,
    Int.neg_tdiv, Int.tdiv_neg, Int.neg_neg, Int.tdiv_eq_ediv_of_nonneg low,
    Int.le_ediv_iff_mul_le (by omega)]
  exact Int.mul_le_mul_of_nonneg_left (by omega) bounds.1

theorem needed_mixed (typed : trustLevel.Typed) (large : 2 ^ 63 ≤ trustLevel.denominator)
    (small : trustLevel.numerator < 2 ^ 63) (wellFormed : vals.WellFormed)
    (product : safeMul (total vals) (int64 trustLevel.numerator) = (multiplied, false)) :
    multiplied = total vals * trustLevel.numerator ∧ multiplied < 2 ^ 63 ∧
      (multiplied.tdiv (int64 trustLevel.denominator) < 0 ↔
        2 ^ 64 ≤ multiplied + trustLevel.denominator) ∧
      multiplied.tdiv (int64 trustLevel.denominator) ≤ 0 := by
  have bounds := total_bounds vals wellFormed
  rw [int64_of_nat typed.1, if_pos small,
    safe_mul_nonneg bounds.1 (Int.natCast_nonneg _)] at product
  have nonneg : 0 ≤ total vals * trustLevel.numerator :=
    Int.mul_nonneg bounds.1 (Int.natCast_nonneg _)
  split at product
  case isFalse => cases product
  case isTrue fits =>
    cases product
    have positive : 0 < (2 ^ 64 : Int) - trustLevel.denominator := by
      have := typed.2
      omega
    rw [int64_of_nat typed.2, if_neg (by omega),
      show (trustLevel.denominator : Int) - 2 ^ 64 = -(2 ^ 64 - trustLevel.denominator) by omega,
      Int.tdiv_neg, Int.tdiv_eq_ediv_of_nonneg nonneg]
    have quotient := Int.ediv_nonneg nonneg (Int.le_of_lt positive)
    have step := Int.le_ediv_iff_mul_le (a := 1) (b := total vals * trustLevel.numerator) positive
    unfold maxInt64 at fits
    refine ⟨rfl, by omega, ?_, by omega⟩
    constructor
    · intro negative
      omega
    · intro reached
      omega

theorem trusting_signers (faithful : crypto.BatchFaithful) (wellFormed : vals.WellFormed)
    (typed : trustLevel.Typed) (ordered : trustLevel.numerator < trustLevel.denominator)
    (fits : TrustFits vals trustLevel) (chainID : ChainID) (commit : Commit)
    (accepted : verifyCommitLightTrusting crypto chainID vals commit trustLevel = .ok none) :
    ∃ power, SignersWith crypto chainID vals commit power ∧
      total vals * trustLevel.numerator < power * trustLevel.denominator := by
  obtain ⟨multiplied, product, verified⟩ :=
    trusting_needed crypto vals wellFormed accepted
  obtain ⟨power, signers, above⟩ := verify_with_signers crypto chainID vals commit _ trustingMode
    faithful wellFormed trusting_counts_for_block verified
  have bounds := signers_at_most_total wellFormed signers
  refine ⟨power, signers, ?_⟩
  by_cases small : trustLevel.denominator < 2 ^ 63
  · exact needed_small vals ordered small wellFormed product above
  by_cases negative : 2 ^ 63 ≤ trustLevel.numerator
  · have reached := needed_negative vals typed ordered negative wellFormed
      product
    omega
  obtain ⟨scaled, inRange, belowZero, atMost⟩ := needed_mixed vals typed (by omega)
    (by omega) wellFormed product
  -- The needed power is zero, so one validator signed; the whole scaled total is
  -- less than the denominator.
  have unreached : total vals * trustLevel.numerator + trustLevel.denominator < 2 ^ 64 := by
    rcases fits with within | within | within | within <;> omega
  have positive : 1 ≤ power := by omega
  have covered :=
    Int.mul_le_mul_of_nonneg_right positive (Int.natCast_nonneg trustLevel.denominator)
  omega

def emptyCommit : Commit := ⟨1, 0, BlockID.zero, []⟩

theorem empty_commit_accepted (wellFormed : vals.WellFormed) (typed : trustLevel.Typed)
    (unfit : ¬ TrustFits vals trustLevel) :
    verifyCommitLightTrusting crypto [] vals emptyCommit trustLevel = .ok none := by
  simp only [TrustFits, not_or] at unfit
  have bounds := total_bounds vals wellFormed
  have product : safeMul (total vals) (int64 trustLevel.numerator) =
      (total vals * trustLevel.numerator, false) := by
    rw [int64_of_nat typed.1, if_pos (by omega),
      safe_mul_nonneg bounds.1 (Int.natCast_nonneg _), if_pos (by unfold maxInt64; omega)]
  have negative := (needed_mixed vals typed (by omega) (by omega) wellFormed
    product).2.2.1.mpr (by omega)
  rw [total] at product negative
  simp only [verifyCommitLightTrusting, if_neg (show ¬ trustLevel.denominator = 0 by omega),
    ValidatorSet.total_voting_power_eq _ wellFormed, bind_eq, pure_eq, product,
    Bool.false_eq_true, if_false, verifyCommitWith, shouldBatchVerify, emptyCommit,
    List.length_nil, batchVerifyThreshold, Nat.zero_lt_succ, if_true, verifyCommitSingle,
    List.zipIdx_nil, singleLoop, if_neg (Int.not_le.mpr negative)]

theorem empty_commit_signers {power : Int}
    (signers : SignersWith crypto [] vals emptyCommit power) : power = 0 := by
  obtain ⟨members, _, signed, rfl⟩ := signers
  have none : members = ∅ := by
    apply Finset.eq_empty_of_forall_notMem
    intro index member
    obtain ⟨_, _, _, _, _, found, _⟩ := signed index member
    cases found
  rw [none, weight, Finset.sum_empty]

variable {crypto vals} in
theorem needed_two_thirds {chainID : ChainID} {commit : Commit} {mode : VerifyMode}
    (faithful : crypto.BatchFaithful) (wellFormed : vals.WellFormed)
    (forBlock : ∀ sig, mode.ignoreSig sig = false → mode.countSig sig = true → sig.forBlock = true)
    (accepted : verifyCommitWith crypto chainID vals commit ((total vals * 2).tdiv 3) mode =
      .ok none) :
    ∃ power, SignersWith crypto chainID vals commit power ∧ 2 * total vals < 3 * power := by
  obtain ⟨power, signers, above⟩ := verify_with_signers crypto chainID vals commit _ mode
    faithful wellFormed forBlock accepted
  have bounds := total_bounds vals wellFormed
  rw [Int.tdiv_eq_ediv_of_nonneg (by omega)] at above
  exact ⟨power, signers, by omega⟩

theorem verify_commit_unfold (wellFormed : vals.WellFormed) (chainID : ChainID) (blockID : BlockID)
    (height : Int) (commit : Commit) :
    (verifyCommit crypto chainID vals blockID height commit = .ok none ↔
      verifyBasicValsAndCommit vals commit height blockID = none ∧
      verifyCommitWith crypto chainID vals commit ((total vals * 2).tdiv 3) fullMode = .ok none) ∧
    (verifyCommitLight crypto chainID vals blockID height commit = .ok none ↔
      verifyBasicValsAndCommit vals commit height blockID = none ∧
      verifyCommitWith crypto chainID vals commit ((total vals * 2).tdiv 3) lightMode =
        .ok none) := by
  unfold verifyCommit verifyCommitLight
  cases basic : verifyBasicValsAndCommit vals commit height blockID with
  | some error => simp
  | none =>
    simp [ValidatorSet.total_voting_power_eq _ wellFormed,
      ValidatorSet.double_total_exact _ wellFormed, total]

/-- What acceptance proves of the signers, at every trust level that
`ValidateTrustLevel` lets pass and that fits the total power. -/
theorem commit_verification_sound_iff (faithful : crypto.BatchFaithful)
    (wellFormed : vals.WellFormed) (trustLevel : Fraction) (typed : trustLevel.Typed)
    (valid : validateTrustLevel trustLevel = none) :
    ((∀ chainID commit,
        verifyCommitLightTrusting crypto chainID vals commit trustLevel = .ok none →
        ∃ power, SignersWith crypto chainID vals commit power ∧
          total vals * trustLevel.numerator < power * trustLevel.denominator) ∧
      (∀ chainID blockID height commit,
        verifyCommit crypto chainID vals blockID height commit = .ok none →
        (∃ power, SignersWith crypto chainID vals commit power ∧ 2 * total vals < 3 * power) ∧
        verifyCommitLight crypto chainID vals blockID height commit = .ok none) ∧
      (∀ chainID blockID height commit,
        verifyCommitLight crypto chainID vals blockID height commit = .ok none →
        ∃ power, SignersWith crypto chainID vals commit power ∧ 2 * total vals < 3 * power)) ↔
    TrustFits vals trustLevel := by
  have ordered := validate_trust_level_ok valid
  constructor
  · rintro ⟨trusting, -⟩
    by_contra unfit
    obtain ⟨power, signers, above⟩ := trusting [] emptyCommit
      (empty_commit_accepted crypto vals wellFormed typed unfit)
    rw [empty_commit_signers crypto vals signers, Int.zero_mul] at above
    have nonneg : 0 ≤ total vals * trustLevel.numerator :=
      Int.mul_nonneg (total_bounds vals wellFormed).1 (Int.natCast_nonneg _)
    omega
  · intro fits
    refine ⟨trusting_signers crypto vals faithful wellFormed typed ordered fits, ?_, ?_⟩
    · intro chainID blockID height commit accepted
      have unfolded := verify_commit_unfold crypto vals wellFormed chainID blockID height commit
      obtain ⟨basic, full⟩ := unfolded.1.mp accepted
      exact ⟨needed_two_thirds faithful wellFormed full_counts_for_block full,
        unfolded.2.mpr ⟨basic, verify_with_light_of_full _ _ _ _ _ faithful full⟩⟩
    · intro chainID blockID height commit accepted
      have unfolded := verify_commit_unfold crypto vals wellFormed chainID blockID height commit
      exact needed_two_thirds faithful wellFormed light_counts_for_block (unfolded.2.mp accepted).2

end Soundness

theorem commit_verification_sound_third :
    TrustFits uniformSet ⟨1, 3⟩ ∧ ∀ chainID commit,
      verifyCommitLightTrusting .acceptAll chainID uniformSet commit ⟨1, 3⟩ = .ok none →
      ∃ power, SignersWith .acceptAll chainID uniformSet commit power ∧
        total uniformSet * (1 : Nat) < power * (3 : Nat) := by
  have fits : TrustFits uniformSet ⟨1, 3⟩ := Or.inl (by decide)
  exact ⟨fits, ((commit_verification_sound_iff .acceptAll uniformSet accept_all_faithful
    ⟨by decide, by decide, by decide, by decide⟩ ⟨1, 3⟩ ⟨by decide, by decide⟩ (by decide)).mpr
      fits).1⟩

def scaledThird : Fraction := ⟨2 ^ 62, 3 * 2 ^ 62⟩

/-- The trust level passes its check, and a commit with no signature at all is
accepted, while no signers of it hold a third of the power. -/
theorem scaled_third_accepts_empty_commit :
    validateTrustLevel scaledThird = none ∧ VoteSet.soleSet.WellFormed ∧
    verifyCommitLightTrusting .acceptAll [] VoteSet.soleSet emptyCommit scaledThird = .ok none ∧
    ¬ ∃ power, SignersWith .acceptAll [] VoteSet.soleSet emptyCommit power ∧
      total VoteSet.soleSet * scaledThird.numerator < power * scaledThird.denominator := by
  refine ⟨by decide, VoteSet.sole_set_well_formed, by decide, ?_⟩
  rintro ⟨power, signers, above⟩
  rw [empty_commit_signers _ _ signers] at above
  exact absurd above (by decide)

/-- What makes somebody take a block for decided, and who has signed for it. -/
inductive Decides (crypto : Crypto) (chainID : ChainID) (vals : ValidatorSet) (blockID : BlockID) :
    (Nat → Prop) → Prop
  | majority {height round : Int} {type : SignedMsgType} {voteSet : VoteSet}
    (made : VoteSet.new chainID height round type vals = .ok voteSet) (calls : List VoteSet.Call)
    (decided : (voteSet.run crypto calls).maj23 = some blockID) :
    Decides crypto chainID vals blockID fun index => ∃ vote val,
      VoteSet.Call.addVote (some vote) ∈ calls ∧ VoteSet.Accepted crypto voteSet vote val ∧
        vote.validatorIndex.toNat = index ∧ vote.blockID.key = blockID.key
  | commit (height : Int) (commit : Commit)
    (accepted : verifyCommitLight crypto chainID vals blockID height commit = .ok none) :
    Decides crypto chainID vals blockID (SignedBy crypto chainID vals commit)

section

variable {crypto : Crypto} {chainID : ChainID} {vals : ValidatorSet} {blockID : BlockID}
  {signed : Nat → Prop} (faithful : crypto.BatchFaithful) (wellFormed : vals.WellFormed)
  (decides : Decides crypto chainID vals blockID signed)

include faithful wellFormed decides

theorem Decides.signers : ∃ signers ⊆ Finset.range vals.size,
    2 * total vals < 3 * weight vals.power signers ∧ ∀ index ∈ signers, signed index := by
  cases decides with
  | @majority _ _ _ voteSet made calls decided =>
    obtain rfl : voteSet.valSet = vals := congrArg (·.2.2.2.2) (VoteSet.new_subject made)
    have start := VoteSet.tallied_new _ _ _ _ _ _ made
    obtain ⟨tallied, frame, _⟩ := VoteSet.run_tallied crypto calls wellFormed start
    have same : (voteSet.run crypto calls).valSet = voteSet.valSet := congrArg (·.2.2.2.2) frame
    -- what is stored was given to the set and has passed the checks
    have checked := VoteSet.run_holds (fun index vote => ∃ val, .addVote (some vote) ∈ calls ∧
      VoteSet.Accepted crypto voteSet vote val ∧ vote.validatorIndex.toNat = index) crypto calls
      wellFormed start (VoteSet.holds_new _ made)
      fun _ val _ given kept accepted => ⟨val, given, accepted.of_subject kept.symm, rfl⟩
    obtain ⟨votes, stored, enough⟩ := tallied.reached _ decided
    have own := tallied.blocks _ _ stored
    rw [VoteSet.quorum, own.sum, same] at enough
    refine ⟨_, own.length.trans (congrArg _ same) ▸ Quorum.filled_subset votes.votes,
      VoteSet.two_thirds_of_quorum (total_bounds _ wellFormed).1 enough, fun index member => ?_⟩
    obtain ⟨vote, present⟩ := (Quorum.mem_filled _ _).mp member
    obtain ⟨val, given, accepted, place⟩ := checked.counted _ _ _ _ stored present
    exact ⟨vote, val, given, accepted, place, own.keys _ _ present⟩
  | commit _ _ accepted =>
    have light := ((verify_commit_unfold crypto vals wellFormed ..).2.mp accepted).2
    obtain ⟨_, ⟨signers, inside, signed, rfl⟩, above⟩ :=
      needed_two_thirds faithful wellFormed light_counts_for_block light
    exact ⟨signers, inside, above, signed⟩

/-- Two decisions, at whatever heights and rounds, have a correct signer in common. -/
theorem decisions_share_signer {other : BlockID} {approved : Nat → Prop}
    (second : Decides crypto chainID vals other approved) (faulty : Finset Nat)
    (few : 3 * weight vals.power (faulty ∩ Finset.range vals.size) < total vals) :
    ∃ index ∉ faulty, signed index ∧ approved index := by
  obtain ⟨_, inside, most, signs⟩ := decides.signers faithful wellFormed
  obtain ⟨_, within, enough, approves⟩ := second.signers faithful wellFormed
  obtain ⟨index, member, shared, correct⟩ := Quorum.intersection vals.power _ _ _ faulty
    (fun _ _ => ValidatorSet.power_nonneg wellFormed _) inside within few most enough
  exact ⟨index, correct, signs index member, approves index shared⟩

end

def forkedBlock : BlockID := ⟨List.replicate 32 3, ⟨1, List.replicate 32 4⟩⟩

def forkedCommit : Commit :=
  ⟨1, 0, forkedBlock, [⟨.commit, [1], 0, [7]⟩, ⟨.commit, [2], 0, [7]⟩, ⟨.commit, [3], 0, [7]⟩,
    ⟨.absent, [], zeroTime, []⟩]⟩

/-- The vote set and the commit for another block have a signer in common that is not the second
validator. -/
theorem four_decisions_share : ∃ signed,
    Decides .acceptAll [] VoteSet.fourSet VoteSet.decidedBlock signed ∧
      ∃ index ∉ ({1} : Finset Nat), signed index ∧
        SignedBy .acceptAll [] VoteSet.fourSet forkedCommit index := by
  have decided : ∃ signed, Decides .acceptAll [] VoteSet.fourSet VoteSet.decidedBlock signed :=
    ⟨_, .majority (rfl : VoteSet.new _ 1 0 .precommit _ = _) VoteSet.fourConflict
      (by decide +kernel)⟩
  obtain ⟨signed, decides⟩ := decided
  have forked : Decides .acceptAll [] VoteSet.fourSet forkedBlock
      (SignedBy .acceptAll [] VoteSet.fourSet forkedCommit) :=
    .commit 1 forkedCommit (by decide +kernel)
  exact ⟨signed, decides, decisions_share_signer accept_all_faithful VoteSet.four_set_well_formed
    decides forked {1} (by decide)⟩

end Tendermint.Light
