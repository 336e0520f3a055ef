import Tendermint.Evidence.Pool

/-!
What `verify` accepts. Apart from the expiry, which is that of the pool, its
verdict depends on the chain ID and on what the stores hold for the evidence. So
evidence that was accepted stays acceptable until it expires, as long as the
stores answer for it as before; and evidence whose ABCI part was put right is
acceptable, unless it is put right to nil.
-/

namespace Tendermint.EvPool

open Types

section

variable (env : Env) (chainID : ChainID)

theorem duplicate_accepted_iff (evidence : DuplicateVoteEvidence) (evTime : Time) :
    verifyDuplicate env chainID evidence evTime = .ok .accepted ↔
      ∃ valSet index val, env.stores.loadValidators evidence.voteA.height = .ok valSet ∧
        verifyDuplicateVote env.crypto evidence chainID valSet = .ok none ∧
        valSet.getByAddress evidence.voteA.validatorAddress = some (index, val) ∧
        evidence.validateABCI val valSet evTime = .ok none := by
  rw [verifyDuplicate]
  cases loaded : env.stores.loadValidators evidence.voteA.height with
  | error text => simp
  | ok valSet =>
  rcases checked : verifyDuplicateVote env.crypto evidence chainID valSet with
    text | _ | error
  · simp [checked]
  · rcases found : valSet.getByAddress evidence.voteA.validatorAddress with _ | ⟨index, val⟩
    · simp [checked, found]
    · rcases abci : evidence.validateABCI val valSet evTime with text | _ | fault
      · simp [checked, found, abci]
      · simp [checked, found, abci]
      · cases generated : evidence.generateABCI val valSet evTime <;>
          simp [checked, found, abci, generated]
  · simp [checked]

variable {evTime : Time}

variable {evidence : LightClientAttackEvidence}

theorem attack_accepted_iff :
    verifyAttack env evidence evTime = .ok .accepted ↔
      ∃ common vals trusted, env.stores.getSignedHeader evidence.commonHeight = .ok common ∧
        env.stores.loadValidators evidence.commonHeight = .ok vals ∧
        env.stores.trustedHeader evidence common = .ok trusted ∧
        verifyLightClientAttack env.crypto env.hashing evidence common trusted vals = .ok none ∧
        evidence.validateABCI vals trusted evTime = .ok none := by
  rw [verifyAttack]
  cases signed : env.stores.getSignedHeader evidence.commonHeight with
  | error error => simp
  | ok common =>
  cases loaded : env.stores.loadValidators evidence.commonHeight with
  | error text => simp
  | ok vals =>
  cases chosen : env.stores.trustedHeader evidence common with
  | error error => simp [chosen]
  | ok trusted =>
  rcases checked : verifyLightClientAttack env.crypto env.hashing evidence common
    trusted vals with text | _ | error
  · simp [chosen, checked]
  · rcases abci : evidence.validateABCI vals trusted evTime with text | _ | fault
    · simp [chosen, checked, abci]
    · simp [chosen, checked, abci]
    · cases generated : evidence.generateABCI vals trusted evTime <;>
        simp [chosen, checked, abci, generated]
  · simp [chosen, checked]

theorem duplicate_abci_none_iff (evidence : DuplicateVoteEvidence) (val : Validator)
    (valSet : ValidatorSet) (evTime : Time) :
    evidence.validateABCI val valSet evTime = .ok none ↔
      evidence.timestamp = evTime ∧ val.votingPower = evidence.validatorPower ∧
        valSet.totalVotingPower = .ok evidence.totalVotingPower := by
  rw [DuplicateVoteEvidence.validateABCI]
  by_cases time : evidence.timestamp = evTime
  · by_cases power : val.votingPower = evidence.validatorPower
    · cases total : valSet.totalVotingPower with
      | error text => simp [time, power]
      | ok value =>
        by_cases same : value = evidence.totalVotingPower <;> simp [time, power, same]
    · simp [time, power]
  · simp [time]

theorem attack_abci_time {vals : ValidatorSet} {trusted : SignedHeader}
    (valid : evidence.validateABCI vals trusted evTime = .ok none) :
    evidence.timestamp = evTime := by
  rw [LightClientAttackEvidence.validateABCI] at valid
  cases total : vals.totalVotingPower with
  | error text => simp [total] at valid
  | ok value =>
    by_contra other
    by_cases power : evidence.totalVotingPower = value <;> simp [total, power, other] at valid

theorem content_time {evidence : Evidence}
    (accepted : verifyContent env chainID evidence evTime = .ok .accepted) :
    evidence.time = evTime := by
  cases evidence with
  | duplicateVote votes =>
    obtain ⟨valSet, _, val, _, _, _, abci⟩ := (duplicate_accepted_iff env chainID _ _).mp accepted
    exact ((duplicate_abci_none_iff votes val valSet evTime).mp abci).1
  | lightClientAttack attack =>
    obtain ⟨_, _, _, _, _, _, _, abci⟩ := (attack_accepted_iff env).mp accepted
    exact attack_abci_time abci

def Backed (evidence : Evidence) : Prop :=
  ∃ header, env.stores.loadBlockMeta evidence.height = some header ∧
    header.time = evidence.time ∧
    verifyContent env chainID evidence evidence.time = .ok .accepted

end

theorem not_expired_iff (state : SM.State) (height : Int) (time : Time) :
    isExpired state height time = false ↔
      ¬(state.consensusParams.evidence.maxAgeDuration < timeSub state.lastBlockTime time ∧
        state.consensusParams.evidence.maxAgeNumBlocks <
          int64 (state.lastBlockHeight - height)) := by
  simp only [isExpired, Bool.and_eq_false_iff, decide_eq_false_iff_not, not_and_or, or_comm]

section

variable {env : Env} {state : SM.State} {evidence : Evidence} {header : Header}
  (found : env.stores.loadBlockMeta evidence.height = some header)

include found

theorem verify_of_expired (expired : isExpired state evidence.height header.time = true) :
    verify env state evidence = .ok (.refused (.tooOld evidence.height header.time)) := by
  have old := not_not.mp (mt (not_expired_iff _ _ _).mpr (Bool.not_eq_false _ ▸ expired))
  simp only [verify, found]
  rw [if_pos old]
  rfl

theorem verify_of_young (young : isExpired state evidence.height header.time = false) :
    verify env state evidence = verifyContent env state.chainID evidence header.time := by
  simp only [verify, found]
  rw [if_neg ((not_expired_iff _ _ _).mp young)]

end

theorem verify_accepted_iff (env : Env) (state : SM.State) (evidence : Evidence) :
    verify env state evidence = .ok .accepted ↔
      Backed env state.chainID evidence ∧
        isExpired state evidence.height evidence.time = false := by
  rw [verify, Backed]
  cases found : env.stores.loadBlockMeta evidence.height with
  | none => simp
  | some header =>
  simp only [Option.some.injEq, exists_eq_left', not_expired_iff]
  constructor
  · intro accepted
    split at accepted
    · cases accepted
    · rename_i young
      have time := content_time env _ accepted
      rw [time]
      exact ⟨⟨rfl, accepted⟩, young⟩
  · rintro ⟨⟨time, accepted⟩, young⟩
    rw [time, if_neg young]
    exact accepted

section

structure Stores.Agree (before after : Stores) (evidence : Evidence) : Prop where
  block : after.loadBlockMeta evidence.height = before.loadBlockMeta evidence.height
  validators : after.loadValidators evidence.height = before.loadValidators evidence.height
  commit : after.loadBlockCommit evidence.height = before.loadBlockCommit evidence.height
  trusted : ∀ attack common, evidence = .lightClientAttack attack →
    after.trustedHeader attack common = before.trustedHeader attack common

theorem Backed.carry {crypto : Crypto} {hashing : Merkle.Hashing} {before after : Stores}
    {chainID : ChainID} {evidence : Evidence} (agree : before.Agree after evidence)
    (backed : Backed ⟨crypto, hashing, before⟩ chainID evidence) :
    Backed ⟨crypto, hashing, after⟩ chainID evidence := by
  obtain ⟨header, found, time, accepted⟩ := backed
  refine ⟨header, agree.block.trans found, time, ?_⟩
  cases evidence with
  | duplicateVote votes =>
    obtain ⟨valSet, index, val, loaded, rest⟩ := (duplicate_accepted_iff _ _ _ _).mp accepted
    exact (duplicate_accepted_iff _ _ _ _).mpr
      ⟨valSet, index, val, agree.validators.trans loaded, rest⟩
  | lightClientAttack attack =>
    obtain ⟨common, vals, trusted, signed, loaded, chosen, rest⟩ :=
      (attack_accepted_iff _).mp accepted
    have signed' : after.getSignedHeader attack.commonHeight = .ok common := by
      rw [← signed]
      simp only [Stores.getSignedHeader]
      have metas : after.loadBlockMeta attack.commonHeight = _ := agree.block
      have commits : after.loadBlockCommit attack.commonHeight = _ := agree.commit
      rw [metas, commits]
      rfl
    exact (attack_accepted_iff _).mpr ⟨common, vals, trusted, signed',
      agree.validators.trans loaded, (agree.trusted attack common rfl).trans chosen, rest⟩

end

section

variable (env : Env)

variable {fault : AbciFault} {evTime : Time}

variable {rectified : Option Evidence} {evidence : LightClientAttackEvidence}
  {validators : List (Option Validator)}

theorem duplicate_rectified {chainID : ChainID} {evidence : DuplicateVoteEvidence}
    (verdict : verifyDuplicate env chainID evidence evTime = .ok (.rectified fault rectified)) :
    ∃ valSet index val total, env.stores.loadValidators evidence.voteA.height = .ok valSet ∧
      verifyDuplicateVote env.crypto evidence chainID valSet = .ok none ∧
      valSet.getByAddress evidence.voteA.validatorAddress = some (index, val) ∧
      valSet.totalVotingPower = .ok total ∧
      rectified = some (.duplicateVote { evidence with
        validatorPower := val.votingPower, totalVotingPower := total, timestamp := evTime }) := by
  rw [verifyDuplicate] at verdict
  cases loaded : env.stores.loadValidators evidence.voteA.height with
  | error text => simp [loaded] at verdict
  | ok valSet =>
  rcases checked : verifyDuplicateVote env.crypto evidence chainID valSet with
    text | _ | error
  · simp [loaded, checked] at verdict
  · rcases found : valSet.getByAddress evidence.voteA.validatorAddress with _ | ⟨index, val⟩
    · simp [loaded, checked, found] at verdict
    · rcases abci : evidence.validateABCI val valSet evTime with text | _ | fault
      · simp [loaded, checked, found, abci] at verdict
      · simp [loaded, checked, found, abci] at verdict
      · cases total : valSet.totalVotingPower with
        | error text =>
          simp [loaded, checked, found, abci, total, DuplicateVoteEvidence.generateABCI] at verdict
        | ok value =>
          simp [loaded, checked, found, abci, total, DuplicateVoteEvidence.generateABCI] at verdict
          exact ⟨valSet, index, val, value, rfl, checked, found, total, verdict.2.symm⟩
  · simp [loaded, checked] at verdict

theorem attack_rectified
    (verdict : verifyAttack env evidence evTime = .ok (.rectified fault rectified)) :
    ∃ common vals trusted generated,
      env.stores.getSignedHeader evidence.commonHeight = .ok common ∧
      env.stores.loadValidators evidence.commonHeight = .ok vals ∧
      env.stores.trustedHeader evidence common = .ok trusted ∧
      verifyLightClientAttack env.crypto env.hashing evidence common trusted vals = .ok none ∧
      evidence.generateABCI vals trusted evTime = .ok generated ∧
      rectified = generated.map Evidence.lightClientAttack := by
  rw [verifyAttack] at verdict
  cases signed : env.stores.getSignedHeader evidence.commonHeight with
  | error error => simp [signed] at verdict
  | ok common =>
  cases loaded : env.stores.loadValidators evidence.commonHeight with
  | error text => simp [signed, loaded] at verdict
  | ok vals =>
  cases chosen : env.stores.trustedHeader evidence common with
  | error error => simp [signed, loaded, chosen] at verdict
  | ok trusted =>
  rcases checked : verifyLightClientAttack env.crypto env.hashing evidence common
    trusted vals with text | _ | error
  · simp [signed, loaded, chosen, checked] at verdict
  · rcases abci : evidence.validateABCI vals trusted evTime with text | _ | fault
    · simp [signed, loaded, chosen, checked, abci] at verdict
    · simp [signed, loaded, chosen, checked, abci] at verdict
    · cases generated : evidence.generateABCI vals trusted evTime with
      | error text =>
        simp [signed, loaded, chosen, checked, abci, generated] at verdict
      | ok result =>
        simp [signed, loaded, chosen, checked, abci, generated] at verdict
        exact ⟨common, vals, trusted, result, rfl, rfl, chosen, checked, generated, verdict.2.symm⟩
  · simp [signed, loaded, chosen, checked] at verdict

theorem compare_validators_self (known : validators.any Option.isNone = false) :
    LightClientAttackEvidence.compareValidators validators (validators.filterMap id) =
      .ok none := by
  induction validators with
  | nil => rfl
  | cons first rest ih =>
  cases first with
  | none => simp at known
  | some val =>
    have later : rest.any Option.isNone = false := by simpa using known
    simpa [LightClientAttackEvidence.compareValidators] using ih later

theorem length_filter_known (known : validators.any Option.isNone = false) :
    (validators.filterMap id).length = validators.length := by
  induction validators with
  | nil => rfl
  | cons first rest ih =>
    cases first with
    | none => simp at known
    | some val => simpa using ih (by simpa using known)

section

variable {evidence other : LightClientAttackEvidence}
  (same : other.conflictingBlock = evidence.conflictingBlock)

include same

theorem double_signers_of_same_block (trusted : Commit) (sigs : List CommitSig) :
    ∀ index, other.doubleSigners trusted sigs index =
      evidence.doubleSigners trusted sigs index := by
  induction sigs with
  | nil => exact fun _ => rfl
  | cons sig rest ih =>
    intro index
    simp only [LightClientAttackEvidence.doubleSigners, ih, same]

theorem blamed_of_same_block (vals : ValidatorSet) (trusted : SignedHeader) :
    other.getByzantineValidators vals trusted = evidence.getByzantineValidators vals trusted := by
  have invalid : other.conflictingHeaderIsInvalid = evidence.conflictingHeaderIsInvalid := by
    funext header
    simp only [LightClientAttackEvidence.conflictingHeaderIsInvalid, same]
  have lunatic : other.lunaticSigners vals = evidence.lunaticSigners vals := by
    simp only [LightClientAttackEvidence.lunaticSigners, same]
  simp only [LightClientAttackEvidence.getByzantineValidators, invalid, lunatic, same,
    double_signers_of_same_block same]

end

/-- The ABCI part that is generated passes, unless it is the nil list, which does
not come back from the store. -/
theorem attack_generated_valid {generated : LightClientAttackEvidence} {vals : ValidatorSet}
    {trusted : SignedHeader}
    (made : evidence.generateABCI vals trusted evTime = .ok (some generated))
    (listed : generated.byzantineValidators.isSome) :
    generated.conflictingBlock = evidence.conflictingBlock ∧
      generated.commonHeight = evidence.commonHeight ∧ generated.timestamp = evTime ∧
      generated.validateABCI vals trusted evTime = .ok none := by
  rw [LightClientAttackEvidence.generateABCI] at made
  obtain ⟨value, total, made⟩ := bind_ok.mp made
  cases blamed : evidence.getByzantineValidators vals trusted with
  | error text => simp [total, blamed] at made
  | ok validators =>
  by_cases unknown : validators.any Option.isNone = true
  · simp only [total, blamed, unknown, bind_eq, pure_eq, if_true] at made
    cases made
  · have known := Bool.eq_false_iff.mpr unknown
    simp only [total, blamed, known, bind_eq, pure_eq,
      Bool.false_eq_true, if_false, Except.ok.injEq, Option.some.injEq] at made
    subst made
    by_cases empty : validators = []
    · simp [empty] at listed
    · refine ⟨rfl, rfl, rfl, ?_⟩
      have again : ∀ list, LightClientAttackEvidence.getByzantineValidators
          ⟨evidence.conflictingBlock, evidence.commonHeight, list, value, evTime⟩
          vals trusted = .ok validators :=
        fun list => (@blamed_of_same_block evidence
          ⟨evidence.conflictingBlock, evidence.commonHeight, list, value, evTime⟩ rfl
          vals trusted).trans blamed
      simp only [LightClientAttackEvidence.validateABCI, total, bind_eq, again,
        empty, if_false, ne_eq, not_true, false_and, Option.getD_some]
      rw [if_neg (not_not_intro (length_filter_known known).symm)]
      exact compare_validators_self known

theorem rectified_accepted {state : SM.State} {evidence rectified : Evidence}
    (verdict : verify env state evidence = .ok (.rectified fault (some rectified)))
    (decoded : rectified.reloaded = rectified) :
    verify env state rectified = .ok .accepted := by
  rw [verify] at verdict
  cases found : env.stores.loadBlockMeta evidence.height with
  | none => simp [found] at verdict
  | some header =>
  simp only [found] at verdict
  split at verdict
  · cases verdict
  · rename_i young
    cases evidence with
    | duplicateVote votes =>
      obtain ⟨valSet, index, val, total, loaded, checked, member, power, made⟩ :=
        duplicate_rectified env verdict
      cases Option.some.inj made
      have accepted := (duplicate_accepted_iff env state.chainID
        { votes with
          validatorPower := val.votingPower, totalVotingPower := total,
          timestamp := header.time } header.time).mpr
        ⟨valSet, index, val, loaded, checked, member,
          (duplicate_abci_none_iff _ val valSet header.time).mpr ⟨rfl, rfl, power⟩⟩
      exact (verify_accepted_iff env state _).mpr
        ⟨⟨header, found, rfl, accepted⟩, (not_expired_iff _ _ _).mpr young⟩
    | lightClientAttack attack =>
      obtain ⟨common, vals, trusted, generated, signed, loaded, chosen, checked, made,
        same⟩ := attack_rectified env verdict
      cases generated with
      | none => cases same
      | some generated =>
      cases Option.some.inj same
      have listed : generated.byzantineValidators.isSome := by
        have lists := congrArg (fun evidence => match evidence with
          | Evidence.lightClientAttack attack => attack.byzantineValidators
          | _ => none) decoded
        simp only [Evidence.reloaded] at lists
        rw [← lists]
        rfl
      obtain ⟨block, height, time, abci⟩ := attack_generated_valid made listed
      have accepted : verifyAttack env generated header.time = .ok .accepted := by
        refine (attack_accepted_iff env).mpr ⟨common, vals, trusted, ?_⟩
        refine ⟨height ▸ signed, height ▸ loaded, ?_, ?_, abci⟩
        · simp only [Stores.trustedHeader, block, height] at chosen ⊢
          exact chosen
        · simp only [verifyLightClientAttack, verifyJump,
            LightClientAttackEvidence.conflictingHeaderIsInvalid, block] at checked ⊢
          exact checked
      refine (verify_accepted_iff env state _).mpr ⟨⟨header, ?_, time.symm, ?_⟩, ?_⟩
      · exact (congrArg env.stores.loadBlockMeta height).trans found
      · simpa only [Evidence.time, time, verifyContent] using accepted
      · refine (not_expired_iff _ _ _).mpr ?_
        simpa only [Evidence.height, Evidence.time, time, height] using young

end

end Tendermint.EvPool
