import Tendermint.Evidence.Acceptance
import Tendermint.State.Validation

/-!
Who is blamed for an attack on a light client. The verification of the
conflicting commit stops once enough power has signed, and looks its validators
up by index or by address; the validators to blame are afterwards read off all
signatures for the block, by the address that each one names. So the blame is
right exactly if every address named is that of a validator who signed and none
is named twice, and a panic is left where an address is named that is not in the
conflicting set.
-/

namespace Tendermint.Types

open List

section Total

variable {crypto : Crypto} {chainID : ChainID} {vals : ValidatorSet} {commit : Commit}
  {needed : Int} {mode : VerifyMode}

/-- A signature that the loops can look at without a panic. -/
def Readable (chainID : ChainID) (vals : ValidatorSet) (commit : Commit) (mode : VerifyMode)
    (entry : CommitSig × Nat) : Prop :=
  mode.ignoreSig entry.1 = false →
    (mode.lookUpByIndex = true → entry.2 < vals.validators.length) ∧
      ∃ bytes, commit.voteSignBytes chainID entry.2 = .ok bytes

theorem look_up_total (seen : Nat → Option Nat) (sig : CommitSig) {idx : Nat}
    (bounded : mode.lookUpByIndex = true → idx < vals.validators.length) :
    ∃ result, lookUpValidator mode vals seen sig idx = .ok result := by
  rw [lookUpValidator]
  by_cases byIndex : mode.lookUpByIndex = true
  · rw [if_pos byIndex, getElem?_eq_getElem (bounded byIndex)]
    exact ⟨_, rfl⟩
  · rw [if_neg byIndex]
    rcases vals.getByAddress sig.validatorAddress with _ | ⟨valIdx, val⟩
    · exact ⟨_, rfl⟩
    · cases found : seen valIdx with
      | some first =>
        simp only [found]
        exact ⟨_, rfl⟩
      | none =>
        simp only [found]
        exact ⟨_, rfl⟩

theorem single_loop_total (rest : List (CommitSig × Nat)) :
    ∀ (seen : Nat → Option Nat) (tallied : Int),
      (∀ entry ∈ rest, Readable chainID vals commit mode entry) →
      ∃ result, singleLoop crypto chainID vals commit needed mode seen tallied rest =
        .ok result := by
  induction rest with
  | nil =>
    intro seen tallied _
    rw [singleLoop]
    split <;> exact ⟨_, rfl⟩
  | cons entry rest ih =>
    intro seen tallied readable
    obtain ⟨sig, idx⟩ := entry
    have later := fun seen tallied => ih seen tallied
      fun entry member => readable entry (mem_cons_of_mem _ member)
    rw [singleLoop]
    by_cases ignored : mode.ignoreSig sig = true
    · rw [if_pos ignored]
      exact later seen tallied
    · obtain ⟨bounded, bytes, signed⟩ :=
        readable (sig, idx) mem_cons_self (Bool.eq_false_iff.mpr ignored)
      obtain ⟨looked, found⟩ := look_up_total seen sig bounded
      rw [if_neg ignored]
      rcases looked with error | ⟨_ | val, next⟩
      · simp [found]
      · simpa [found] using later next tallied
      · simp only [found, signed, bind_eq, pure_eq]
        split
        · exact ⟨_, rfl⟩
        · split
          · exact ⟨_, rfl⟩
          · exact later next _

theorem batch_loop_total (keyType : KeyType) (rest : List (CommitSig × Nat)) :
    ∀ (seen : Nat → Option Nat) (batch : Batch),
      (∀ entry ∈ rest, Readable chainID vals commit mode entry) →
      ∃ result, batchLoop crypto chainID vals commit needed mode keyType seen batch rest =
        .ok result := by
  induction rest with
  | nil => exact fun seen batch _ => ⟨_, rfl⟩
  | cons entry rest ih =>
  intro seen batch readable
  obtain ⟨sig, idx⟩ := entry
  have later := fun seen batch => ih seen batch
    fun entry member => readable entry (mem_cons_of_mem _ member)
  rw [batchLoop]
  by_cases ignored : mode.ignoreSig sig = true
  · rw [if_pos ignored]
    exact later seen batch
  · obtain ⟨bounded, bytes, signed⟩ :=
      readable (sig, idx) mem_cons_self (Bool.eq_false_iff.mpr ignored)
    obtain ⟨looked, found⟩ := look_up_total seen sig bounded
    rw [if_neg ignored]
    rcases looked with error | ⟨_ | val, next⟩
    · simp [found]
    · simpa [found] using later next batch
    · simp only [found, signed, bind_eq, pure_eq]
      split
      · exact ⟨_, rfl⟩
      · split
        · exact ⟨_, rfl⟩
        · exact later next _

theorem vote_sign_bytes_total {index : Nat} {sig : CommitSig}
    (found : commit.signatures[index]? = some sig) (forBlock : sig.forBlock = true)
    (blockID : commit.blockID.validateBasic = none)
    (time : (stdTimeMarshal sig.timestamp).isSome = true) :
    ∃ bytes, commit.voteSignBytes chainID index = .ok bytes := by
  obtain ⟨timestamp, marshalled⟩ := Option.isSome_iff_exists.mp time
  have flag : sig.blockIDFlag = .commit := by simpa [CommitSig.forBlock] using forBlock
  simp [Commit.voteSignBytes, Commit.getVote, found, CommitSig.blockID, flag, voteSignBytes,
    canonicalizeVote, canonicalizeBlockID, blockID, CanonicalVote.marshal, marshalled,
    marshalDelimited]

theorem verify_with_total {pubKey : PubKey} (proposer : proposerKey vals = .ok pubKey)
    (readable : ∀ entry ∈ commit.signatures.zipIdx, Readable chainID vals commit mode entry) :
    ∃ result, verifyCommitWith crypto chainID vals commit needed mode = .ok result := by
  have single := @single_loop_total crypto chainID vals commit needed mode _ (fun _ => none) 0
    readable
  obtain ⟨gathered, batch⟩ := @batch_loop_total crypto chainID vals commit needed mode
    pubKey.keyType _ (fun _ => none) ⟨[], 0⟩ readable
  simp only [verifyCommitWith, shouldBatchVerify, verifyCommitBatch, verifyCommitSingle, proposer,
    bind_eq, pure_eq]
  by_cases few : commit.signatures.length < batchVerifyThreshold
  · simpa only [few, if_true, Bool.false_eq_true, if_false] using single
  · simp only [few, if_false]
    by_cases supported : supportsBatchVerifier pubKey = true
    · simp only [supported, if_true, Bool.not_true, decide_false, Bool.or_self,
        Bool.false_eq_true, if_false, batch]
      cases gathered <;> exact ⟨_, rfl⟩
    · simpa only [supported, Bool.false_eq_true, if_false] using single

end Total

end Tendermint.Types

namespace Tendermint.EvPool

open Types List

section

variable (crypto : Crypto) (attack : LightClientAttackEvidence) (vals : ValidatorSet)
  (trusted : SignedHeader)

/-- The validator's own key verifies a signature of the commit for its block. -/
def Signs (chainID : ChainID) (commit : Commit) (val : Validator) : Prop :=
  ∃ index sig bytes, commit.signatures[index]? = some sig ∧ sig.forBlock = true ∧
    commit.voteSignBytes chainID index = .ok bytes ∧
    crypto.verifySignature val.pubKey bytes sig.signature = true

def blameSet : ValidatorSet :=
  if attack.conflictingHeaderIsInvalid trusted.header then vals
  else attack.conflictingBlock.validatorSet

/-- The validator signed the conflicting block and, unless it is of a made up
header, the trusted one. -/
def Convicts (address : Address) : Prop :=
  ∃ index val, (blameSet attack vals trusted).getByAddress address = some (index, val) ∧
    Signs crypto trusted.header.chainID attack.conflictingBlock.commit val ∧
    (attack.conflictingHeaderIsInvalid trusted.header = false →
      Signs crypto trusted.header.chainID trusted.commit val)

/-- All who are listed are convicted, and nobody is listed twice. -/
structure BlameRight : Prop where
  signed : ∀ val ∈ attack.byzantineValidators.getD [],
    Convicts crypto attack vals trusted val.address
  once : ((attack.byzantineValidators.getD []).map Validator.address).Nodup

def pairAddress (pair : CommitSig × CommitSig) : Option Address :=
  if pair.1.forBlock && pair.2.forBlock then some pair.1.validatorAddress else none

def namedAddresses : List Address :=
  let sigs := attack.conflictingBlock.commit.signatures
  if attack.conflictingHeaderIsInvalid trusted.header then
    ((sigs.filter CommitSig.forBlock).map CommitSig.validatorAddress).filter fun address =>
      (vals.getByAddress address).isSome
  else if trusted.commit.round = attack.conflictingBlock.commit.round then
    (sigs.zip trusted.commit.signatures).filterMap pairAddress
  else []

/-- The signatures for the conflicting block, checked or not, are of those whom
they name, each of another. -/
structure Genuine : Prop where
  signed : ∀ address ∈ namedAddresses attack vals trusted,
    Convicts crypto attack vals trusted address
  once : (namedAddresses attack vals trusted).Nodup

/-- Two commits of one round name an address that is not in the conflicting set,
or the own commit is too short. A single unknown address goes unnoticed until the
evidence lists one validator and the rest of its ABCI part is right. -/
def Stray (evTime : Time) : Prop :=
  attack.conflictingHeaderIsInvalid trusted.header = false ∧
  trusted.commit.round = attack.conflictingBlock.commit.round ∧
  ((∃ index sig, attack.conflictingBlock.commit.signatures[index]? = some sig ∧
      sig.forBlock = true ∧ trusted.commit.signatures.length ≤ index) ∨
    ((∃ address ∈ namedAddresses attack vals trusted,
        attack.conflictingBlock.validatorSet.getByAddress address = none) ∧
      (2 ≤ (namedAddresses attack vals trusted).length ∨
        ((attack.byzantineValidators.getD []).length = 1 ∧
          vals.totalVotingPower = .ok attack.totalVotingPower ∧ attack.timestamp = evTime))))

end

section

variable {attack : LightClientAttackEvidence} {vals : ValidatorSet} {trusted : SignedHeader}

theorem double_signers_ok (commit : Commit) (sigs : List CommitSig) :
    ∀ index, (∀ offset sig, sigs[offset]? = some sig → sig.forBlock = true →
        index + offset < commit.signatures.length) →
      attack.doubleSigners commit sigs index =
        .ok (((sigs.zip (commit.signatures.drop index)).filterMap pairAddress).map fun address =>
          (attack.conflictingBlock.validatorSet.getByAddress address).map Prod.snd) := by
  induction sigs with
  | nil => exact fun index _ => rfl
  | cons sig rest ih =>
  intro index long
  have later := ih (index + 1) fun offset other found forBlock => by
    have bound := long (offset + 1) other found forBlock
    omega
  rw [LightClientAttackEvidence.doubleSigners]
  by_cases short : commit.signatures.length ≤ index
  · -- nothing is left to compare with
    have skipped : sig.forBlock = false := by
      by_contra forBlock
      have bound := long 0 sig rfl (by simpa using forBlock)
      omega
    rw [skipped, if_pos (by decide), later, drop_eq_nil_of_le short, drop_eq_nil_of_le (by omega)]
    simp
  · have here : index < commit.signatures.length := by omega
    rw [drop_eq_getElem_cons here, zip_cons_cons, filterMap_cons, later, getElem?_eq_getElem here]
    cases ours : sig.forBlock <;> cases theirs : (commit.signatures[index]).forBlock <;>
      simp [pairAddress, ours, theirs]

theorem double_signers_error (commit : Commit) (sigs : List CommitSig) :
    ∀ index, (∃ offset sig, sigs[offset]? = some sig ∧ sig.forBlock = true ∧
        commit.signatures.length ≤ index + offset) →
      ∃ text, attack.doubleSigners commit sigs index = .error text := by
  induction sigs with
  | nil =>
    rintro index ⟨offset, sig, found, _⟩
    simp at found
  | cons first rest ih =>
  rintro index ⟨offset, sig, found, forBlock, short⟩
  rw [LightClientAttackEvidence.doubleSigners]
  cases offset with
  | zero =>
    cases Option.some.inj found
    rw [forBlock, if_neg (by decide), getElem?_eq_none (by omega)]
    exact ⟨_, rfl⟩
  | succ offset =>
    obtain ⟨text, later⟩ := ih (index + 1) ⟨offset, sig, found, forBlock, by omega⟩
    split
    · exact ⟨text, later⟩
    · split
      · exact ⟨_, rfl⟩
      · split
        · exact ⟨text, later⟩
        · exact ⟨text, by simp [later]⟩

theorem sorted_by_power_ok (validators : List (Option Validator)) (known : none ∉ validators) :
    ∃ sorted, LightClientAttackEvidence.sortedByPower validators = .ok sorted ∧
      sorted.Perm validators := by
  have noNil : validators.any Option.isNone = false := by
    simpa [any_eq_false] using fun (entry : Option Validator) member nothing =>
      known (by rw [nothing] at member; exact member)
  rw [LightClientAttackEvidence.sortedByPower, noNil, Bool.and_false, if_neg (by decide)]
  exact ⟨_, rfl, perm_insertionSort _ validators⟩

variable {validators : List (Option Validator)} {power : Int} {evTime : Time}

theorem compare_validators_total :
    ∀ listed, none ∉ validators →
      ∃ result, LightClientAttackEvidence.compareValidators validators listed = .ok result := by
  induction validators with
  | nil => exact fun listed _ => ⟨none, rfl⟩
  | cons first rest ih =>
  intro listed known
  cases first with
  | none => exact absurd mem_cons_self known
  | some val =>
  cases listed with
  | nil => exact ⟨none, rfl⟩
  | cons item others =>
  rw [LightClientAttackEvidence.compareValidators]
  split
  · exact ⟨_, rfl⟩
  · split
    · exact ⟨_, rfl⟩
    · exact ih others fun member => known (mem_cons_of_mem _ member)

theorem compare_validators_addresses :
    ∀ listed, validators.length = listed.length →
      LightClientAttackEvidence.compareValidators validators listed = .ok none →
      validators.map (Option.map Validator.address) = listed.map fun val => some val.address := by
  induction validators with
  | nil =>
    intro listed same _
    cases listed with
    | nil => rfl
    | cons item others => cases same
  | cons first rest ih =>
    intro listed same passes
    cases listed with
    | nil => cases same
    | cons item others =>
    cases first with
    | none => cases passes
    | some val =>
    rw [LightClientAttackEvidence.compareValidators] at passes
    split at passes
    · cases passes
    · rename_i address
      split at passes
      · cases passes
      · have later := ih others (Nat.succ.inj same) passes
        simp only [map_cons, Option.map_some, later, not_not.mp address]

theorem looked_up_addresses (set : ValidatorSet) (addresses : List Address) :
    (addresses.filterMap fun address => (set.getByAddress address).map Prod.snd).map
        Validator.address =
      addresses.filter fun address => (set.getByAddress address).isSome := by
  induction addresses with
  | nil => rfl
  | cons first rest ih =>
  rcases found : set.getByAddress first with _ | ⟨index, val⟩
  · simp [found, ih]
  · have same := (ValidatorSet.get_by_address_some set found).2
    simp [found, ih, same]

/-- No address is looked up in vain, and none beyond the end of the own commit. -/
def Steady (attack : LightClientAttackEvidence) (vals : ValidatorSet) (trusted : SignedHeader) :
    Prop :=
  attack.conflictingHeaderIsInvalid trusted.header = false →
  trusted.commit.round = attack.conflictingBlock.commit.round →
  (∀ index sig, attack.conflictingBlock.commit.signatures[index]? = some sig →
      sig.forBlock = true → index < trusted.commit.signatures.length) ∧
    ∀ address ∈ namedAddresses attack vals trusted,
      (attack.conflictingBlock.validatorSet.getByAddress address).isSome

theorem double_signers_named
    (derived : attack.conflictingHeaderIsInvalid trusted.header = false)
    (round : trusted.commit.round = attack.conflictingBlock.commit.round)
    (long : ∀ index sig, attack.conflictingBlock.commit.signatures[index]? = some sig →
      sig.forBlock = true → index < trusted.commit.signatures.length) :
    attack.getByzantineValidators vals trusted =
      LightClientAttackEvidence.sortedByPower ((namedAddresses attack vals trusted).map
        fun address => (attack.conflictingBlock.validatorSet.getByAddress address).map
          Prod.snd) := by
  have signers := @double_signers_ok attack trusted.commit
    attack.conflictingBlock.commit.signatures 0 fun offset sig found forBlock => by
      simpa using long offset sig found forBlock
  rw [drop_zero] at signers
  simp only [LightClientAttackEvidence.getByzantineValidators, derived, Bool.false_eq_true,
    if_false, round, if_true, signers, bind_eq, namedAddresses]

theorem blamed_of_steady (steady : Steady attack vals trusted) :
    ∃ validators, attack.getByzantineValidators vals trusted = .ok validators ∧
      none ∉ validators ∧
      (validators.map (Option.map Validator.address)).Perm
        ((namedAddresses attack vals trusted).map some) := by
  cases derived : attack.conflictingHeaderIsInvalid trusted.header with
  | true =>
    obtain ⟨sorted, sorts, perm⟩ := sorted_by_power_ok
      ((attack.lunaticSigners vals).map some) (by simp)
    refine ⟨sorted, ?_, fun member => ?_, ?_⟩
    · rw [LightClientAttackEvidence.getByzantineValidators, if_pos derived]
      exact sorts
    · simpa using perm.subset member
    · refine (perm.map _).trans (List.Perm.of_eq ?_)
      have addresses := looked_up_addresses vals
        ((attack.conflictingBlock.commit.signatures.filter CommitSig.forBlock).map
          CommitSig.validatorAddress)
      rw [filterMap_map] at addresses
      simp only [namedAddresses, derived, if_true, ← addresses, map_map]
      rfl
  | false =>
    by_cases round : trusted.commit.round = attack.conflictingBlock.commit.round
    · obtain ⟨long, known⟩ := steady derived round
      have found : ∀ entry ∈ (namedAddresses attack vals trusted).map (fun address =>
          (attack.conflictingBlock.validatorSet.getByAddress address).map Prod.snd),
          entry.isSome := by
        intro entry member
        obtain ⟨address, named, rfl⟩ := mem_map.mp member
        rw [Option.isSome_map]
        exact known address named
      obtain ⟨sorted, sorts, perm⟩ := sorted_by_power_ok _ fun member => by
        have some := found none member
        cases some
      refine ⟨sorted, (double_signers_named derived round long).trans sorts, fun member => ?_, ?_⟩
      · have some := found none (perm.subset member)
        cases some
      · refine (perm.map _).trans (List.Perm.of_eq ?_)
        rw [map_map]
        refine map_congr_left fun address named => ?_
        obtain ⟨⟨index, val⟩, here⟩ := Option.isSome_iff_exists.mp (known address named)
        have same := (ValidatorSet.get_by_address_some _ here).2
        simp [here, same]
    · refine ⟨[], ?_, not_mem_nil, ?_⟩
      · simp [LightClientAttackEvidence.getByzantineValidators, derived, round]
      · simp [namedAddresses, derived, round]

def closeAttack (attack : LightClientAttackEvidence) (vals : ValidatorSet)
    (trusted : SignedHeader) (evTime : Time) : Panics Verdict := do
  match ← attack.validateABCI vals trusted evTime with
  | none => pure .accepted
  | some fault => do
    let rectified ← attack.generateABCI vals trusted evTime
    pure (.rectified fault (rectified.map Evidence.lightClientAttack))

theorem close_attack_error {text : String} (total : vals.totalVotingPower = .ok power)
    (blamed : attack.getByzantineValidators vals trusted = .error text) :
    closeAttack attack vals trusted evTime = .error text := by
  by_cases same : attack.totalVotingPower = power
  · by_cases time : attack.timestamp = evTime <;>
      simp [closeAttack, LightClientAttackEvidence.validateABCI,
        LightClientAttackEvidence.generateABCI, total, blamed, same, time]
  · simp [closeAttack, LightClientAttackEvidence.validateABCI,
      LightClientAttackEvidence.generateABCI, total, blamed, same]

theorem close_attack_total (total : vals.totalVotingPower = .ok power)
    (blamed : attack.getByzantineValidators vals trusted = .ok validators)
    (compared : attack.totalVotingPower = power → attack.timestamp = evTime →
      validators.length = (attack.byzantineValidators.getD []).length →
      ∃ result, LightClientAttackEvidence.compareValidators validators
        (attack.byzantineValidators.getD []) = .ok result) :
    ∃ verdict, closeAttack attack vals trusted evTime = .ok verdict := by
  have generated : ∃ result, attack.generateABCI vals trusted evTime = .ok result := by
    by_cases unknown : none ∈ validators <;>
      simp [LightClientAttackEvidence.generateABCI, total, blamed, unknown]
  have validated : ∃ fault, attack.validateABCI vals trusted evTime = .ok fault := by
    simp only [LightClientAttackEvidence.validateABCI, total, blamed, bind_eq, pure_eq]
    split
    · exact ⟨_, rfl⟩
    · rename_i same
      split
      · exact ⟨_, rfl⟩
      · rename_i time
        split
        · exact ⟨_, rfl⟩
        · split
          · exact ⟨_, rfl⟩
          · rename_i count
            exact compared (not_not.mp same) (not_not.mp time) (not_not.mp count)
  obtain ⟨fault, valid⟩ := validated
  obtain ⟨result, made⟩ := generated
  cases fault with
  | none => exact ⟨_, by simp [closeAttack, valid]; rfl⟩
  | some fault =>
    exact ⟨_, by simp [closeAttack, valid, made]; rfl⟩

theorem stray_of_not_steady (total : vals.totalVotingPower = .ok power)
    (unsteady : ¬Steady attack vals trusted) :
    (∃ text, closeAttack attack vals trusted evTime = .error text) ↔
      Stray attack vals trusted evTime := by
  obtain ⟨derived, round, broken⟩ :
      attack.conflictingHeaderIsInvalid trusted.header = false ∧
      trusted.commit.round = attack.conflictingBlock.commit.round ∧ _ := by
    simpa only [Steady, not_forall, exists_prop] using unsteady
  by_cases long : ∀ index sig, attack.conflictingBlock.commit.signatures[index]? = some sig →
      sig.forBlock = true → index < trusted.commit.signatures.length
  · have unknown : ∃ address ∈ namedAddresses attack vals trusted,
        attack.conflictingBlock.validatorSet.getByAddress address = none := by
      by_contra known
      refine broken ⟨long, fun address named => ?_⟩
      by_contra missing
      exact known ⟨address, named, Option.not_isSome_iff_eq_none.mp missing⟩
    have blamed := @double_signers_named attack vals trusted derived round long
    have fits : ¬∃ index sig, attack.conflictingBlock.commit.signatures[index]? = some sig ∧
        sig.forBlock = true ∧ trusted.commit.signatures.length ≤ index := by
      rintro ⟨index, sig, found, forBlock, short⟩
      exact absurd (long index sig found forBlock) (by omega)
    obtain ⟨address, named, missing⟩ := unknown
    by_cases several : 2 ≤ (namedAddresses attack vals trusted).length
    · -- the sort looks at a nil validator
      have nil : ((namedAddresses attack vals trusted).map fun address =>
          (attack.conflictingBlock.validatorSet.getByAddress address).map Prod.snd).any
          Option.isNone = true :=
        any_eq_true.mpr ⟨none, mem_map.mpr ⟨address, named, by rw [missing]; rfl⟩, rfl⟩
      rw [LightClientAttackEvidence.sortedByPower, nil, length_map,
        decide_eq_true several, if_pos (by decide)] at blamed
      exact ⟨fun _ => ⟨derived, round, .inr ⟨⟨address, named, missing⟩, .inl several⟩⟩,
        fun _ => ⟨_, close_attack_error total blamed⟩⟩
    · -- a single nil validator is only met when it is compared with the one listed
      have sole : namedAddresses attack vals trusted = [address] := by
        have positive := length_pos_of_mem named
        have one : (namedAddresses attack vals trusted).length = 1 := by omega
        obtain ⟨other, same⟩ := length_eq_one_iff.mp one
        rw [same] at named ⊢
        rw [mem_singleton.mp named]
      rw [sole, map_singleton, missing] at blamed
      have blamedNil : attack.getByzantineValidators vals trusted = .ok [none] := blamed
      have strayIff : Stray attack vals trusted evTime ↔
          (attack.byzantineValidators.getD []).length = 1 ∧
            power = attack.totalVotingPower ∧ attack.timestamp = evTime := by
        have total' : vals.totalVotingPower = .ok attack.totalVotingPower ↔
            power = attack.totalVotingPower := by rw [total, Except.ok.injEq]
        simp only [Stray, derived, round, fits, several, total', false_or, true_and]
        exact and_iff_right ⟨address, named, missing⟩
      rw [strayIff]
      constructor
      · rintro ⟨text, panics⟩
        by_contra other
        obtain ⟨verdict, fine⟩ := @close_attack_total attack vals trusted _ power evTime total
          blamedNil fun same time count => absurd ⟨count.symm, same.symm, time⟩ other
        rw [fine] at panics
        cases panics
      · rintro ⟨count, same, time⟩
        obtain ⟨listed, list⟩ := length_eq_one_iff.mp count
        simp [closeAttack, LightClientAttackEvidence.validateABCI, total, same, time, blamedNil,
          list, LightClientAttackEvidence.compareValidators]
  · -- the own commit ends before the conflicting one
    have short : ∃ index sig, attack.conflictingBlock.commit.signatures[index]? = some sig ∧
        sig.forBlock = true ∧ trusted.commit.signatures.length ≤ index := by
      simpa only [not_forall, exists_prop, not_lt] using long
    obtain ⟨text, failed⟩ := @double_signers_error attack trusted.commit
      attack.conflictingBlock.commit.signatures 0 (by simpa using short)
    have blamed : attack.getByzantineValidators vals trusted = .error text := by
      simp [LightClientAttackEvidence.getByzantineValidators, derived, round, failed]
    exact ⟨fun _ => ⟨derived, round, .inl short⟩, fun _ => ⟨_, close_attack_error total blamed⟩⟩

theorem close_attack_panics_iff (evTime : Time) (total : vals.totalVotingPower = .ok power) :
    (∃ text, closeAttack attack vals trusted evTime = .error text) ↔
      Stray attack vals trusted evTime := by
  by_cases steady : Steady attack vals trusted
  · obtain ⟨validators, blamed, known, _⟩ := blamed_of_steady steady
    obtain ⟨verdict, fine⟩ := @close_attack_total attack vals trusted _ power evTime total
      blamed fun _ _ _ => compare_validators_total _ known
    constructor
    · rintro ⟨text, panics⟩
      rw [fine] at panics
      cases panics
    · rintro ⟨derived, round, broken⟩
      obtain ⟨long, all⟩ := steady derived round
      rcases broken with ⟨index, sig, found, forBlock, short⟩ | ⟨⟨address, named, missing⟩, _⟩
      · exact absurd (long index sig found forBlock) (by omega)
      · have found := all address named
        rw [missing] at found
        cases found
  · exact stray_of_not_steady total steady

end

section

variable {attack : LightClientAttackEvidence} {vals : ValidatorSet} {trusted : SignedHeader}

theorem steady_of_blamed {validators : List (Option Validator)}
    (blamed : attack.getByzantineValidators vals trusted = .ok validators)
    (known : none ∉ validators) : Steady attack vals trusted := by
  intro derived round
  have long : ∀ index sig, attack.conflictingBlock.commit.signatures[index]? = some sig →
      sig.forBlock = true → index < trusted.commit.signatures.length := by
    intro index sig found forBlock
    by_contra short
    obtain ⟨text, failed⟩ := @double_signers_error attack trusted.commit
      attack.conflictingBlock.commit.signatures 0
      ⟨index, sig, found, forBlock, by omega⟩
    simp [LightClientAttackEvidence.getByzantineValidators, derived, round, failed] at blamed
  refine ⟨long, fun address named => ?_⟩
  rw [double_signers_named derived round long, LightClientAttackEvidence.sortedByPower] at blamed
  split at blamed
  · cases blamed
  · by_contra missing
    have nil := Option.not_isSome_iff_eq_none.mp missing
    refine known (Except.ok.inj blamed ▸ (perm_insertionSort _ _).mem_iff.mpr ?_)
    exact mem_map.mpr ⟨address, named, by rw [nil]; rfl⟩

variable {evTime : Time}

theorem abci_compared (valid : attack.validateABCI vals trusted evTime = .ok none) :
    ∃ validators, attack.getByzantineValidators vals trusted = .ok validators ∧
      validators.map (Option.map Validator.address) =
        (attack.byzantineValidators.getD []).map fun val => some val.address := by
  rw [LightClientAttackEvidence.validateABCI] at valid
  obtain ⟨power, total, valid⟩ := bind_ok.mp valid
  cases blamed : attack.getByzantineValidators vals trusted with
  | error text =>
    simp only [total, blamed, bind_eq, pure_eq] at valid
    split at valid
    · cases valid
    · split at valid <;> cases valid
  | ok validators =>
    simp only [total, blamed, bind_eq, pure_eq] at valid
    split at valid
    · cases valid
    · split at valid
      · cases valid
      · split at valid
        · cases valid
        · split at valid
          · cases valid
          · rename_i count
            exact ⟨validators, rfl, compare_validators_addresses _ (not_not.mp count) valid⟩

theorem listed_perm_named (valid : attack.validateABCI vals trusted evTime = .ok none) :
    ((attack.byzantineValidators.getD []).map Validator.address).Perm
      (namedAddresses attack vals trusted) := by
  obtain ⟨validators, blamed, addresses⟩ := abci_compared valid
  have known : none ∉ validators := by
    intro member
    have nil : none ∈ validators.map (Option.map Validator.address) :=
      mem_map.mpr ⟨none, member, rfl⟩
    rw [addresses] at nil
    simp at nil
  obtain ⟨same, blamed', _, perm⟩ := blamed_of_steady (steady_of_blamed blamed known)
  cases blamed.symm.trans blamed'
  rw [addresses] at perm
  have reduced := perm.filterMap id
  simpa [filterMap_map, Function.comp_def] using reduced

theorem blame_right_iff_genuine {crypto : Crypto}
    (valid : attack.validateABCI vals trusted evTime = .ok none) :
    BlameRight crypto attack vals trusted ↔ Genuine crypto attack vals trusted := by
  have perm := listed_perm_named valid
  constructor
  · intro right
    refine ⟨fun address named => ?_, perm.nodup_iff.mp right.once⟩
    obtain ⟨val, listed, rfl⟩ := mem_map.mp (perm.mem_iff.mpr named)
    exact right.signed val listed
  · intro genuine
    exact ⟨fun val listed => genuine.signed _ (perm.mem_iff.mp (mem_map_of_mem listed)),
      perm.nodup_iff.mpr genuine.once⟩

end

/-- The validator sets of the node have a total power and a proposer. -/
def Stores.Sane (stores : Stores) : Prop :=
  ∀ height vals, stores.loadValidators height = .ok vals →
    (∃ power, vals.totalVotingPower = .ok power) ∧ ∃ pubKey, proposerKey vals = .ok pubKey

/-- Evidence as it comes out of its decoding and `ValidateBasic`. -/
structure DecodedAttack (hashing : Merkle.Hashing) (attack : LightClientAttackEvidence) :
    Prop where
  valid : attack.validateBasic hashing = none
  power : ∃ power, attack.conflictingBlock.validatorSet.totalVotingPower = .ok power
  blockID : attack.conflictingBlock.commit.blockID.validateBasic = none
  times : ∀ sig ∈ attack.conflictingBlock.commit.signatures,
    (stdTimeMarshal sig.timestamp).isSome = true

structure Faces (env : Env) (attack : LightClientAttackEvidence) (common : SignedHeader)
    (vals : ValidatorSet) (trusted : SignedHeader) : Prop where
  signed : env.stores.getSignedHeader attack.commonHeight = .ok common
  loaded : env.stores.loadValidators attack.commonHeight = .ok vals
  chosen : env.stores.trustedHeader attack common = .ok trusted

section

variable {env : Env} {attack : LightClientAttackEvidence} {common trusted : SignedHeader}
  {vals : ValidatorSet}

theorem DecodedAttack.proposer (decoded : DecodedAttack env.hashing attack) :
    ∃ pubKey, proposerKey attack.conflictingBlock.validatorSet = .ok pubKey := by
  have valid := decoded.valid
  simp only [LightClientAttackEvidence.validateBasic] at valid
  have block : attack.conflictingBlock.validateBasic env.hashing
      attack.conflictingBlock.header.chainID = none := by
    split at valid
    · cases valid
    · split at valid
      · cases valid
      · split at valid
        · cases valid
        · exact Option.map_eq_none_iff.mp valid
  have set : attack.conflictingBlock.validatorSet.validateBasic = none := by
    rw [LightBlock.validateBasic] at block
    split at block
    · cases block
    · split at block
      · cases block
      · assumption
  rw [ValidatorSet.validateBasic] at set
  split at set
  · cases set
  · rename_i nonempty
    split at set
    · cases set
    · cases proposer : attack.conflictingBlock.validatorSet.proposer with
      | none => simp [proposer] at set
      | some val =>
        have filled : attack.conflictingBlock.validatorSet.validators.isEmpty = false :=
          Bool.eq_false_iff.mpr nonempty
        exact ⟨val.pubKey, by simp [proposerKey, ValidatorSet.getProposer, filled, proposer]⟩

theorem DecodedAttack.readable (decoded : DecodedAttack env.hashing attack) (chainID : ChainID)
    (set : ValidatorSet) (mode : VerifyMode)
    (ignored : ∀ sig, mode.ignoreSig sig = !sig.forBlock)
    (long : mode.lookUpByIndex = true →
      set.size = attack.conflictingBlock.commit.signatures.length) :
    ∀ entry ∈ attack.conflictingBlock.commit.signatures.zipIdx,
      Readable chainID set attack.conflictingBlock.commit mode entry := by
  rintro ⟨sig, index⟩ member looked
  have found : attack.conflictingBlock.commit.signatures[index]? = some sig := by
    simpa using mk_mem_zipIdx_iff_getElem?.mp member
  have forBlock : sig.forBlock = true := by
    rw [ignored] at looked
    simpa using looked
  refine ⟨fun byIndex => ?_, vote_sign_bytes_total found forBlock decoded.blockID
    (decoded.times sig (mem_of_getElem? found))⟩
  have bound := (List.getElem?_eq_some_iff.mp found).1
  have size : set.validators.length = _ := long byIndex
  omega

theorem verify_attack_total (decoded : DecodedAttack env.hashing attack)
    (own : (∃ power, vals.totalVotingPower = .ok power) ∧ ∃ pubKey, proposerKey vals = .ok pubKey) :
    ∃ result, verifyLightClientAttack env.crypto env.hashing attack common trusted vals =
      .ok result := by
  obtain ⟨⟨power, total⟩, pubKey, key⟩ := own
  obtain ⟨conflictingKey, proposer⟩ := decoded.proposer
  obtain ⟨conflictingPower, conflictingTotal⟩ := decoded.power
  have jump : ∃ result, verifyJump env.crypto attack common trusted vals = .ok result := by
    rw [verifyJump]
    split
    · have trusting : ∃ result, verifyCommitLightTrusting env.crypto trusted.header.chainID vals
          attack.conflictingBlock.commit defaultTrustLevel = .ok result := by
        simp only [verifyCommitLightTrusting, total, bind_eq, pure_eq]
        split
        · exact ⟨_, rfl⟩
        · split
          · exact ⟨_, rfl⟩
          · exact verify_with_total key (decoded.readable _ vals trustingMode
              (fun _ => rfl) fun byIndex => by cases byIndex)
      obtain ⟨result, passed⟩ := trusting
      exact ⟨_, by simp only [passed, bind_eq, pure_eq]; rfl⟩
    · split <;> exact ⟨_, rfl⟩
  have light : ∃ result, verifyCommitLight env.crypto trusted.header.chainID
      attack.conflictingBlock.validatorSet attack.conflictingBlock.commit.blockID
      attack.conflictingBlock.height attack.conflictingBlock.commit = .ok result := by
    rw [verifyCommitLight]
    cases basic : verifyBasicValsAndCommit attack.conflictingBlock.validatorSet
        attack.conflictingBlock.commit attack.conflictingBlock.height
        attack.conflictingBlock.commit.blockID with
    | some error => exact ⟨_, rfl⟩
    | none =>
    have size : attack.conflictingBlock.validatorSet.size =
        attack.conflictingBlock.commit.signatures.length := by
      by_contra other
      simp [verifyBasicValsAndCommit, other] at basic
    simp only [conflictingTotal, bind_eq]
    exact verify_with_total proposer (decoded.readable _ _ lightMode (fun _ => rfl) fun _ => size)
  obtain ⟨jumped, jumps⟩ := jump
  obtain ⟨verified, verifies⟩ := light
  simp only [verifyLightClientAttack, jumps, verifies, bind_eq, pure_eq]
  cases jumped with
  | some error => exact ⟨_, rfl⟩
  | none =>
  cases verified with
  | some error => exact ⟨_, rfl⟩
  | none =>
  dsimp only
  split
  · exact ⟨_, rfl⟩
  · split <;> exact ⟨_, rfl⟩

theorem verify_attack_close (faces : Faces env attack common vals trusted) (evTime : Time)
    (passed : verifyLightClientAttack env.crypto env.hashing attack common trusted vals =
      .ok none) :
    verifyAttack env attack evTime = closeAttack attack vals trusted evTime := by
  rw [verifyAttack, faces.signed]
  simp only [faces.loaded, faces.chosen, passed, bind_eq]
  rfl

theorem faces_of_no_refusal {state : SM.State}
    (unrefused : ∀ error, verify env state (.lightClientAttack attack) ≠ .ok (.refused error)) :
    ∃ common vals trusted, Faces env attack common vals trusted ∧
      isExpired state attack.commonHeight common.header.time = false ∧
      verify env state (.lightClientAttack attack) =
        verifyAttack env attack common.header.time := by
  cases found : env.stores.loadBlockMeta (Evidence.lightClientAttack attack).height with
  | none => exact absurd (by simp only [verify, found]; rfl) (unrefused (.missingBlock _))
  | some header =>
  cases expired : isExpired state (Evidence.lightClientAttack attack).height header.time with
  | true => exact absurd (verify_of_expired found expired) (unrefused _)
  | false =>
  have content : verify env state (.lightClientAttack attack) =
      verifyAttack env attack header.time := verify_of_young found expired
  rw [content] at unrefused ⊢
  rw [verifyAttack] at unrefused
  cases signed : env.stores.getSignedHeader attack.commonHeight with
  | error error => simp [signed] at unrefused
  | ok common =>
  have same : common.header = header := by
    have meta' : env.stores.loadBlockMeta attack.commonHeight = some header := found
    rw [Stores.getSignedHeader, meta'] at signed
    cases commit : env.stores.loadBlockCommit attack.commonHeight with
    | none => simp [commit] at signed
    | some value =>
      simp only [commit, Except.ok.injEq] at signed
      rw [← signed]
  cases loaded : env.stores.loadValidators attack.commonHeight with
  | error text => simp [signed, loaded] at unrefused
  | ok vals =>
  cases chosen : env.stores.trustedHeader attack common with
  | error error => simp [signed, loaded, chosen] at unrefused
  | ok trusted =>
    exact ⟨common, vals, trusted, ⟨signed, loaded, chosen⟩, same ▸ expired, same ▸ rfl⟩

end

/-- Verification panics exactly on a stray address, and of the evidence that it
accepts the blame is right exactly if the signatures are genuine. -/
theorem attack_blame_iff (env : Env) (state : SM.State) (attack : LightClientAttackEvidence)
    (sane : env.stores.Sane) (decoded : DecodedAttack env.hashing attack) :
    ((∃ text, verify env state (.lightClientAttack attack) = .error text) ↔
      ∃ common vals trusted, Faces env attack common vals trusted ∧
        isExpired state attack.commonHeight common.header.time = false ∧
        verifyLightClientAttack env.crypto env.hashing attack common trusted vals = .ok none ∧
        Stray attack vals trusted common.header.time) ∧
    (verify env state (.lightClientAttack attack) = .ok .accepted →
      ∃ common vals trusted, Faces env attack common vals trusted ∧
        (BlameRight env.crypto attack vals trusted ↔ Genuine env.crypto attack vals trusted)) := by
  refine ⟨⟨?_, ?_⟩, ?_⟩
  · rintro ⟨text, panics⟩
    obtain ⟨common, vals, trusted, faces, young, same⟩ := faces_of_no_refusal (by
      intro error refused
      rw [panics] at refused
      cases refused)
    have own := sane _ _ faces.loaded
    obtain ⟨⟨power, total⟩, _⟩ := id own
    obtain ⟨result, attacked⟩ := @verify_attack_total env attack common trusted vals decoded own
    refine ⟨common, vals, trusted, faces, young, ?_⟩
    cases result with
    | some error =>
      rw [same, verifyAttack, faces.signed] at panics
      simp [faces.loaded, faces.chosen, attacked] at panics
    | none =>
      rw [same, verify_attack_close faces _ attacked] at panics
      exact ⟨attacked, (close_attack_panics_iff _ total).mp ⟨text, panics⟩⟩
  · rintro ⟨common, vals, trusted, faces, young, attacked, stray⟩
    obtain ⟨⟨power, total⟩, _⟩ := sane _ _ faces.loaded
    obtain ⟨text, panics⟩ := (close_attack_panics_iff _ total).mpr stray
    refine ⟨text, ?_⟩
    have closed := (verify_attack_close faces common.header.time attacked).trans panics
    have found : env.stores.loadBlockMeta attack.commonHeight = some common.header := by
      have signed := faces.signed
      rw [Stores.getSignedHeader] at signed
      split at signed
      · cases signed
      · rename_i header found
        split at signed
        · cases signed
        · cases signed
          exact found
    have content : verify env state (.lightClientAttack attack) = _ := verify_of_young found young
    exact content.trans closed
  · intro accepted
    obtain ⟨common, vals, trusted, faces, _, same⟩ := faces_of_no_refusal (by
      intro error refused
      rw [accepted] at refused
      cases refused)
    refine ⟨common, vals, trusted, faces, ?_⟩
    obtain ⟨common', vals', trusted', signed, loaded, chosen, _, valid⟩ :=
      (attack_accepted_iff env).mp (same.symm.trans accepted)
    cases faces.signed.symm.trans signed
    cases faces.loaded.symm.trans loaded
    cases faces.chosen.symm.trans chosen
    exact blame_right_iff_genuine valid

section Framed

/-- Cryptography in which a key is its only signature. -/
def keyCrypto : Crypto where
  verifySignature pubKey _ signature := signature == pubKey.bytes
  address pubKey := pubKey.bytes
  batchMalformed _ _ := none
  batchVerify entries := (entries.all fun entry => entry.signature == entry.pubKey.bytes,
    entries.map fun entry => entry.signature == entry.pubKey.bytes)

def framedValidator (byte : UInt8) (power : Int) : Validator :=
  ⟨List.replicate 20 byte, ⟨.ed25519, List.replicate 20 byte⟩, power, 0⟩

def framedSet : ValidatorSet :=
  ⟨[framedValidator 1 10, framedValidator 2 3], some (framedValidator 1 10), 13⟩

def forgedSet : ValidatorSet :=
  ⟨[framedValidator 1 10, framedValidator 3 1], some (framedValidator 1 10), 11⟩

def framedHeader (height : Int) (set : ValidatorSet) : Header :=
  { SM.sharedHeader with height := height, validatorsHash := set.hash SM.valueHash }

def framedCommit (header : Header) (sigs : List CommitSig) : Commit :=
  ⟨header.height, 0, ⟨header.hash SM.valueHash, ⟨1, List.replicate 32 4⟩⟩, sigs⟩

/-- The attacker's signature reaches both thresholds; the other is not checked. -/
def forgedBlock (second : CommitSig) : LightBlock :=
  ⟨⟨framedHeader 2 forgedSet, framedCommit (framedHeader 2 forgedSet)
    [⟨.commit, List.replicate 20 1, 2000, List.replicate 20 1⟩, second]⟩, forgedSet⟩

def ownHeader (height : Int) : SignedHeader :=
  ⟨framedHeader height framedSet, framedCommit (framedHeader height framedSet) []⟩

def framedStores : Stores where
  loadBlockMeta height := some (ownHeader height).header
  loadBlockCommit height := some (ownHeader height).commit
  height := 2
  loadValidators _ := .ok framedSet

def framedEnv : Env := ⟨keyCrypto, SM.valueHash, framedStores⟩

def framedEvidence (second : CommitSig) (listed : List Validator) : LightClientAttackEvidence :=
  ⟨forgedBlock second, 1, some listed, 13, 2000⟩

def framingSig : CommitSig := ⟨.commit, List.replicate 20 2, 2000, [9]⟩

theorem bystander_blamed :
    (framedEvidence framingSig framedSet.validators).validateBasic SM.valueHash = none ∧
    verify framedEnv SM.sharedState
      (.lightClientAttack (framedEvidence framingSig framedSet.validators)) = .ok .accepted ∧
    ¬BlameRight keyCrypto (framedEvidence framingSig framedSet.validators) framedSet
      (ownHeader 2) := by
  refine ⟨by decide +kernel, by decide +kernel, fun right => ?_⟩
  obtain ⟨index, val, found, ⟨position, sig, bytes, here, _, _, verified⟩, _⟩ :=
    right.signed (framedValidator 2 3) (by decide +kernel)
  have other : (blameSet (framedEvidence framingSig framedSet.validators) framedSet
      (ownHeader 2)).getByAddress (framedValidator 2 3).address =
        some (1, framedValidator 2 3) := by decide +kernel
  cases other.symm.trans found
  have member : sig ∈ (forgedBlock framingSig).commit.signatures := mem_of_getElem? here
  have unsigned : sig.signature ≠ List.replicate 20 2 := by
    rcases mem_cons.mp member with rfl | second
    · decide
    · cases mem_singleton.mp second
      decide
  exact unsigned (beq_iff_eq.mp verified)

theorem framed_stores_sane : framedStores.Sane := by
  intro height vals loaded
  cases loaded
  exact ⟨⟨13, by decide⟩, ⟨_, rfl⟩⟩

theorem framed_evidence_decoded : DecodedAttack SM.valueHash
    (framedEvidence .newAbsent [framedValidator 1 10]) where
  valid := by decide +kernel
  power := ⟨11, by decide⟩
  blockID := by decide +kernel
  times := by
    intro sig member
    rcases mem_cons.mp member with rfl | second
    · decide +kernel
    · cases mem_singleton.mp second
      decide +kernel

theorem attacker_blamed :
    verify framedEnv SM.sharedState
      (.lightClientAttack (framedEvidence .newAbsent [framedValidator 1 10])) = .ok .accepted ∧
    ∃ common vals trusted,
      Faces framedEnv (framedEvidence .newAbsent [framedValidator 1 10]) common vals trusted ∧
      BlameRight keyCrypto (framedEvidence .newAbsent [framedValidator 1 10]) vals trusted := by
  have accepted : verify framedEnv SM.sharedState
      (.lightClientAttack (framedEvidence .newAbsent [framedValidator 1 10])) =
        .ok .accepted := by decide +kernel
  obtain ⟨common, vals, trusted, faces, right⟩ := (attack_blame_iff framedEnv SM.sharedState
    (framedEvidence .newAbsent [framedValidator 1 10]) framed_stores_sane
    framed_evidence_decoded).2 accepted
  refine ⟨accepted, common, vals, trusted, faces, right.mpr ?_⟩
  have loaded : vals = framedSet := (Except.ok.inj faces.loaded).symm
  have chosen : trusted = ownHeader 2 := by
    have choice := faces.chosen
    exact (Except.ok.inj choice).symm
  rw [loaded, chosen]
  have named : namedAddresses (framedEvidence .newAbsent [framedValidator 1 10]) framedSet
      (ownHeader 2) = [List.replicate 20 1] := by decide +kernel
  refine ⟨?_, by rw [named]; exact nodup_singleton _⟩
  rw [named]
  intro address member
  rw [mem_singleton.mp member]
  have derived : (framedEvidence .newAbsent [framedValidator 1 10]).conflictingHeaderIsInvalid
      (ownHeader 2).header = true := by decide +kernel
  obtain ⟨bytes, message⟩ : ∃ bytes, (forgedBlock .newAbsent).commit.voteSignBytes
      (ownHeader 2).header.chainID 0 = .ok bytes :=
    vote_sign_bytes_total rfl rfl framed_evidence_decoded.blockID
      (framed_evidence_decoded.times _ mem_cons_self)
  refine ⟨0, framedValidator 1 10, by decide +kernel, ⟨0, _, bytes, rfl, rfl, message, rfl⟩, ?_⟩
  intro other
  rw [derived] at other
  cases other

end Framed

end Tendermint.EvPool
