import Tendermint.Light.Backwards

/-!
What the light client comes to trust, as long as the correct validators uphold a chain. A block
that forward verification saves has a correct signer. Nothing is said of blocks that are saved
backwards, as those are compared with nothing.
-/

namespace Tendermint.Light

open Types List
open Quorum (weight)

def MostlyCorrect (correct : PubKey → Prop) (vals : ValidatorSet) : Prop :=
  ∃ faulty : Finset Nat, 3 * weight vals.power faulty ≤ total vals ∧
    ∀ index val, index ∉ faulty → vals.validators[index]? = some val → correct val.pubKey

/-- The light blocks that a client has met: those it started with and those of its traces. -/
def Met (store : Store) (c : Client) (block : LightBlock) : Prop :=
  block ∈ store.blocks ∨ ∃ entry ∈ c.saved, ∃ trusted trace now,
    entry.origin = .forward trusted trace now ∧ block ∈ entry.block :: trace

def precommitOf (commit : Commit) (index : Nat) (sig : CommitSig) : Vote :=
  ⟨.precommit, commit.height, commit.round, commit.blockID, sig.timestamp, sig.validatorAddress,
    index, sig.signature⟩

/-- The hashes of a chain, with the votes that the holders of the keys have cast on it. All that
is said of signatures and of hashes is said of the blocks that were met. -/
structure Upheld (env : Env) (chainID : ChainID) (met : LightBlock → Prop)
    (cast : PubKey → Vote → Prop) (chain : Bytes → Prop) (correct : PubKey → Prop) : Prop where
  /-- No signature of a correct key is forged: its holder cast a vote with these bytes. -/
  unforged : ∀ {block : LightBlock} {index : Nat} {sig : CommitSig} {bytes : Bytes} {key : PubKey},
    met block → block.commit.signatures[index]? = some sig →
    voteSignBytes chainID (precommitOf block.commit index sig) = .ok bytes →
    env.crypto.verifySignature key bytes sig.signature = true → correct key →
    ∃ vote, cast key vote ∧ vote.Typed ∧ voteSignBytes chainID vote = .ok bytes
  voted : ∀ {key : PubKey} {vote : Vote}, correct key → cast key vote → vote.type = .precommit →
    vote.blockID.isZero = false → chain vote.blockID.hash
  named : ∀ {known block : LightBlock}, met known → met block → chain (known.hash env.hashing) →
    block.validatorSet.hash env.hashing = known.header.validatorsHash ∨
      block.validatorSet.hash env.hashing = known.header.nextValidatorsHash →
    MostlyCorrect correct block.validatorSet

/-- A block of the chain ID that comes with the validators of its header, which are a set. -/
structure Proper (env : Env) (chainID : ChainID) (block : LightBlock) : Prop where
  chain : block.header.chainID = chainID
  wellFormed : block.validatorSet.WellFormed
  own : block.validatorSet.hash env.hashing = block.header.validatorsHash
  height : InInt64 block.commit.height
  round : InInt32 block.commit.round
  blockID : block.commit.blockID.Typed

variable {env : Env} {chainID : ChainID} {met : LightBlock → Prop} {cast : PubKey → Vote → Prop}
  {chain : Bytes → Prop} {correct : PubKey → Prop}

section Step

variable {now : Time} {trusted untrusted : LightBlock}

theorem new_header_commit
    (valid : verifyNewHeaderAndVals env.hashing untrusted.signedHeader untrusted.validatorSet
      trusted.signedHeader now env.config.maxClockDrift = none) :
    untrusted.signedHeader.commit.blockID.isZero = false ∧
      untrusted.signedHeader.commit.blockID.hash = untrusted.hash env.hashing ∧
      untrusted.header.chainID.length ≤ maxChainIDLen := by
  unfold verifyNewHeaderAndVals at valid
  split at valid
  · cases valid
  rename_i signed
  unfold SignedHeader.validateBasic at signed
  split at signed
  · cases signed
  rename_i basic
  split at signed
  · cases signed
  rename_i inner
  split_ifs at signed with _ height hash
  refine ⟨?_, (not_not.mp hash).symm, Header.chain_id_short basic⟩
  have positive := Header.height_pos basic
  by_contra zero
  simp only [Commit.validateBasic, not_not.mp height] at inner
  rw [if_neg (by omega)] at inner
  split at inner
  · cases inner
  rw [if_pos (by omega), if_pos (by simpa using zero)] at inner
  cases inner

/-- A commit that carries more power than can be faulty is for a block of the chain. -/
theorem Upheld.signers_on_chain {vals : ValidatorSet} {block : LightBlock} {power : Int}
    (upheld : Upheld env chainID met cast chain correct) (known : met block)
    (proper : Proper env chainID block) (short : chainID.length ≤ maxChainIDLen)
    (signers : SignersWith env.crypto chainID vals block.commit power)
    (wellFormed : vals.WellFormed) (mostly : MostlyCorrect correct vals)
    (enough : total vals < 3 * power) (isBlock : block.commit.blockID.isZero = false) :
    chain block.commit.blockID.hash := by
  obtain ⟨faulty, few, right⟩ := mostly
  obtain ⟨members, -, signs, rfl⟩ := signers
  have honest : ∃ index ∈ members, index ∉ faulty := by
    by_contra none
    push Not at none
    have most := Quorum.weight_mono vals.power members faulty none
      fun index _ => ValidatorSet.power_nonneg wellFormed index
    omega
  obtain ⟨index, member, outside⟩ := honest
  obtain ⟨val, sig, place, bytes, found, present, written, verified⟩ := signs index member
  have isCorrect := right index val outside found
  obtain ⟨vote, voted, typed, same⟩ := upheld.unforged known present written verified isCorrect
  have bounded : chainID.length < 2 ^ 32 := Nat.lt_of_le_of_lt short (by decide)
  obtain ⟨_, type, _, _, blockID, _⟩ := vote_sign_bytes_injective typed
    (⟨proper.height, proper.round, proper.blockID⟩ : (precommitOf block.commit place sig).Typed)
    bounded bounded same written
  have sameBlock : vote.blockID = block.commit.blockID := blockID
  rw [← sameBlock] at isBlock ⊢
  exact upheld.voted isCorrect voted type isBlock

theorem link_accepts (link : Link env now trusted untrusted) :
    verifyNewHeaderAndVals env.hashing untrusted.signedHeader untrusted.validatorSet
      trusted.signedHeader now env.config.maxClockDrift = none ∧
    (untrusted.header.validatorsHash = trusted.header.nextValidatorsHash ∧
        verifyCommitLight env.crypto trusted.header.chainID untrusted.validatorSet
          untrusted.signedHeader.commit.blockID untrusted.header.height
          untrusted.signedHeader.commit = .ok none ∨
      validateTrustLevel env.config.trustLevel = none ∧
        verifyCommitLightTrusting env.crypto trusted.header.chainID trusted.validatorSet
          untrusted.signedHeader.commit env.config.trustLevel = .ok none) := by
  unfold Link verifyLink verify at link
  split at link
  · obtain ⟨level, _, valid, accepted⟩ := non_adjacent_checks link
    exact ⟨valid, .inr ⟨level, accepted⟩⟩
  · obtain ⟨_, _, valid, same, accepted⟩ := adjacent_checks link
    exact ⟨valid, .inl ⟨same, own_commit_ok accepted⟩⟩

theorem third_of_trusted {vals : ValidatorSet} (wellFormed : vals.WellFormed) {level : Fraction}
    (valid : validateTrustLevel level = none) {power : Int}
    (above : total vals * level.numerator < power * level.denominator) :
    total vals < 3 * power := by
  have third : (level.denominator : Int) ≤ 3 * level.numerator := by
    unfold validateTrustLevel at valid
    split at valid
    · cases valid
    · omega
  have nonneg := (total_bounds vals wellFormed).1
  by_contra few
  have scaled := Int.mul_le_mul_of_nonneg_left third nonneg
  have fewer := Int.mul_le_mul_of_nonneg_right (Int.not_lt.mp few)
    (Int.natCast_nonneg level.denominator)
  linarith

end Step

section Run

variable (faithful : env.crypto.BatchFaithful)
  (small : env.config.trustLevel.denominator < 2 ^ 63)

include faithful small

section

variable (upheld : Upheld env chainID met cast chain correct)

include upheld

theorem link_on_chain {now : Time} {trusted untrusted : LightBlock} (known : met trusted)
    (knownNext : met untrusted) (proper : Proper env chainID trusted)
    (properNext : Proper env chainID untrusted) (link : Link env now trusted untrusted)
    (onChain : chain (trusted.hash env.hashing)) : chain (untrusted.hash env.hashing) := by
  obtain ⟨valid, accepted⟩ := link_accepts link
  obtain ⟨block, same, short⟩ := new_header_commit valid
  rw [properNext.chain] at short
  rw [proper.chain] at accepted
  rw [← same]
  rcases accepted with ⟨next, own⟩ | ⟨level, trusting⟩
  · obtain ⟨power, signers, most⟩ := needed_two_thirds faithful properNext.wellFormed
      light_counts_for_block ((verify_commit_unfold _ _ properNext.wellFormed ..).2.mp own).2
    have nonneg := (total_bounds _ properNext.wellFormed).1
    exact upheld.signers_on_chain knownNext properNext short signers properNext.wellFormed
      (upheld.named known knownNext onChain (.inr (properNext.own.trans next))) (by omega) block
  · have ordered := validate_trust_level_ok level
    obtain ⟨power, signers, above⟩ := trusting_signers _ _ faithful proper.wellFormed
      ⟨by omega, by omega⟩ ordered (.inl small) _ _ trusting
    exact upheld.signers_on_chain knownNext properNext short signers proper.wellFormed
      (upheld.named known known onChain (.inl proper.own))
      (third_of_trusted proper.wellFormed level above) block

theorem links_on_chain {now : Time} {first : LightBlock} {rest : List LightBlock}
    (links : (first :: rest).IsChain (Link env now))
    (known : ∀ block ∈ first :: rest, met block ∧ Proper env chainID block)
    (onChain : chain (first.hash env.hashing)) :
    ∀ block ∈ first :: rest, chain (block.hash env.hashing) := by
  induction rest generalizing first with
  | nil => simpa using onChain
  | cons second rest ih =>
  obtain ⟨link, later⟩ := isChain_cons_cons.mp links
  obtain ⟨firstMet, firstProper⟩ := known first (by simp)
  obtain ⟨secondMet, secondProper⟩ := known second (by simp)
  have next := link_on_chain faithful small upheld firstMet secondMet firstProper secondProper link
    onChain
  intro block member
  rcases mem_cons.mp member with rfl | deeper
  · exact onChain
  · exact ih later (fun block inside => known block (mem_cons_of_mem _ inside)) next block deeper

end

end Run

section Upheld

def laterWorld : World where
  lightBlock _ _ _ := .ok laterBlock
  responses _ _ := []
  comparisons _ _ := [.matched]
  conflict _ _ _ _ := none

def laterRun : Client :=
  (runOperations linkedEnv laterWorld [(5, .update 400)] (Client.restore 0 [1] ⟨[lowerBlock], 1⟩)).2

theorem later_run_saved : laterRun.saved =
    [⟨laterBlock, .forward lowerBlock [lowerBlock, laterBlock] 400⟩] ∧
    laterBlock ∈ laterRun.trustedStore.blocks := by
  decide +kernel

theorem later_run_met {block : LightBlock} (met : Met ⟨[lowerBlock], 1⟩ laterRun block) :
    block = lowerBlock ∨ block = laterBlock := by
  rcases met with stored | ⟨entry, member, trusted, trace, now, origin, inside⟩
  · exact .inl (mem_singleton.mp stored)
  · rw [later_run_saved.1] at member
    cases mem_singleton.mp member
    cases origin
    simpa [or_comm, or_assoc] using inside

def laterCast (_ : PubKey) (vote : Vote) : Prop :=
  ∃ block ∈ [lowerBlock, laterBlock], ∃ index sig, block.commit.signatures[index]? = some sig ∧
    vote = precommitOf block.commit index sig

def laterChain (hash : Bytes) : Prop :=
  hash ∈ [lowerBlock, laterBlock].map (LightBlock.hash checksum)

theorem later_proper {block : LightBlock} (met : Met ⟨[lowerBlock], 1⟩ laterRun block) :
    Proper linkedEnv [99] block := by
  have wellFormed : soleSet.WellFormed := ⟨by decide, by decide, by decide, by decide⟩
  have numbers : ∀ block ∈ [lowerBlock, laterBlock], InInt64 block.commit.height ∧
      InInt32 block.commit.round ∧ block.commit.blockID.Typed := by
    unfold InInt64 InInt32 BlockID.Typed PartSetHeader.Typed
    decide +kernel
  rcases later_run_met met with rfl | rfl
  · obtain ⟨height, round, blockID⟩ := numbers lowerBlock (by simp)
    exact ⟨rfl, wellFormed, rfl, height, round, blockID⟩
  · obtain ⟨height, round, blockID⟩ := numbers laterBlock (by simp)
    exact ⟨rfl, wellFormed, rfl, height, round, blockID⟩

theorem later_upheld :
    Upheld linkedEnv [99] (Met ⟨[lowerBlock], 1⟩ laterRun) laterCast laterChain fun _ => True where
  unforged met found written _ _ := by
    have typed := later_proper met
    exact ⟨_, ⟨_, by simpa using later_run_met met, _, _, found, rfl⟩,
      ⟨typed.height, typed.round, typed.blockID⟩, written⟩
  voted _ cast _ _ := by
    obtain ⟨block, member, _, _, _, rfl⟩ := cast
    have same : ∀ block ∈ [lowerBlock, laterBlock],
        block.commit.blockID.hash = block.hash checksum := by decide +kernel
    exact mem_map.mpr ⟨block, member, (same block member).symm⟩
  named _ met _ _ := ⟨∅, by
    simpa [weight] using (total_bounds _ (later_proper met).wellFormed).1, by simp⟩

end Upheld

end Tendermint.Light
