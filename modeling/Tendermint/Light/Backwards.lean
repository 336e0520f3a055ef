import Tendermint.Light.Expiry

/-!
Backwards verification. The loop follows the hash links down from the first
trusted header and asks for every header on the way, also for the one at the
height of the new block. It ends with a header that the chain names there. The
new block was fetched by a request of its own and is compared with nothing, so
it is the block of the chain exactly when both requests got the same header.
-/

namespace Tendermint.Light

open Types List
open Merkle (Hashing)
open Program (Act)

section Chain

variable (hashing : Hashing) (Known : Header → Prop)

/-- The hash that the links from a header down name for a height. The headers
that anyone has are the known ones. -/
inductive Names (height : Int) : Header → Bytes → Prop
  | here (upper lower : Header) : height < upper.height → Known lower →
      lower.hash hashing = upper.lastBlockID.hash → lower.height = height →
      Names height upper upper.lastBlockID.hash
  | further (upper lower : Header) (hash : Bytes) : height < upper.height → Known lower →
      lower.hash hashing = upper.lastBlockID.hash → height < lower.height →
      Names height lower hash → Names height upper hash

def Apart : Prop :=
  ∀ header other, Known header → Known other → header.hash hashing = other.hash hashing →
    header = other

end Chain

section Loop

variable (env : Env) (world : World)

/-- A run of the loop that succeeds, with the header it ends with. -/
inductive Descends : Client → Header → Header → Client → Header → Prop
  | done (c : Client) (verified target : Header) : verified.height ≤ target.height →
      Descends c verified target c verified
  | link (c next final : Client) (verified target last : Header) (interim : LightBlock) :
      target.height < verified.height →
      lightBlockFromPrimary world (verified.height - 1) c = (.ok (.ok interim), next) →
      verifyBackwards env.hashing interim.header verified = none →
      Descends next interim.header target final last → Descends c verified target final last
  | replace (c next replaced final : Client) (verified target last : Header)
      (interim block : LightBlock) (fault : HeaderFault) :
      target.height < verified.height →
      lightBlockFromPrimary world (verified.height - 1) c = (.ok (.ok interim), next) →
      verifyBackwards env.hashing interim.header verified = some fault →
      findNewPrimary world target.height true next = (.ok (.ok block), replaced) →
      block.hash env.hashing = target.hash env.hashing →
      Descends replaced verified block.header final last → Descends c verified target final last

variable {env world}

variable {c final : Client} {target verified : Header} {remove : Bool}

theorem backwards_descends {fuel : Nat}
    (ran : backwards env world fuel verified target c = (.ok none, final)) :
    ∃ last, Descends env world c verified target final last := by
  induction fuel generalizing verified target c with
  | zero => cases ran
  | succ fuel ih =>
  rw [backwards] at ran
  split at ran
  · rename_i reached
    cases ran
    exact ⟨verified, .done _ verified target reached⟩
  rename_i above
  have higher : target.height < verified.height := Int.not_le.mp above
  obtain ⟨answer, next, fetched, ran⟩ := Act.bind_ok ran
  cases answer with
  | error error => cases ran
  | ok interim =>
  cases check : verifyBackwards env.hashing interim.header verified with
  | none =>
    simp only [check] at ran
    obtain ⟨last, rest⟩ := ih ran
    exact ⟨last, .link c next final verified target last interim higher fetched check rest⟩
  | some fault =>
    simp only [check] at ran
    obtain ⟨answer, replaced, found, ran⟩ := Act.bind_ok ran
    cases answer with
    | error error => cases ran
    | ok block =>
    simp only at ran
    split at ran
    · cases ran
    rename_i same
    obtain ⟨last, rest⟩ := ih ran
    exact ⟨last, .replace c next replaced final verified target last interim block
      fault higher fetched check found (not_not.mp same) rest⟩

structure World.Knows (world : World) (Known : Header → Prop) : Prop where
  lightBlock : ∀ number provider height block,
    world.lightBlock number provider height = .ok block → Known block.header
  responses : ∀ number height entry, entry ∈ world.responses number height →
    ∀ block, entry.2 = .ok block → Known block.header

variable {Known : Header → Prop}

theorem promote_returns {witnessIndex : Nat} {witnessesToRemove : List Nat} {block : LightBlock} :
    Keeps (promote remove witnessIndex witnessesToRemove block) fun answer =>
      ∀ given, answer = .ok given → given = block := by
  refine Keeps.modify (fun _ => ⟨rfl, rfl, rfl⟩) (Keeps.get fun c => ?_)
  split
  · exact Keeps.raise _
  refine Keeps.modify (fun _ => ⟨rfl, rfl, rfl⟩) ?_
  refine Keeps.bind (remove_witnesses_keeps) fun error _ => ?_
  split
  · exact Keeps.pure _ (by simp)
  · exact Keeps.pure _ (by simp)

theorem process_responses_returns (remove : Bool) (left : Nat)
    (responses : List (Nat × Except ProviderError LightBlock)) (witnessesToRemove : List Nat)
    (lastError : Option ProviderError) :
    Keeps (processResponses remove left responses witnessesToRemove lastError) fun answer =>
      ∀ block, answer = .ok block → ∃ entry ∈ responses, entry.2 = .ok block := by
  induction left generalizing responses witnessesToRemove lastError with
  | zero =>
    cases lastError with
    | none => exact Keeps.raise _
    | some error => exact Keeps.pure _ (by simp)
  | succ left ih =>
    cases responses with
    | nil => exact Keeps.raise _
    | cons entry rest =>
    have later : ∀ indexes error,
        Keeps (processResponses remove left rest indexes error) fun answer =>
          ∀ block, answer = .ok block → ∃ other ∈ entry :: rest, other.2 = .ok block := by
      intro indexes error
      refine (ih rest indexes error).weaken fun answer holds block same => ?_
      obtain ⟨other, member, here⟩ := holds block same
      exact ⟨other, mem_cons_of_mem _ member, here⟩
    obtain ⟨witnessIndex, answer⟩ := entry
    simp only [processResponses]
    split
    · rename_i block
      refine (promote_returns).weaken fun given holds other same => ?_
      exact ⟨_, mem_cons_self, by rw [holds other same]⟩
    · exact Keeps.pure _ (by simp)
    · exact Keeps.pure _ (by simp)
    all_goals exact later _ _

theorem find_new_primary_known (knows : world.Knows Known) {height : Int} :
    Keeps (findNewPrimary world height remove) fun answer =>
      ∀ block, answer = .ok block → Known block.header := by
  refine Keeps.get fun c => ?_
  split
  · exact Keeps.pure _ (by simp)
  refine Keeps.bind ask_keeps fun number _ => ?_
  refine (process_responses_returns _ _ _ _ _).weaken fun answer holds block same => ?_
  obtain ⟨entry, member, here⟩ := holds block same
  exact knows.responses _ _ entry member block here

theorem get_light_block_known (knows : world.Knows Known) (source : Provider) (height : Int) :
    Keeps (getLightBlock world source height) fun answer =>
      ∀ block, answer = .ok block → Known block.header :=
  Keeps.bind ask_keeps fun _ _ => Keeps.pure _ fun block same =>
    knows.lightBlock _ _ _ block same

theorem light_block_from_primary_known (knows : world.Knows Known) (height : Int) :
    Keeps (lightBlockFromPrimary world height) fun answer =>
      ∀ block, answer = .ok block → Known block.header := by
  refine Keeps.get fun c => ?_
  refine Keeps.bind (get_light_block_known knows _ _) fun answer known => ?_
  split
  · rename_i block
    exact Keeps.pure _ fun given same => by cases same; exact known block rfl
  · exact Keeps.pure _ (by simp)
  · exact Keeps.pure _ (by simp)
  all_goals exact find_new_primary_known knows

theorem verify_backwards_ok (untrusted trusted : Header)
    (valid : verifyBackwards env.hashing untrusted trusted = none) :
    untrusted.hash env.hashing = trusted.lastBlockID.hash := by
  unfold verifyBackwards at valid
  split at valid
  · cases valid
  split at valid
  · cases valid
  split at valid
  · cases valid
  split at valid
  · cases valid
  · rename_i same
    exact not_not.mp same

/-- Where the loop starts above the target, it ends with a known header, which the
chain names when it has the height of the target, and no other one is named. -/
theorem Descends.named (knows : world.Knows Known) (apart : Apart env.hashing Known) {last : Header}
    (descends : Descends env world c verified target final last) (known : Known target)
    (above : target.height < verified.height) :
    Known last ∧
      (last.height = target.height →
        Names env.hashing Known target.height verified (last.hash env.hashing)) ∧
      ∀ hash, Names env.hashing Known target.height verified hash →
        hash = last.hash env.hashing := by
  induction descends with
  | done c verified target reached => omega
  | link c next final verified target last interim _ fetched valid rest ih =>
    have knownInterim : Known interim.header :=
      ((light_block_from_primary_known knows _).run c).2 _ (by rw [fetched]) interim rfl
    have linked := verify_backwards_ok _ _ valid
    by_cases further : target.height < interim.header.height
    · obtain ⟨knownLast, sound, complete⟩ := ih known further
      refine ⟨knownLast, fun level => .further verified _ _ above knownInterim linked further
        (sound level), fun hash names => ?_⟩
      cases names with
      | here _ lower _ knownLower lowerLinked level =>
        have same := apart _ _ knownLower knownInterim (lowerLinked.trans linked.symm)
        rw [same] at level
        omega
      | further _ lower _ _ knownLower lowerLinked _ names =>
        have same := apart _ _ knownLower knownInterim (lowerLinked.trans linked.symm)
        exact complete hash (same ▸ names)
    · -- The interim header is at the target or under it, so the loop ends with it.
      cases rest with
      | link _ _ _ _ _ _ _ higher => omega
      | replace _ _ _ _ _ _ _ _ _ _ higher => omega
      | done =>
      refine ⟨knownInterim, fun level => ?_, fun hash names => ?_⟩
      · rw [linked]
        exact .here verified _ above knownInterim linked level
      · cases names with
        | here _ lower _ knownLower lowerLinked level => exact linked.symm
        | further _ lower _ _ knownLower lowerLinked higher _ =>
          have same := apart _ _ knownLower knownInterim (lowerLinked.trans linked.symm)
          rw [same] at higher
          omega
  | replace c next replaced final verified target last interim block fault _ fetched _ found same _
      ih =>
      have knownBlock : Known block.header :=
        ((find_new_primary_known knows).run next).2 _ (by rw [found]) block rfl
      -- The new primary has the target header itself.
      have target := apart _ _ knownBlock known same
      rw [target] at ih
      exact ih known above

end Loop

variable {env : Env} {world : World} {Known : Header → Prop}

theorem first_light_block (store : Store) (first : LightBlock)
    (isFirst : store.blocks.head? = some first) (found : Option LightBlock)
    (loaded : store.lightBlock store.firstLightBlockHeight = .ok found) : found = some first := by
  obtain ⟨rest, blocks⟩ := head?_eq_some_iff.mp isFirst
  have height : store.firstLightBlockHeight = first.height := by
    rw [Store.firstLightBlockHeight, isFirst]
  rw [height, Store.lightBlock] at loaded
  by_cases positive : first.height ≤ 0
  · rw [if_pos positive] at loaded
    cases loaded
  · rw [if_neg positive, blocks, find?_cons_of_pos (by simp)] at loaded
    exact (Except.ok.inj loaded).symm

variable {c final : Client} {block : LightBlock}

theorem update_trusted_saves {origin : Origin}
    (ran : updateTrustedLightBlock env block origin c = (.ok (), final)) :
    final.saved = c.saved ++ [⟨block, origin⟩] := by
  rw [updateTrustedLightBlock, Act.get_bind] at ran
  obtain ⟨store, between, loaded, modified⟩ := Act.bind_ok ran
  have state : between = c := (Prod.mk.inj loaded).2.symm
  rw [← (Prod.mk.inj modified).2, state]

theorem verify_light_block_descends {fuel : Nat} {latest first : LightBlock} {now : Time}
    (isLatest : c.latestTrustedBlock = some latest)
    (isFirst : c.trustedStore.blocks.head? = some first) (below : block.height < first.height)
    (old : block.height < latest.height)
    (saved : verifyLightBlock env world fuel block now c = (.ok none, final)) :
    ∃ ended last, Descends env world c first.header block.header ended last ∧
      final.saved = c.saved ++ [⟨block, .backwards first.header⟩] := by
  have lower : block.height < c.trustedStore.firstLightBlockHeight := by
    rw [Store.firstLightBlockHeight, isFirst]
    exact below
  rw [verifyLightBlock, Act.get_bind] at saved
  simp only [isLatest, if_neg (Int.not_le.mpr old), if_pos lower] at saved
  obtain ⟨found, between, loaded, saved⟩ := Act.bind_ok saved
  have state : between = c := (Prod.mk.inj loaded).2.symm
  have isFound := first_light_block _ _ isFirst found (Prod.mk.inj loaded).1
  subst state isFound
  obtain ⟨error, ended, ran, saved⟩ := Act.bind_ok saved
  cases error with
  | some error => cases saved
  | none =>
  obtain ⟨last, descends⟩ := backwards_descends ran
  obtain ⟨_, after, updated, done⟩ := Act.bind_ok saved
  cases done
  have same := ((backwards_keeps env world fuel first.header block.header).run between).1.saved
  rw [ran] at same
  exact ⟨ended, last, descends, by rw [update_trusted_saves updated, same]⟩

/-- A light block below the first trusted height that is verified and saved has the
hash that the links from the first trusted header name for its height exactly when
the loop's own request for that height was answered with its header. -/
theorem backwards_authentic_iff (knows : world.Knows Known) (apart : Apart env.hashing Known)
    (fuel : Nat) (block latest first : LightBlock) (now : Time) (c final : Client)
    (known : Known block.header) (isLatest : c.latestTrustedBlock = some latest)
    (isFirst : c.trustedStore.blocks.head? = some first) (below : block.height < first.height)
    (old : block.height < latest.height)
    (saved : verifyLightBlock env world fuel block now c = (.ok none, final)) :
    ∃ ended last, Descends env world c first.header block.header ended last ∧
      final.saved = c.saved ++ [⟨block, .backwards first.header⟩] ∧
      (Names env.hashing Known block.height first.header (block.hash env.hashing) ↔
        last.hash env.hashing = block.hash env.hashing) := by
  obtain ⟨ended, last, descends, kept⟩ :=
    verify_light_block_descends isLatest isFirst below old saved
  obtain ⟨knownLast, sound, complete⟩ := descends.named knows apart known below
  refine ⟨ended, last, descends, kept, fun names => (complete _ names).symm, fun same => ?_⟩
  have header := apart last block.header knownLast known same
  rw [← same]
  exact sound (by rw [header])

section Forged

def checksum : Hashing :=
  ⟨fun input => input.foldl (fun sum byte => sum * 31 + byte + 1) 7 :: List.replicate 31 0⟩

def linkedHeader (height : Int) (time : Time) (lastBlockID : BlockID) : Header :=
  { soleHeader height time with
    lastBlockID := lastBlockID
    validatorsHash := soleSet.hash checksum }

def linkedBlock (header : Header) : LightBlock where
  signedHeader := ⟨header, ⟨header.height, 0, ⟨header.hash checksum, ⟨1, zeroHash⟩⟩,
    [⟨.commit, soleSigner.address, header.time, [1]⟩]⟩⟩
  validatorSet := soleSet

def lowerBlock : LightBlock := linkedBlock (linkedHeader 1 100 .zero)

def forgedBlock : LightBlock := linkedBlock (linkedHeader 1 50 .zero)

def upperBlock : LightBlock := linkedBlock (linkedHeader 2 200 lowerBlock.commit.blockID)

def laterBlock : LightBlock := linkedBlock (linkedHeader 3 300 .zero)

def linkedEnv : Env where
  crypto := .acceptAll
  hashing := checksum
  config := ⟨500, .skipping, ⟨1, 3⟩, 10, 1000⟩

/-- The primary answers its first request with this block and the later ones with
the block of the chain. -/
def fickleWorld (block : LightBlock) : World where
  lightBlock number _ _ := .ok (if number = 0 then block else lowerBlock)
  responses _ _ := []
  comparisons _ _ := []
  conflict _ _ _ _ := none

def upperClient : Client := Client.restore 0 [1] ⟨[upperBlock], 1⟩

theorem forged_block_is_saved :
    lowerBlock.validateBasic checksum [99] = none ∧ forgedBlock.validateBasic checksum [99] = none ∧
      (verifyLightBlockAtHeight linkedEnv (fickleWorld forgedBlock) 5 1 300 upperClient).1 =
        .ok (.ok forgedBlock) ∧
      (verifyLightBlockAtHeight linkedEnv (fickleWorld forgedBlock) 5 1 300
        upperClient).2.trustedStore.blocks = [forgedBlock, upperBlock] ∧
      ¬ Names checksum (fun header => header = lowerBlock.header ∨ header = forgedBlock.header) 1
        upperBlock.header (forgedBlock.hash checksum) := by
  refine ⟨by decide +kernel, by decide +kernel, by decide +kernel, by decide +kernel, ?_⟩
  intro names
  generalize same : forgedBlock.hash checksum = hash at names
  cases names with
  | here => exact absurd same (by decide +kernel)
  | further _ lower _ _ known _ above _ =>
    rcases known with rfl | rfl
    · exact absurd above (by decide)
    · exact absurd above (by decide)

theorem lower_block_is_authentic :
    (verifyLightBlock linkedEnv (fickleWorld lowerBlock) 5 lowerBlock 300 upperClient).1 =
        .ok none ∧
      Names checksum (· = lowerBlock.header) 1 upperBlock.header (lowerBlock.hash checksum) := by
  have ran : (verifyLightBlock linkedEnv (fickleWorld lowerBlock) 5 lowerBlock 300 upperClient).1 =
      .ok none := by decide +kernel
  have knows : (fickleWorld lowerBlock).Knows (· = lowerBlock.header) := by
    constructor
    · intro number provider height block answer
      simp only [fickleWorld, ite_self, Except.ok.injEq] at answer
      rw [answer]
    · intro number height entry member
      cases member
  have apart : Apart linkedEnv.hashing (· = lowerBlock.header) := by
    rintro header other rfl rfl _
    rfl
  obtain ⟨ended, last, descends, _, authentic⟩ := backwards_authentic_iff knows apart 5 lowerBlock
    upperBlock upperBlock 300 upperClient _ rfl (by decide +kernel) (by decide +kernel) (by decide)
    (by decide) (Prod.fst_eq_iff.mp ran)
  have same : last = lowerBlock.header := (descends.named knows apart rfl (by decide)).1
  exact ⟨ran, authentic.mpr (by rw [same, LightBlock.hash])⟩

end Forged

end Tendermint.Light
