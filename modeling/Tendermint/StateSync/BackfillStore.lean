import Tendermint.StateSync.BlockQueue
import Tendermint.Types.Rebuilt

/-!
What a backfill stores. The verifying loop saves each header as it verifies it, and the
validator sets in batches from the top: a set is saved for a range of heights when the
header below tells of a change, and for the last range at the end. Of most heights only
the lower end of their batch is stored. The database does not fail here, and a set is
stored as it is but for its total power; its encoding is left out.
-/

namespace Tendermint.StateSync

open Types List
open Merkle (Hashing)

/-! ### The validator sets of the state store -/

structure ValidatorsInfo where
  lastHeightChanged : Int
  /-- Nothing where the set is stored at a lower height. -/
  validatorSet : Option ValidatorSet

abbrev ValidatorsStore := Int → Option ValidatorsInfo

def valSetCheckpointInterval : Int := 100000

def validatorsInfo (height lastHeightChanged : Int) (valSet : ValidatorSet) : ValidatorsInfo where
  lastHeightChanged
  validatorSet :=
    if height = lastHeightChanged ∨ height.tmod valSetCheckpointInterval = 0 then some valSet
    else none

def saveValidatorsInfo (height lastHeightChanged : Int) (valSet : ValidatorSet)
    (store : ValidatorsStore) : Except String ValidatorsStore :=
  if height < lastHeightChanged then
    .error "lastHeightChanged cannot be greater than ValidatorsInfo height"
  else .ok (Function.update store height (some (validatorsInfo height lastHeightChanged valSet)))

def saveValidatorSets (lowerHeight upperHeight : Int) (vals : ValidatorSet)
    (store : ValidatorsStore) : Except String ValidatorsStore :=
  (List.range (upperHeight + 1 - lowerHeight).toNat).foldlM
    (fun store (index : Nat) => saveValidatorsInfo (lowerHeight + index) lowerHeight vals store)
    store

def validatorSetFromProto (vals : ValidatorSet) : Panics (Except String ValidatorSet) := do
  let vals ← vals.updateTotalVotingPower
  return match vals.validateBasic with
    | some text => .error text
    | none => .ok vals

def lastStoredHeightFor (height lastHeightChanged : Int) : Int :=
  max (height - height.tmod valSetCheckpointInterval) lastHeightChanged

def safeConvertInt32 (value : Int) : Panics Int :=
  if value < -2 ^ 31 ∨ 2 ^ 31 ≤ value then .error "int32 overflow" else .ok value

def loadValidators (store : ValidatorsStore) (height : Int) :
    Panics (Except String ValidatorSet) :=
  match store height with
  | none => .ok (.error s!"could not find validator set for height #{height}")
  | some ⟨_, some valSet⟩ => validatorSetFromProto valSet
  | some ⟨lastHeightChanged, none⟩ =>
    let lastStoredHeight := lastStoredHeightFor height lastHeightChanged
    match store lastStoredHeight with
    | some ⟨_, some valSet⟩ => do
      match ← validatorSetFromProto valSet with
      | .error text => return .error text
      | .ok vs =>
        let times ← safeConvertInt32 (height - lastStoredHeight)
        validatorSetFromProto (← vs.incrementProposerPriority times)
    | _ => .ok (.error (s!"couldn't find validators at height {lastStoredHeight} " ++
        s!"(height {height} was originally requested)"))

/-! ### The verifying loop -/

/-- The two stores and the variables of the loop. Of a block meta the sizes, which are -1,
and the commit are left out. -/
structure BackfillStore where
  validators : ValidatorsStore
  metas : Int → Option (BlockID × Header)
  trustedBlockID : BlockID
  lastValidatorSet : Option ValidatorSet
  lastChangeHeight : Int

namespace BackfillStore

def saveSignedHeader (store : BackfillStore) (signed : SignedHeader) :
    Except String BackfillStore :=
  if (store.metas signed.header.height).isSome then
    .error s!"block at height {signed.header.height} already saved"
  else .ok { store with
    metas := Function.update store.metas signed.header.height
      (some (store.trustedBlockID, signed.header)) }

/-- The last set for the heights from the lower one to that of the last change. -/
def saveValidators (store : BackfillStore) (lowerHeight : Int) :
    Except String ValidatorsStore :=
  saveValidatorSets lowerHeight store.lastChangeHeight (store.lastValidatorSet.getD .empty)
    store.validators

def saveVerified (store : BackfillStore) (block : LightBlock) : Except String BackfillStore := do
  let store ← store.saveSignedHeader block.signedHeader
  if store.lastValidatorSet.isSome ∧
      block.header.validatorsHash ≠ block.header.nextValidatorsHash then
    let validators ← store.saveValidators (block.height + 1)
    return { store with
      validators
      lastChangeHeight := block.height
      trustedBlockID := block.header.lastBlockID
      lastValidatorSet := some block.validatorSet }
  else
    return { store with
      trustedBlockID := block.header.lastBlockID
      lastValidatorSet := some block.validatorSet }

def finish (store : BackfillStore) (queue : BlockQueue) : Except String ValidatorsStore :=
  match queue.terminal with
  | none => .error "invalid memory address or nil pointer dereference"
  | some terminal => store.saveValidators terminal.height

/-- What a backfill has stored when it ends: the blocks were saved as they were verified. -/
def storeAll (store : BackfillStore) (final : Backfill) :
    Except String (BackfillStore × ValidatorsStore) := do
  let store ← final.verified.foldlM saveVerified store
  let validators ← store.finish final.queue
  return (store, validators)

end BackfillStore

/-! ### Batches -/

section Batches

variable {store : ValidatorsStore} {lower upper : Int} {vals : ValidatorSet}

def Batch (store : ValidatorsStore) (lower upper : Int) (vals : ValidatorSet) : Prop :=
  ∀ height, lower ≤ height → height ≤ upper → store height = some (validatorsInfo height lower vals)

theorem save_validator_sets_eq (store : ValidatorsStore) (lower upper : Int) (vals : ValidatorSet) :
    ∃ saved, saveValidatorSets lower upper vals store = .ok saved ∧ Batch saved lower upper vals ∧
      ∀ height, ¬ (lower ≤ height ∧ height ≤ upper) → saved height = store height := by
  have first : ∀ count : Nat, ∃ saved, (List.range count).foldlM
      (fun store (index : Nat) => saveValidatorsInfo (lower + index) lower vals store) store =
        Except.ok (ε := String) saved ∧
      (∀ height, lower ≤ height → height < lower + count →
        saved height = some (validatorsInfo height lower vals)) ∧
      ∀ height, ¬ (lower ≤ height ∧ height < lower + count) → saved height = store height := by
    intro count
    induction count with
    | zero => exact ⟨store, rfl, fun height _ _ => by omega, fun _ _ => rfl⟩
    | succ count ih =>
    obtain ⟨saved, saves, inside, outside⟩ := ih
    refine ⟨Function.update saved (lower + count)
      (some (validatorsInfo (lower + count) lower vals)), ?_, fun height low high => ?_,
      fun height beyond => ?_⟩
    · rw [range_succ, foldlM_append, saves]
      change saveValidatorsInfo (lower + count) lower vals saved >>= pure = _
      rw [saveValidatorsInfo, if_neg (by omega)]
      rfl
    · by_cases last : height = lower + count
      · rw [last, Function.update_self]
      · rw [Function.update_of_ne last]
        exact inside height low (by push_cast at high; omega)
    · rw [Function.update_of_ne (by push_cast at beyond; omega)]
      exact outside height (by push_cast at beyond; omega)
  obtain ⟨saved, saves, inside, outside⟩ := first (upper + 1 - lower).toNat
  exact ⟨saved, saves, fun height low high => inside height low (by omega),
    fun height beyond => outside height (by omega)⟩

theorem valid_iff : vals.validateBasic = none ↔ vals.validators ≠ [] ∧
    (∀ val ∈ vals.validators, val.validateBasic = none) ∧
    ∃ proposer, vals.proposer = some proposer ∧ proposer.validateBasic = none := by
  unfold ValidatorSet.validateBasic ValidatorSet.isNilOrEmpty
  by_cases empty : vals.validators = []
  · simp [empty]
  rw [if_neg (by simpa using empty)]
  split
  · rename_i text found
    refine ⟨fun absent => (by cases absent), fun right => ?_⟩
    obtain ⟨entry, member, made⟩ := exists_of_findSome?_eq_some found
    have valid := right.2.1 entry.1 (fst_mem_of_mem_zipIdx member)
    simp [valid] at made
  · rename_i found
    have all : ∀ val ∈ vals.validators, val.validateBasic = none := by
      intro val member
      obtain ⟨index, here⟩ := mem_iff_getElem?.mp member
      have checked := findSome?_eq_none_iff.mp found (val, index) (mem_zipIdx_iff_getElem?.mpr here)
      simpa using checked
    cases vals.proposer with
    | none => simp
    | some proposer => simpa [empty] using fun _ => all

structure Storable (vals : ValidatorSet) : Prop where
  wellFormed : vals.WellFormed
  typed : ∀ val ∈ vals.validators, Fits64 val.proposerPriority
  valid : vals.validateBasic = none

theorem from_proto_eq (wellFormed : vals.WellFormed) (valid : vals.validateBasic = none) :
    validatorSetFromProto vals = .ok (.ok vals) := by
  have total := ValidatorSet.sum_voting_power_ok vals.validators 0 (Int.le_refl 0)
    (fun val member => (wellFormed.positive val member).le)
    (by rw [Int.zero_add]; exact wellFormed.bounded)
  rw [Int.zero_add, ← wellFormed.cached] at total
  unfold validatorSetFromProto ValidatorSet.updateTotalVotingPower
  rw [total]
  simp only [bind_eq, pure_eq, valid]

theorem Storable.increment (storable : Storable vals) (times : Int) (positive : 0 < times) :
    ∃ next, vals.incrementProposerPriority times = .ok next ∧ next.WellFormed ∧
      next.validateBasic = none ∧ ∀ hashing, next.hash hashing = vals.hash hashing := by
  obtain ⟨nonempty, each, _⟩ := valid_iff.mp storable.valid
  have sound : vals.Sound := ⟨storable.wellFormed, nonempty, storable.typed⟩
  obtain ⟨next, increments, _, same, proposer, member, proposes⟩ := sound.increment positive
  have valid : ∀ val ∈ next.validators, val.validateBasic = none := by
    intro val inNext
    have there := mem_map_of_mem (f := Validator.member) inNext
    rw [same.members] at there
    obtain ⟨old, inVals, memberIs⟩ := mem_map.mp there
    simp only [Validator.member, Prod.mk.injEq] at memberIs
    have basic := each old inVals
    rwa [Validator.validateBasic, memberIs.1, memberIs.2.2] at basic
  refine ⟨next, increments, same.wellFormed storable.wellFormed,
    valid_iff.mpr ⟨same.nonempty nonempty, valid, proposer, proposes, valid proposer member⟩, ?_⟩
  intro hashing
  exact congrArg (Merkle.hashFromByteSlices hashing) (same.map_eq fun member =>
    Validator.simpleBytes ⟨member.1, member.2.1, member.2.2, 0⟩)

variable {height : Int}

theorem last_stored_height_spec (low : lower ≤ height) (positive : 0 < lower) :
    lower ≤ lastStoredHeightFor height lower ∧ lastStoredHeightFor height lower ≤ height ∧
      height - lastStoredHeightFor height lower < 100000 ∧
      (lastStoredHeightFor height lower = lower ∨
        (lastStoredHeightFor height lower).tmod valSetCheckpointInterval = 0) := by
  unfold lastStoredHeightFor valSetCheckpointInterval
  rw [Int.tmod_eq_emod_of_nonneg (by omega), Int.tmod_eq_emod_of_nonneg (by omega)]
  omega

theorem load_batch (batch : Batch store lower upper vals) (storable : Storable vals)
    (low : lower ≤ height) (high : height ≤ upper) (positive : 0 < lower) (hashing : Hashing) :
    ∃ loaded, loadValidators store height = .ok (.ok loaded) ∧
      loaded.hash hashing = vals.hash hashing := by
  have stored := from_proto_eq storable.wellFormed storable.valid
  obtain ⟨above, below, near, kept⟩ := last_stored_height_spec low positive
  unfold loadValidators
  rw [batch height low high, validatorsInfo]
  by_cases here : height = lower ∨ height.tmod valSetCheckpointInterval = 0
  · rw [if_pos here]
    exact ⟨vals, stored, rfl⟩
  · rw [if_neg here]
    dsimp only
    rw [batch _ above (below.trans high), validatorsInfo, if_pos kept]
    have apart : lastStoredHeightFor height lower ≠ height := fun same => here (same ▸ kept)
    obtain ⟨next, increments, formed, valid, same⟩ :=
      storable.increment (height - lastStoredHeightFor height lower) (by omega)
    refine ⟨next, ?_, same hashing⟩
    simp only [stored, bind_eq]
    rw [safeConvertInt32, if_neg (by omega)]
    dsimp only
    rw [increments]
    exact from_proto_eq formed valid

end Batches

/-! ### What a whole run stores -/

namespace BackfillStore

variable {hashing : Hashing} {store next : BackfillStore} {blocks : List LightBlock}
  {block : LightBlock}

theorem save_verified_cases (saves : store.saveVerified block = .ok next) :
    next.metas = Function.update store.metas block.height
      (some (store.trustedBlockID, block.header)) ∧
    next.lastValidatorSet = some block.validatorSet ∧
    ((∃ vals, store.lastValidatorSet = some vals ∧
        block.header.validatorsHash ≠ block.header.nextValidatorsHash ∧
        saveValidatorSets (block.height + 1) store.lastChangeHeight vals store.validators =
          .ok next.validators ∧ next.lastChangeHeight = block.height) ∨
      ((store.lastValidatorSet = none ∨
          block.header.validatorsHash = block.header.nextValidatorsHash) ∧
        next.validators = store.validators ∧ next.lastChangeHeight = store.lastChangeHeight)) := by
  unfold saveVerified saveSignedHeader at saves
  split at saves
  · cases saves
  simp only [bind_eq, pure_eq] at saves
  split at saves
  · rename_i changed
    obtain ⟨vals, lastIs⟩ := Option.isSome_iff_exists.mp changed.1
    split at saves
    · cases saves
    · rename_i validators saved
      cases saves
      refine ⟨rfl, rfl, .inl ⟨vals, lastIs, changed.2, ?_, rfl⟩⟩
      unfold saveValidators at saved
      dsimp only at saved lastIs
      rwa [lastIs] at saved
  · rename_i same
    cases saves
    refine ⟨rfl, rfl, .inr ⟨?_, rfl, rfl⟩⟩
    rw [not_and_or, Bool.not_eq_true, Option.isSome_eq_false_iff, Option.isNone_iff_eq_none,
      not_not] at same
    exact same

/-- The height of the block is stored in a batch above the given height, with a set of the
header's hash. -/
def Saved (hashing : Hashing) (validators : ValidatorsStore) (above : Int) (block : LightBlock) :
    Prop :=
  ∃ lower upper vals, above < lower ∧ lower ≤ block.height ∧ block.height ≤ upper ∧
    Batch validators lower upper vals ∧ Storable vals ∧
    vals.hash hashing = block.header.validatorsHash

/-- After some blocks their headers are stored, and their sets down to the last change; the
set of the last block is that of the others. -/
structure Stored (hashing : Hashing) (blocks : List LightBlock) (store : BackfillStore) :
    Prop where
  metas : ∀ block ∈ blocks, ∃ blockID, store.metas block.height = some (blockID, block.header)
  last : store.lastValidatorSet = blocks.getLast?.map LightBlock.validatorSet
  saved : ∀ block ∈ blocks, store.lastChangeHeight < block.height →
    Saved hashing store.validators store.lastChangeHeight block
  recent : ∀ last ∈ blocks.getLast?, last.height ≤ store.lastChangeHeight ∧
    ∀ block ∈ blocks, block.height ≤ store.lastChangeHeight →
      block.header.validatorsHash = last.header.validatorsHash

/-- A block whose set can be stored and is that of its header. -/
def Sound (hashing : Hashing) (block : LightBlock) : Prop :=
  Storable block.validatorSet ∧ block.validatorSet.hash hashing = block.header.validatorsHash

variable {last : LightBlock} {validators : ValidatorsStore} {first : BackfillStore}

theorem Stored.batch (stored : Stored hashing blocks store) (isLast : blocks.getLast? = some last)
    (sound : Sound hashing last) (lowest : ∀ block ∈ blocks, last.height ≤ block.height)
    (saves : saveValidatorSets last.height store.lastChangeHeight last.validatorSet
      store.validators = .ok validators) :
    ∀ block ∈ blocks, Saved hashing validators (last.height - 1) block := by
  obtain ⟨saved, saves', batch, others⟩ := save_validator_sets_eq store.validators last.height
    store.lastChangeHeight last.validatorSet
  rw [saves'] at saves
  cases saves
  obtain ⟨below, recent⟩ := stored.recent last isLast
  intro block member
  by_cases high : store.lastChangeHeight < block.height
  · obtain ⟨lower, upper, vals, above, low, top, kept, storable, hash⟩ :=
      stored.saved block member high
    refine ⟨lower, upper, vals, by omega, low, top, fun height atLeast atMost => ?_, storable, hash⟩
    rw [others height (by omega)]
    exact kept height atLeast atMost
  · exact ⟨last.height, store.lastChangeHeight, last.validatorSet, by omega, lowest block member,
      by omega, batch, sound.1, sound.2.trans (recent block member (by omega)).symm⟩

theorem Stored.step (stored : Stored hashing blocks store)
    (saves : store.saveVerified block = .ok next)
    (start : blocks = [] → block.height ≤ store.lastChangeHeight)
    (below : ∀ other ∈ blocks, block.height < other.height)
    (follows : ∀ last ∈ blocks.getLast?, last.height = block.height + 1 ∧
      block.header.nextValidatorsHash = last.header.validatorsHash ∧ Sound hashing last ∧
      ∀ other ∈ blocks, last.height ≤ other.height) :
    Stored hashing (blocks ++ [block]) next := by
  obtain ⟨metas, lastIs, changed⟩ := save_verified_cases saves
  have headers : ∀ other ∈ blocks ++ [block], ∃ blockID,
      next.metas other.height = some (blockID, other.header) := by
    intro other member
    rw [metas]
    rcases mem_append.mp member with old | new
    · rw [Function.update_of_ne (below other old).ne']
      exact stored.metas other old
    · rw [mem_singleton.mp new, Function.update_self]
      exact ⟨_, rfl⟩
  have whole :
    next.lastValidatorSet = (blocks ++ [block]).getLast?.map LightBlock.validatorSet := by
    rw [lastIs, getLast?_concat, Option.map_some]
  rcases changed with ⟨vals, valsIs, differs, saved, height⟩ | ⟨same, validators, height⟩
  · -- the batch of the last set goes down to the height above the block
    rw [stored.last] at valsIs
    obtain ⟨last, isLast, rfl⟩ := Option.map_eq_some_iff.mp valsIs
    obtain ⟨step, _, sound, lowest⟩ := follows last isLast
    rw [← step] at saved
    have covered := stored.batch isLast sound lowest saved
    rw [step, Int.add_sub_cancel] at covered
    refine ⟨headers, whole, fun other member high => ?_, fun newest isNewest => ?_⟩
    · rw [height] at high ⊢
      rcases mem_append.mp member with old | new
      · exact covered other old
      · rw [mem_singleton.mp new] at high
        exact absurd high (lt_irrefl _)
    · rw [getLast?_concat] at isNewest
      cases isNewest
      rw [height]
      refine ⟨le_rfl, fun other member low => ?_⟩
      rcases mem_append.mp member with old | new
      · exact absurd (below other old) (not_lt.mpr low)
      · rw [mem_singleton.mp new]
  · have bound : block.height ≤ store.lastChangeHeight ∧ ∀ other ∈ blocks,
        other.height ≤ store.lastChangeHeight →
        other.header.validatorsHash = block.header.validatorsHash := by
      cases isLast : blocks.getLast? with
      | none =>
        rw [getLast?_eq_none_iff.mp isLast]
        exact ⟨start (getLast?_eq_none_iff.mp isLast), fun other member => by cases member⟩
      | some last =>
      obtain ⟨step, chain, _⟩ := follows last isLast
      obtain ⟨high, recent⟩ := stored.recent last isLast
      refine ⟨by omega, fun other member low => ?_⟩
      rw [stored.last, isLast] at same
      rw [recent other member low, ← chain, same.resolve_left (by simp)]
    refine ⟨headers, whole, fun other member high => ?_, fun newest isNewest => ?_⟩
    · rw [validators, height] at *
      rcases mem_append.mp member with old | new
      · exact stored.saved other old high
      · rw [mem_singleton.mp new] at high
        exact absurd high (not_lt.mpr bound.1)
    · rw [getLast?_concat] at isNewest
      cases isNewest
      rw [height]
      refine ⟨bound.1, fun other member low => ?_⟩
      rcases mem_append.mp member with old | new
      · exact bound.2 other old low
      · rw [mem_singleton.mp new]

theorem store_all_split {final : Backfill}
    (stores : first.storeAll final = .ok (store, validators)) :
    final.verified.foldlM saveVerified first = .ok store ∧
      store.finish final.queue = .ok validators := by
  unfold storeAll at stores
  cases saves : final.verified.foldlM saveVerified first with
  | error text => simp [saves] at stores
  | ok saved =>
  cases finishes : saved.finish final.queue with
  | error text => simp [saves, finishes] at stores
  | ok stored =>
  simp only [saves, finishes, bind_eq, pure_eq, Except.ok.injEq, Prod.mk.injEq] at stores
  obtain ⟨rfl, rfl⟩ := stores
  exact ⟨rfl, finishes⟩

def Descends (start : Int) (blocks : List LightBlock) : Prop :=
  ∀ (index : Nat) (block : LightBlock), blocks[index]? = some block → block.height = start - index

/-- Every header names the validators of the header above it. -/
def Linked (blocks : List LightBlock) : Prop :=
  ∀ (index : Nat) (upper lower : LightBlock), blocks[index]? = some upper →
    blocks[index + 1]? = some lower →
    lower.header.nextValidatorsHash = upper.header.validatorsHash

variable {start : Int}

theorem Descends.last_height (descends : Descends start blocks)
    (isLast : blocks.getLast? = some last) :
    last.height = start + 1 - blocks.length := by
  have positive : blocks ≠ [] := fun empty => by simp [empty] at isLast
  have length := length_pos_of_ne_nil positive
  rw [getLast?_eq_getElem?] at isLast
  have height := descends _ last isLast
  omega

theorem Descends.height_ge (descends : Descends start blocks) (block : LightBlock)
    (member : block ∈ blocks) : start + 1 - blocks.length ≤ block.height := by
  obtain ⟨index, found⟩ := mem_iff_getElem?.mp member
  have position := descends index block found
  have bound := (List.getElem?_eq_some_iff.mp found).1
  omega

theorem stored_of_saves (none : first.lastValidatorSet = none)
    (top : first.lastChangeHeight = start) (descends : Descends start blocks)
    (linked : Linked blocks) (sound : ∀ block ∈ blocks, Sound hashing block)
    (saves : blocks.foldlM saveVerified first = .ok store) :
    Stored hashing blocks store := by
  induction blocks using List.reverseRecOn generalizing store with
  | nil =>
    cases saves
    exact { metas := by simp, last := none, saved := by simp, recent := by simp }
  | append_singleton blocks block ih =>
  have inside : ∀ (index : Nat) (other : LightBlock), blocks[index]? = some other →
      (blocks ++ [block])[index]? = some other := fun index other found =>
    (getElem?_append_left (List.getElem?_eq_some_iff.mp found).1).trans found
  have height : block.height = start - blocks.length := descends _ _ getElem?_concat_length
  have above : Descends start blocks := fun index other found =>
    descends index other (inside index other found)
  rw [foldlM_append] at saves
  cases before : blocks.foldlM saveVerified first with
  | error text =>
    rw [before] at saves
    cases saves
  | ok middle =>
  rw [before] at saves
  have stepped : middle.saveVerified block >>= pure = .ok store := saves
  rw [bind_pure] at stepped
  have stored := ih above (fun index upper lower found next => linked index upper lower
    (inside index upper found) (inside (index + 1) lower next))
    (fun other member => sound other (mem_append_left _ member)) before
  refine stored.step stepped (fun empty => ?_) (fun other member => ?_) fun last isLast => ?_
  · subst empty
    cases before
    rw [top, height]
    simp
  · have low := above.height_ge other member
    omega
  · have lastHeight := above.last_height isLast
    have found : blocks[blocks.length - 1]? = some last := by
      rw [← getLast?_eq_getElem?]
      exact isLast
    have positive := (List.getElem?_eq_some_iff.mp found).1
    refine ⟨by omega, linked _ last block (inside _ last found) ?_,
      sound last (mem_append_left _ (mem_of_getLast? isLast)),
      fun other member => lastHeight ▸ above.height_ge other member⟩
    rw [Nat.sub_add_cancel (by omega)]
    exact getElem?_concat_length

end BackfillStore

open BackfillStore in
/-- A backfill that ends without an error has stored the header of every height from the
terminal one to the start, and the validators that load there are those of the header, if
the sets that the peers sent are well formed. -/
theorem backfill_stores (hashing : Hashing) (chainID : ChainID)
    (startHeight stopHeight initialHeight : Int) (trustedBlockID : BlockID) (stopTime : Time)
    (maxRetries : Int) (events : List BackfillEvent) (final : Backfill)
    (ran : Runs.run (Backfill.step hashing chainID)
      (.new startHeight stopHeight initialHeight trustedBlockID.hash stopTime maxRetries) events =
        .ok final)
    (closed : final.queue.done = true) (noError : final.queue.error = none)
    (validators stored : ValidatorsStore) (metas : Int → Option (BlockID × Header))
    (store : BackfillStore)
    (stores : storeAll ⟨validators, metas, trustedBlockID, none, startHeight⟩ final =
      .ok (store, stored))
    (linked : Linked final.verified)
    (wellFormed : ∀ block ∈ final.verified, block.validatorSet.WellFormed)
    (typed : ∀ block ∈ final.verified, ∀ val ∈ block.validatorSet.validators,
      Fits64 val.proposerPriority) :
    ∃ terminal, final.queue.terminal = some terminal ∧
      ∀ height, terminal.height ≤ height → height ≤ startHeight →
        ∃ block ∈ final.verified, block.height = height ∧
          (∃ blockID, store.metas height = some (blockID, block.header)) ∧
          ∃ loaded, loadValidators stored height = .ok (.ok loaded) ∧
            loaded.hash hashing = block.header.validatorsHash := by
  have progress : Backfill.Progress _ (fun block => block.validateBasic hashing chainID = none)
      final := Runs.run_keeps
    (fun _ event _ progress allGiven stepped =>
      Backfill.step_progress progress allGiven stepped)
        (Backfill.new_progress startHeight stopHeight initialHeight trustedBlockID.hash stopTime
      maxRetries) (Runs.each_of_mem fun _ _ _ _ _ _ valid => valid) ran
  obtain ⟨_, terminal, last, marked, isLast, level⟩ :=
    progress.ended closed (BlockQueue.error_none noError)
  have descends : Descends startHeight final.verified := fun index block found =>
    (progress.heights index block found).1
  have valid : ∀ block ∈ final.verified, block.validateBasic hashing chainID = none := by
    intro block member
    obtain ⟨index, found⟩ := mem_iff_getElem?.mp member
    exact (progress.heights index block found).2
  have sound : ∀ block ∈ final.verified, Sound hashing block := fun block member =>
    have basic := LightBlock.validate_basic_ok (valid block member)
    ⟨⟨wellFormed block member, typed block member, basic.2.1⟩, basic.2.2⟩
  obtain ⟨saves, finishes⟩ := store_all_split stores
  have kept := stored_of_saves rfl rfl descends linked sound saves
  have lastHeight := descends.last_height isLast
  have lastMember := mem_of_getLast? isLast
  refine ⟨terminal, marked, fun height low high => ?_⟩
  obtain ⟨block, found⟩ : ∃ block, final.verified[(startHeight - height).toNat]? = some block :=
    ⟨_, getElem?_eq_getElem (by omega)⟩
  have member := mem_of_getElem? found
  have heightIs : block.height = height := by
    rw [descends _ block found]
    omega
  have saved : Saved hashing stored (last.height - 1) block := by
    refine kept.batch isLast (sound last lastMember) ?_ ?_ block member
    · exact fun other inside => lastHeight ▸ descends.height_ge other inside
    · rw [finish, marked] at finishes
      dsimp only at finishes
      rw [saveValidators, kept.last, isLast, ← level] at finishes
      exact finishes
  obtain ⟨lower, upper, vals, above, bottom, top, batch, storable, hash⟩ := saved
  have positive := (LightBlock.validate_basic_ok (valid last lastMember)).1
  obtain ⟨loaded, loads, same⟩ := load_batch batch storable bottom top (by omega) hashing
  exact ⟨block, member, heightIs, heightIs ▸ kept.metas block member, loaded,
    heightIs ▸ loads, same.trans hash⟩

section TwoBlocks

open BackfillStore
open Light (checksum soleHeader linkedBlock)

def pairSet (address : Address) : ValidatorSet :=
  let first : Validator := ⟨List.replicate 20 1, ⟨.ed25519, [1]⟩, 5, 0⟩
  ⟨[first, ⟨address, ⟨.ed25519, [2]⟩, 5, 0⟩], some first, 10⟩

/-- The headers do not depend on the addresses, which are not in the hash of the set. -/
def pairBlock (address : Address) (height : Int) (lastBlockID : BlockID) : LightBlock :=
  let hash := (pairSet (List.replicate 20 2)).hash checksum
  { linkedBlock { soleHeader height (height * 100) with
      lastBlockID := lastBlockID, validatorsHash := hash, nextValidatorsHash := hash } with
    validatorSet := pairSet address }

def pairTop : LightBlock :=
  pairBlock (List.replicate 20 2) 2 (pairBlock (List.replicate 20 2) 1 .zero).commit.blockID

def pairRun (address : Address) : Panics Backfill :=
  Runs.run (Backfill.step checksum [99]) (.new 2 1 1 pairTop.commit.blockID.hash 50 20)
    [.fetch, .verifyNext, .deliver 2 pairTop, .verify, .fetch, .verifyNext,
      .deliver 1 (pairBlock address 1 .zero), .verify]

def pairStores (final : Backfill) : Except String (BackfillStore × ValidatorsStore) :=
  storeAll ⟨fun _ => none, fun _ => none, pairTop.commit.blockID, none, 2⟩ final

/-- A peer gives both validators one address. The backfill ends without an error, and the load
of the validators of the upper height panics. -/
theorem one_address_stored :
    (pairRun (List.replicate 20 1)).toOption.map
      (fun final => (final.queue.done, final.queue.error,
        (pairStores final).toOption.map fun stored => (loadValidators stored.2 2).isOk)) =
      some (true, none, some false) := by
  decide +kernel

theorem pair_backfill_stores : ∃ final store stored,
    pairRun (List.replicate 20 2) = .ok final ∧ pairStores final = .ok (store, stored) ∧
    ∃ terminal, final.queue.terminal = some terminal ∧
      ∀ height, terminal.height ≤ height → height ≤ 2 →
        ∃ block ∈ final.verified, block.height = height ∧
          (∃ blockID, store.metas height = some (blockID, block.header)) ∧
          ∃ loaded, loadValidators stored height = .ok (.ok loaded) ∧
            loaded.hash checksum = block.header.validatorsHash := by
  have ends : (pairRun (List.replicate 20 2)).toOption.map (fun final =>
      (final.queue.done, final.queue.error, final.verified, (pairStores final).toOption.isSome)) =
      some (true, none, [pairTop, pairBlock (List.replicate 20 2) 1 .zero], true) := by
    decide +kernel
  cases ran : pairRun (List.replicate 20 2) with
  | error text =>
    rw [ran] at ends
    cases ends
  | ok final =>
  rw [ran] at ends
  simp only [Except.toOption, Option.map_some, Option.some.injEq, Prod.mk.injEq] at ends
  obtain ⟨closed, noError, verified, kept⟩ := ends
  cases stores : pairStores final with
  | error text =>
    rw [stores] at kept
    cases kept
  | ok saved =>
  have sets : ∀ block ∈ final.verified, block.validatorSet = pairSet (List.replicate 20 2) := by
    rw [verified]
    intro block member
    rcases mem_pair.mp member with rfl | rfl
    · rfl
    · rfl
  refine ⟨final, saved.1, saved.2, rfl, stores, backfill_stores checksum [99] 2 1 1
    pairTop.commit.blockID 50 20 _ final ran closed noError _ saved.2 _ saved.1 stores ?_
    (fun block member => ?_) fun block member => ?_⟩
  · rw [verified]
    intro index upper lower found next
    cases index with
    | zero =>
      cases found
      cases next
      rfl
    | succ index => simp at next
  · rw [sets block member]
    exact ⟨by decide, by decide, rfl, by decide⟩
  · rw [sets block member]
    decide

end TwoBlocks

end Tendermint.StateSync
