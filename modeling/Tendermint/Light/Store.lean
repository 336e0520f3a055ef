import Tendermint.Types.Light

/-!
light/store/db/db.go: the store of trusted light blocks. The keys of the
database order the blocks by height. The count is a uint16 of its own that
every operation moves without a look at the database; its stored copy is
written in the same batch and is left out. The database does not fail here, and
the encoding of the blocks is left out.
-/

namespace Tendermint.Light

open Types List

structure Store where
  /-- In the order of the keys. -/
  blocks : List LightBlock
  size : Nat
  deriving DecidableEq, Repr

namespace Store

def putBlock (block : LightBlock) : List LightBlock → List LightBlock
  | [] => [block]
  | first :: rest =>
    if block.height < first.height then block :: first :: rest
    else if block.height = first.height then block :: rest
    else first :: putBlock block rest

def saveLightBlock (store : Store) (block : LightBlock) : Panics Store :=
  if block.height ≤ 0 then .error "negative or zero height"
  else .ok ⟨putBlock block store.blocks, (store.size + 1) % 2 ^ 16⟩

def deleteLightBlock (store : Store) (height : Int) : Panics Store :=
  if height ≤ 0 then .error "negative or zero height"
  else .ok ⟨store.blocks.filter fun block => block.height ≠ height,
    (store.size + (2 ^ 16 - 1)) % 2 ^ 16⟩

/-- Nothing stands for ErrLightBlockNotFound. -/
def lightBlock (store : Store) (height : Int) : Panics (Option LightBlock) :=
  if height ≤ 0 then .error "negative or zero height"
  else .ok (store.blocks.find? fun block => block.height == height)

def lastLightBlockHeight (store : Store) : Int :=
  match store.blocks.getLast? with
  | some block => block.height
  | none => -1

def firstLightBlockHeight (store : Store) : Int :=
  match store.blocks.head? with
  | some block => block.height
  | none => -1

def lightBlockBefore (store : Store) (height : Int) : Panics (Option LightBlock) :=
  if height ≤ 0 then .error "negative or zero height"
  else .ok (store.blocks.filter fun block => block.height < height).getLast?

def prune (store : Store) (size : Nat) : Store :=
  if store.size ≤ size then store
  else ⟨store.blocks.drop (store.size - size), size⟩

variable {block : LightBlock} {store : Store}

theorem mem_put_block {other : LightBlock} {blocks : List LightBlock}
    (member : other ∈ putBlock block blocks) : other = block ∨ other ∈ blocks := by
  induction blocks with
  | nil => simpa [putBlock] using member
  | cons first rest ih =>
  simp only [putBlock] at member
  split at member
  · simpa using member
  split at member
  · rcases mem_cons.mp member with same | later
    · exact Or.inl same
    · exact Or.inr (mem_cons_of_mem first later)
  · rcases mem_cons.mp member with same | later
    · exact Or.inr (by simp [same])
    · rcases ih later with same | kept
      · exact Or.inl same
      · exact Or.inr (mem_cons_of_mem first kept)

theorem mem_save {next : Store} {other : LightBlock} (saved : store.saveLightBlock block = .ok next)
    (member : other ∈ next.blocks) :
    other = block ∨ other ∈ store.blocks := by
  unfold saveLightBlock at saved
  split at saved
  · cases saved
  cases saved
  exact mem_put_block member

theorem mem_prune {size : Nat} (member : block ∈ (store.prune size).blocks) :
    block ∈ store.blocks := by
  unfold prune at member
  split at member
  · exact member
  · exact mem_of_mem_drop member

theorem light_block_before_mem {height : Int}
    (found : store.lightBlockBefore height = .ok (some block)) : block ∈ store.blocks := by
  unfold lightBlockBefore at found
  split at found
  · cases found
  · exact (mem_filter.mp (mem_of_getLast? (Except.ok.inj found))).1

end Store

end Tendermint.Light
