import Tendermint.Lib.Keyed
import Tendermint.Lib.Runs
import Tendermint.Light.Expiry

/-!
The count of the light store over whole runs. It moves by one with every call of
SaveLightBlock and DeleteLightBlock, whether or not the database changes, so it is
the number of blocks exactly in the runs that save new heights and delete stored
ones, and that do not reach 2^16 blocks.
-/

namespace Tendermint.Light

open Types List

/-- The store with the size that the database holds, which is nothing before the first
write. -/
structure PersistedStore where
  store : Store
  sizeKey : Option Nat

inductive StoreCall where
  | save (block : LightBlock)
  | delete (height : Int)
  | prune (size : Nat)

namespace PersistedStore

def new : PersistedStore := ⟨⟨[], 0⟩, none⟩

/-- Every write of the database sets the size key in the same batch. -/
def step (s : PersistedStore) : StoreCall → Panics PersistedStore
  | .save block => do
    let store ← s.store.saveLightBlock block
    return ⟨store, some store.size⟩
  | .delete height => do
    let store ← s.store.deleteLightBlock height
    return ⟨store, some store.size⟩
  | .prune size =>
    if s.store.size ≤ size then .ok s else .ok ⟨s.store.prune size, some size⟩

def count (s : PersistedStore) : Nat := s.store.blocks.length

def Stored (s : PersistedStore) (height : Int) : Prop :=
  height ∈ s.store.blocks.map LightBlock.height

def Exact (s : PersistedStore) : Prop :=
  s.store.size = s.count ∧ s.sizeKey.getD 0 = s.count

def Sorted (s : PersistedStore) : Prop := Keyed.Sorted LightBlock.height s.store.blocks

/-- The call changes the number of blocks as it changes the count. -/
def Proper (s : PersistedStore) : StoreCall → Prop
  | .save block => 0 < block.height → ¬ s.Stored block.height ∧ s.count + 1 < 2 ^ 16
  | .delete height => 0 < height → s.Stored height
  | .prune _ => True

theorem put_block_eq (block : LightBlock) (blocks : List LightBlock) :
    Store.putBlock block blocks = Keyed.put LightBlock.height block blocks := by
  induction blocks with
  | nil => rfl
  | cons first rest ih =>
    rw [Store.putBlock, Keyed.put, ih]
    grind

/-- What Prune leaves: the greatest heights, as many as asked for or all. -/
structure KeepsGreatest (s : PersistedStore) (size : Nat) (next : PersistedStore) : Prop where
  number : next.count = min size s.count
  kept : ∀ block ∈ next.store.blocks, block ∈ s.store.blocks
  greatest : ∀ block ∈ s.store.blocks, block ∉ next.store.blocks →
    ∀ other ∈ next.store.blocks, block.height < other.height

/-- The size is exact, and a call of Prune would keep the greatest heights. -/
def Sound (s : PersistedStore) : Prop :=
  s.Exact ∧ ∀ size next, s.step (.prune size) = .ok next → s.KeepsGreatest size next

variable {s next : PersistedStore} {call : StoreCall}

theorem save_step {block : LightBlock} (positive : 0 < block.height) :
    s.step (.save block) = .ok ⟨⟨Store.putBlock block s.store.blocks,
      (s.store.size + 1) % 2 ^ 16⟩, some ((s.store.size + 1) % 2 ^ 16)⟩ := by
  rw [step, Store.saveLightBlock, if_neg (not_le.mpr positive)]
  rfl

theorem delete_step {height : Int} (positive : 0 < height) :
    s.step (.delete height) = .ok ⟨⟨s.store.blocks.filter fun block => block.height ≠ height,
      (s.store.size + (2 ^ 16 - 1)) % 2 ^ 16⟩, some ((s.store.size + (2 ^ 16 - 1)) % 2 ^ 16)⟩ := by
  rw [step, Store.deleteLightBlock, if_neg (not_le.mpr positive)]
  rfl

theorem step_cases (stepped : s.step call = .ok next) :
    (∃ block, call = .save block ∧ 0 < block.height ∧
      next.store.blocks = Keyed.put LightBlock.height block s.store.blocks ∧
      next.store.size = (s.store.size + 1) % 2 ^ 16 ∧ next.sizeKey = some next.store.size) ∨
    (∃ height, call = .delete height ∧ 0 < height ∧
      next.store.blocks = s.store.blocks.filter (fun block => block.height ≠ height) ∧
      next.store.size = (s.store.size + (2 ^ 16 - 1)) % 2 ^ 16 ∧
      next.sizeKey = some next.store.size) ∨
    (∃ size, call = .prune size ∧ s.store.size ≤ size ∧ next = s) ∨
    (∃ size, call = .prune size ∧ size < s.store.size ∧
      next.store.blocks = s.store.blocks.drop (s.store.size - size) ∧
      next.store.size = size ∧ next.sizeKey = some size) := by
  cases call with
  | save block =>
    by_cases positive : 0 < block.height
    · rw [save_step positive] at stepped
      cases stepped
      exact .inl ⟨block, rfl, positive, put_block_eq block _, rfl, rfl⟩
    · rw [step, Store.saveLightBlock, if_pos (not_lt.mp positive)] at stepped
      cases stepped
  | delete height =>
    by_cases positive : 0 < height
    · rw [delete_step positive] at stepped
      cases stepped
      exact .inr (.inl ⟨height, rfl, positive, rfl, rfl, rfl⟩)
    · rw [step, Store.deleteLightBlock, if_pos (not_lt.mp positive)] at stepped
      cases stepped
  | prune size =>
    rw [step, Store.prune] at stepped
    split at stepped
    · cases stepped
      exact .inr (.inr (.inl ⟨size, rfl, by assumption, rfl⟩))
    · cases stepped
      exact .inr (.inr (.inr ⟨size, rfl, by omega, rfl, rfl, rfl⟩))

theorem Sorted.sound (sorted : s.Sorted) (exact : s.Exact) : s.Sound := by
  refine ⟨exact, fun size next pruned => ?_⟩
  have left : next.store.blocks = s.store.blocks.drop (s.count - size) := by
    have sizes := exact.1
    rcases step_cases pruned with ⟨_, other, _⟩ | ⟨_, other, _⟩ | ⟨_, same, few, rfl⟩ |
      ⟨_, same, _, blocks, _⟩
    · cases other
    · cases other
    · cases same
      rw [Nat.sub_eq_zero_of_le (by omega), drop_zero]
    · cases same
      rw [blocks, sizes]
  constructor
  · rw [count, left, length_drop, ← count]
    omega
  · intro block member
    rw [left] at member
    exact mem_of_mem_drop member
  · intro block member gone other remains
    rw [left] at gone remains
    have parts := take_append_drop (s.count - size) s.store.blocks
    unfold Sorted Keyed.Sorted at sorted
    rw [← parts] at member sorted
    exact (pairwise_append.mp sorted).2.2 block
      ((mem_append.mp member).resolve_right gone) other remains

theorem step_sorted (sorted : s.Sorted) (stepped : s.step call = .ok next) :
    next.Sorted := by
  unfold Sorted
  rcases step_cases stepped with ⟨block, _, _, blocks, _⟩ | ⟨height, _, _, blocks, _⟩ |
    ⟨_, _, _, rfl⟩ | ⟨size, _, _, blocks, _⟩
  · exact blocks ▸ Keyed.sorted_put block sorted
  · exact blocks ▸ Keyed.Sorted.filter sorted _
  · exact sorted
  · exact blocks ▸ List.Pairwise.drop sorted

theorem exact_iff_of_written (written : next.sizeKey = some next.store.size) :
    next.Exact ↔ next.store.size = next.count := by
  rw [Exact, written, Option.getD_some, and_self_iff]

theorem save_exact_iff (sorted : s.Sorted) (exact : s.Exact) (block : LightBlock)
    (blocks : next.store.blocks = Keyed.put LightBlock.height block s.store.blocks)
    (size : next.store.size = (s.store.size + 1) % 2 ^ 16) :
    next.store.size = next.count ↔ ¬ s.Stored block.height ∧ s.count + 1 < 2 ^ 16 := by
  have sizes := exact.1
  unfold count at sizes ⊢
  by_cases stored : s.Stored block.height
  · have positive := length_pos_of_mem stored
    rw [length_map] at positive
    rw [size, blocks, Keyed.Sorted.length_put sorted stored]
    simp only [stored, not_true, false_and, iff_false]
    omega
  · rw [size, blocks, Keyed.length_put_of_fresh stored]
    simp only [stored, not_false_eq_true, true_and]
    omega

theorem delete_exact_iff (sorted : s.Sorted) (exact : s.Exact) (bound : s.count < 2 ^ 16)
    (height : Int)
    (blocks : next.store.blocks = s.store.blocks.filter (fun block => block.height ≠ height))
    (size : next.store.size = (s.store.size + (2 ^ 16 - 1)) % 2 ^ 16) :
    next.store.size = next.count ↔ s.Stored height := by
  have sizes := exact.1
  unfold count at sizes bound ⊢
  by_cases stored : s.Stored height
  · have removed := Keyed.Sorted.length_filter_ne sorted stored
    rw [size, blocks]
    simp only [stored, iff_true]
    omega
  · have same : s.store.blocks.filter (fun block => block.height ≠ height) = s.store.blocks := by
      refine filter_eq_self.mpr fun block member => decide_eq_true fun equal => stored ?_
      exact equal ▸ mem_map_of_mem member
    rw [size, blocks, same]
    simp only [stored, iff_false]
    omega

theorem step_exact_iff (sorted : s.Sorted) (exact : s.Exact) (bound : s.count < 2 ^ 16)
    (call : StoreCall) : s.Proper call ↔ ∀ next, s.step call = .ok next → next.Exact := by
  constructor
  · intro proper next stepped
    rcases step_cases stepped with ⟨block, rfl, positive, blocks, size, written⟩ |
      ⟨height, rfl, positive, blocks, size, written⟩ | ⟨_, rfl, few, rfl⟩ |
      ⟨left, rfl, many, blocks, size, written⟩
    · rw [exact_iff_of_written written, save_exact_iff sorted exact block blocks size]
      exact proper positive
    · rw [exact_iff_of_written written, delete_exact_iff sorted exact bound height blocks size]
      exact proper positive
    · exact exact
    · have sizes := exact.1
      rw [exact_iff_of_written (size ▸ written), size, count, blocks, length_drop, ← count]
      omega
  · intro kept
    cases call with
    | save block =>
      intro positive
      have stepped := kept _ (save_step positive)
      rw [exact_iff_of_written rfl,
        save_exact_iff sorted exact block (put_block_eq block _) rfl] at stepped
      exact stepped
    | delete height =>
      intro positive
      have stepped := kept _ (delete_step positive)
      rw [exact_iff_of_written rfl] at stepped
      refine (delete_exact_iff sorted exact bound height ?_ ?_).mp stepped
      · rfl
      · rfl
    | prune size => exact trivial

theorem step_size (stepped : s.step call = .ok next) (bound : s.store.size < 2 ^ 16) :
    next.store.size < 2 ^ 16 := by
  rcases step_cases stepped with ⟨_, _, _, _, size, _⟩ | ⟨_, _, _, _, size, _⟩ |
    ⟨_, _, _, rfl⟩ | ⟨_, _, fewer, _, size, _⟩
  · omega
  · omega
  · exact bound
  · omega

/-- In every run the sizes and the pruning are right in all states exactly if every call
is proper. -/
theorem light_store_size_iff (calls : List StoreCall) :
    Runs.Always step Sound new calls ↔ Runs.Each step Proper new calls := by
  have empty : new.Sorted := List.Pairwise.nil
  have exactly : ∀ (s : PersistedStore) (call : StoreCall), True →
      s.Sorted ∧ s.store.size < 2 ^ 16 → s.Sound →
      (s.Proper call ↔ ∀ next, s.step call = .ok next → next.Sound) := by
    rintro s call - ⟨sorted, bound⟩ ⟨exact, -⟩
    rw [step_exact_iff sorted exact (exact.1 ▸ bound)]
    exact forall₂_congr fun next stepped =>
      ⟨(step_sorted sorted stepped).sound, fun sound => sound.1⟩
  refine Runs.always_iff_each exactly ?_ calls (fun _ _ => trivial) ⟨empty, by decide⟩
    (empty.sound ⟨rfl, rfl⟩)
  rintro s call next - ⟨sorted, bound⟩ stepped
  exact ⟨step_sorted sorted stepped, step_size stepped bound⟩

/-- A block saved twice counts as two, and Prune to one block then deletes it. -/
theorem saved_again_pruned_away :
    (Runs.run step new [.save (soleBlock 1 100), .save (soleBlock 1 100)]).toOption.map
      (fun s => (s.store.size, s.count)) = some (2, 1) ∧
    (Runs.run step new [.save (soleBlock 1 100), .save (soleBlock 1 100),
      .prune 1]).toOption.map count = some 0 ∧
    ¬ Runs.Always step Sound new [.save (soleBlock 1 100), .save (soleBlock 1 100)] := by
  refine ⟨rfl, rfl, fun always => ?_⟩
  have sound := always _ [] _ (append_nil _).symm rfl
  exact absurd sound.1.1 (by decide)

end PersistedStore

end Tendermint.Light
