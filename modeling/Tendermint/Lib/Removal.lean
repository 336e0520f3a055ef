import Mathlib

/-!
Removal by index from a list whose order does not matter: the last item takes
the place of the one that goes. A place stays what it was until the removal
reaches it if the indexes are taken from the highest down.
-/

namespace Tendermint.Removal

open List

variable {α : Type}

/-- The items at the other indexes, in their order. -/
def without (items : List α) (indexes : List Nat) : List α :=
  (items.zipIdx.filter fun entry => entry.2 ∉ indexes).map Prod.fst

def swapOut (items : List α) (index : Nat) : List α :=
  match items.getLast? with
  | some last => (items.set index last).dropLast
  | none => []

theorem length_swap_out (items : List α) (index : Nat) :
    (swapOut items index).length = items.length - 1 := by
  cases isLast : items.getLast? with
  | none =>
    rw [swapOut, isLast, getLast?_eq_none_iff.mp isLast]
    rfl
  | some last =>
    rw [swapOut, isLast]
    simp

theorem mem_without {items : List α} {indexes : List Nat} {item : α} :
    item ∈ without items indexes ↔ ∃ index, items[index]? = some item ∧ index ∉ indexes := by
  simp only [without, mem_map, mem_filter, decide_eq_true_eq, Prod.exists,
    exists_and_right, exists_eq_right, mem_zipIdx_iff_getElem?]

theorem nodup_without (items : List α) (indexes : List Nat) (nodup : items.Nodup) :
    (without items indexes).Nodup := by
  have sub : (without items indexes).Sublist (items.zipIdx.map Prod.fst) :=
    filter_sublist.map Prod.fst
  rw [zipIdx_map_fst] at sub
  exact sub.nodup nodup

theorem without_append (before rest : List α) (indexes : List Nat)
    (bounded : ∀ index ∈ indexes, index < before.length) :
    without (before ++ rest) indexes = without before indexes ++ rest := by
  have all : (rest.zipIdx before.length).filter (fun entry => entry.2 ∉ indexes) =
      rest.zipIdx before.length := by
    refine filter_eq_self.mpr fun entry member => ?_
    have low := (mem_zipIdx member).1
    refine decide_eq_true fun listed => ?_
    have high := bounded entry.2 listed
    omega
  simp only [without, zipIdx_append, filter_append, map_append, Nat.zero_add]
  rw [all, zipIdx_map_fst]

theorem without_split (before after : List α) (item : α) (indexes : List Nat)
    (bounded : ∀ index ∈ indexes, index < before.length) :
    without (before ++ item :: after) (before.length :: indexes) =
      without before indexes ++ after := by
  have same : without before (before.length :: indexes) = without before indexes := by
    unfold without
    congr 1
    refine filter_congr fun entry member => ?_
    have high := (mem_zipIdx member).2.1
    have apart : entry.2 ≠ before.length := by omega
    simp [apart]
  have all : (after.zipIdx (before.length + 1)).filter
      (fun entry => entry.2 ∉ before.length :: indexes) = after.zipIdx (before.length + 1) := by
    refine filter_eq_self.mpr fun entry member => ?_
    have low := (mem_zipIdx member).1
    refine decide_eq_true fun listed => ?_
    rcases mem_cons.mp listed with here | later
    · omega
    · have high := bounded entry.2 later
      omega
  rw [← same]
  simp only [without, zipIdx_append, filter_append, map_append, Nat.zero_add, zipIdx_cons]
  rw [filter_cons_of_neg (by simp), all, zipIdx_map_fst]

theorem swap_out_split (before after : List α) (item : α) :
    ∃ moved, moved.Perm after ∧
      swapOut (before ++ item :: after) before.length = before ++ moved := by
  rcases eq_nil_or_concat' after with rfl | ⟨front, last, rfl⟩
  · exact ⟨[], .nil, by simp [swapOut]⟩
  · refine ⟨last :: front, (perm_append_singleton last front).symm, ?_⟩
    have isLast : (before ++ item :: (front ++ [last])).getLast? = some last := by
      rw [← cons_append, ← append_assoc, getLast?_concat]
    have shape : before ++ last :: (front ++ [last]) =
      (before ++ last :: front) ++ [last] := by simp
    rw [swapOut, isLast]
    simp only [set_append_right _ _ le_rfl, Nat.sub_self, set_cons_zero]
    rw [shape, dropLast_concat]

theorem swap_out_all (indexes : List Nat) :
    ∀ items : List α, indexes.Pairwise (· > ·) → (∀ index ∈ indexes, index < items.length) →
      (indexes.foldl swapOut items).Perm (without items indexes) := by
  induction indexes with
  | nil =>
    intro items _ _
    have all : without items [] = items := by
      rw [without, filter_eq_self.mpr (by simp), zipIdx_map_fst]
    rw [all, foldl_nil]
  | cons index rest ih =>
    intro items sorted bounded
    obtain ⟨highest, later⟩ := pairwise_cons.mp sorted
    have inside := bounded index mem_cons_self
    obtain ⟨before, item, after, rfl, rfl⟩ :
        ∃ before item after, items = before ++ item :: after ∧ before.length = index :=
      ⟨items.take index, items[index], items.drop (index + 1),
        by rw [getElem_cons_drop, take_append_drop],
        length_take_of_le (Nat.le_of_lt inside)⟩
    obtain ⟨moved, perm, swapped⟩ := swap_out_split before after item
    have rest := ih (before ++ moved) later fun other member => by
      have lower := highest other member
      rw [length_append]
      omega
    rw [foldl_cons, swapped]
    refine rest.trans ?_
    rw [without_append before moved _ highest, without_split before after item _ highest]
    exact perm.append_left _

theorem length_le_of_bounded {indexes : List Nat} {count : Nat} (nodup : indexes.Nodup)
    (bounded : ∀ index ∈ indexes, index < count) : indexes.length ≤ count := by
  have sub := List.Nodup.subperm nodup fun index member =>
    mem_range.mpr (bounded index member)
  simpa using sub.length_le

end Tendermint.Removal
