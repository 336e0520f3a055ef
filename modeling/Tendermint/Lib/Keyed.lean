import Mathlib

/-!
Lists in the order of a key, as an iterator over an ordered store yields them.
Putting an item replaces the one with its key. The lemmas say what keys, items
and lengths come out, and how many items go when those of some keys are removed.
-/

namespace Tendermint.Keyed

open List

variable {α κ ι : Type} [LinearOrder κ]

def put (key : α → κ) (item : α) : List α → List α
  | [] => [item]
  | first :: rest =>
    if key item = key first then item :: rest
    else if key item < key first then item :: first :: rest
    else first :: put key item rest

def Sorted (key : α → κ) (items : List α) : Prop :=
  items.Pairwise fun first second => key first < key second

theorem mem_keys_put (key : α → κ) (item : α) (items : List α) (wanted : κ) :
    wanted ∈ (put key item items).map key ↔ wanted = key item ∨ wanted ∈ items.map key := by
  induction items with
  | nil => simp [put]
  | cons first rest ih =>
  rw [put]
  split
  · rename_i same
    simp [same]
  · split
    · simp
    · rw [map_cons, mem_cons, ih, map_cons, mem_cons]
      exact or_left_comm

variable {items : List α} {key : α → κ}

theorem mem_of_mem_put {item other : α} (member : other ∈ put key item items) :
    other = item ∨ other ∈ items := by
  induction items with
  | nil => simpa [put] using member
  | cons first rest ih =>
  rw [put] at member
  split at member
  · rcases mem_cons.mp member with same | later
    · exact .inl same
    · exact .inr (mem_cons_of_mem _ later)
  · split at member
    · exact mem_cons.mp member
    · rcases mem_cons.mp member with same | later
      · exact .inr (same ▸ mem_cons_self)
      · exact (ih later).imp_right (mem_cons_of_mem _)

theorem sorted_put (item : α) (sorted : Sorted key items) :
    Sorted key (put key item items) := by
  induction items with
  | nil => exact pairwise_singleton _ _
  | cons first rest ih =>
  have before := pairwise_cons.mp sorted
  rw [put]
  split
  · rename_i same
    refine pairwise_cons.mpr ⟨fun later member => ?_, before.2⟩
    rw [same]
    exact before.1 later member
  · rename_i other
    split
    · rename_i less
      refine pairwise_cons.mpr ⟨fun later member => ?_, sorted⟩
      rcases mem_cons.mp member with same | member
      · exact same ▸ less
      · exact less.trans (before.1 later member)
    · rename_i notLess
      refine pairwise_cons.mpr ⟨fun later member => ?_, ih before.2⟩
      rcases mem_of_mem_put member with same | member
      · exact same ▸ lt_of_le_of_ne (not_lt.mp notLess) (Ne.symm other)
      · exact before.1 later member

theorem length_put_of_fresh {item : α} (fresh : key item ∉ items.map key) :
    (put key item items).length = items.length + 1 := by
  induction items with
  | nil => rfl
  | cons first rest ih =>
  rw [map_cons, mem_cons, not_or] at fresh
  rw [put, if_neg fresh.1]
  split
  · rfl
  · rw [length_cons, ih fresh.2, length_cons]

namespace Sorted

variable {key : α → κ} {items : List α}

theorem nodup_keys (sorted : Sorted key items) : (items.map key).Nodup :=
  pairwise_map.mpr (sorted.imp ne_of_lt)

theorem nodup (sorted : Sorted key items) : items.Nodup := sorted.nodup_keys.of_map

theorem eq_of_key {first second : α} (sorted : Sorted key items) (member : first ∈ items)
    (other : second ∈ items) (same : key first = key second) : first = second :=
  inj_on_of_nodup_map sorted.nodup_keys member other same

theorem filter (sorted : Sorted key items) (keep : α → Bool) :
    Sorted key (items.filter keep) := List.Pairwise.filter keep sorted

theorem length_put {item : α} (sorted : Sorted key items) (member : key item ∈ items.map key) :
    (put key item items).length = items.length := by
  induction items with
  | nil => cases member
  | cons first rest ih =>
  have before := pairwise_cons.mp sorted
  rw [put]
  split
  · rfl
  · rename_i other
    have later := (mem_cons.mp member).resolve_left other
    obtain ⟨stored, inRest, same⟩ := mem_map.mp later
    rw [if_neg (not_lt.mpr (same ▸ (before.1 stored inRest).le)), length_cons,
      ih before.2 later, length_cons]

theorem length_filter_ne {wanted : κ} (sorted : Sorted key items)
    (member : wanted ∈ items.map key) :
    (items.filter fun item => key item ≠ wanted).length + 1 = items.length := by
  have once := count_eq_one_of_mem sorted.nodup_keys member
  rw [List.count, countP_map, countP_eq_length_filter] at once
  rw [length_eq_length_filter_add (l := items) fun item => key item ≠ wanted, ← once]
  congr 2
  refine filter_congr fun item _ => ?_
  by_cases same : key item = wanted <;> simp [same]

/-- If all before a hit are hits, there is no hit after the first ones. -/
theorem of_not_mem_takeWhile {hit : α → Bool} (sorted : Sorted key items)
    (closed : ∀ first ∈ items, ∀ second ∈ items, key first < key second → hit second = true →
      hit first = true) {item : α} (member : item ∈ items)
    (outside : item ∉ items.takeWhile hit) : hit item = false := by
  induction items with
  | nil => cases member
  | cons first rest ih =>
  have order := pairwise_cons.mp sorted
  cases head : hit first with
  | true =>
    rw [takeWhile_cons, if_pos head, mem_cons, not_or] at outside
    have later := (mem_cons.mp member).resolve_left outside.1
    exact ih order.2 (fun earlier inRest second inRest' =>
      closed earlier (mem_cons_of_mem _ inRest) second (mem_cons_of_mem _ inRest')) later outside.2
  | false =>
    rcases mem_cons.mp member with rfl | later
    · exact head
    · by_contra found
      have before := closed first mem_cons_self item member (order.1 item later)
        (by simpa using found)
      rw [head] at before
      cases before

end Sorted

/-- Items are removed by their keys, and counted by images that separate the
items there are: what is counted is what is removed. -/
theorem length_removed [DecidableEq ι] {image : α → ι} {removed : List α} {keep : α → Bool}
    (sorted : Sorted key items) (kept : ∀ item, keep item = true ↔ key item ∉ removed.map key)
    (apart : ∀ first ∈ items, ∀ second ∈ items, image first = image second → key first = key second)
    (present : ∀ item ∈ removed, ∃ stored ∈ items, key stored = key item ∧
      image stored = image item) :
    (items.filter keep).length + (removed.map image).dedup.length = items.length := by
  have gone : ∀ item, (!keep item) = true ↔ key item ∈ removed.map key := by
    intro item
    rw [Bool.not_eq_true', ← Bool.not_eq_true, kept, not_not]
  have nodup : ((items.filter fun item => !keep item).map image).Nodup := by
    refine List.Nodup.map_on ?_ (sorted.nodup.filter _)
    intro first member second other same
    exact sorted.eq_of_key (mem_filter.mp member).1 (mem_filter.mp other).1
      (apart first (mem_filter.mp member).1 second (mem_filter.mp other).1 same)
  have members : ∀ value, value ∈ (removed.map image).dedup ↔
      value ∈ (items.filter fun item => !keep item).map image := by
    intro value
    rw [mem_dedup]
    constructor
    · intro member
      obtain ⟨item, inRemoved, rfl⟩ := mem_map.mp member
      obtain ⟨stored, inItems, sameKey, sameImage⟩ := present item inRemoved
      refine mem_map.mpr ⟨stored, mem_filter.mpr ⟨inItems, ?_⟩, sameImage⟩
      exact (gone stored).mpr (sameKey ▸ mem_map_of_mem inRemoved)
    · intro member
      obtain ⟨item, inFilter, rfl⟩ := mem_map.mp member
      obtain ⟨inItems, hit⟩ := mem_filter.mp inFilter
      obtain ⟨source, inRemoved, sameKey⟩ := mem_map.mp ((gone item).mp hit)
      obtain ⟨stored, storedMember, storedKey, storedImage⟩ := present source inRemoved
      have same := sorted.eq_of_key storedMember inItems (storedKey.trans sameKey)
      exact mem_map.mpr ⟨source, inRemoved, by rw [← storedImage, same]⟩
  have perm := (perm_ext_iff_of_nodup (nodup_dedup _) nodup).mpr members
  rw [perm.length_eq, length_map, ← length_eq_length_filter_add keep]

end Tendermint.Keyed
