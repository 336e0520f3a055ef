import Mathlib

/-!
The weighted median of values in a linear order. Walking a sorted list, the
value is picked at which the weight so far reaches a threshold. What is picked is
described by the weights below it and up to it, whatever the order of equals.
-/

namespace Tendermint.Median

open List

variable {τ : Type}

def pick : Int → List (τ × Int) → Option τ
  | _, [] => none
  | threshold, (value, weight) :: rest =>
    if threshold ≤ weight then some value else pick (threshold - weight) rest

def mass (keep : τ → Bool) (items : List (τ × Int)) : Int :=
  ((items.filter fun item => keep item.1).map Prod.snd).sum

theorem mass_cons (keep : τ → Bool) (value : τ) (weight : Int) (items : List (τ × Int)) :
    mass keep ((value, weight) :: items) =
      (if keep value then weight else 0) + mass keep items := by
  unfold mass
  cases kept : keep value <;> simp [kept]

variable {items : List (τ × Int)}

theorem mass_perm {keep : τ → Bool} {others : List (τ × Int)} (perm : items.Perm others) :
    mass keep items = mass keep others :=
  ((perm.filter _).map _).sum_eq

theorem mass_nonneg (keep : τ → Bool) (nonneg : ∀ item ∈ items, 0 ≤ item.2) :
    0 ≤ mass keep items := by
  apply sum_nonneg
  intro weight member
  obtain ⟨item, kept, rfl⟩ := mem_map.mp member
  exact nonneg item (mem_filter.mp kept).1

theorem pick_mem {threshold : Int} {value : τ} (picked : pick threshold items = some value) :
    ∃ weight, (value, weight) ∈ items := by
  induction items generalizing threshold with
  | nil => cases picked
  | cons item rest ih =>
  obtain ⟨head, weight⟩ := item
  unfold pick at picked
  split at picked
  · cases picked
    exact ⟨weight, mem_cons_self⟩
  · obtain ⟨found, member⟩ := ih picked
    exact ⟨found, mem_cons_of_mem _ member⟩

theorem pick_some (threshold : Int) (items : List (τ × Int)) (nonempty : items ≠ [])
    (reached : threshold ≤ mass (fun _ => true) items) :
    ∃ value, pick threshold items = some value := by
  induction items generalizing threshold with
  | nil => exact absurd rfl nonempty
  | cons item rest ih =>
  obtain ⟨head, weight⟩ := item
  unfold pick
  by_cases here : threshold ≤ weight
  · exact ⟨head, if_pos here⟩
  · rw [if_neg here]
    rw [mass_cons, if_pos rfl] at reached
    cases rest with
    | nil => simp [mass] at reached; omega
    | cons next later => exact ih _ (cons_ne_nil _ _) (by omega)

variable [LinearOrder τ]

section

variable (threshold : Int) (items : List (τ × Int)) (value : τ)
  (sorted : items.Pairwise fun first second => first.1 ≤ second.1)

include sorted

theorem pick_reaches (nonneg : ∀ item ∈ items, 0 ≤ item.2)
    (picked : pick threshold items = some value) :
    threshold ≤ mass (fun other => decide (other ≤ value)) items := by
  induction items generalizing threshold with
  | nil => cases picked
  | cons item rest ih =>
  obtain ⟨head, weight⟩ := item
  have later := fun other member => nonneg other (mem_cons_of_mem _ member)
  obtain ⟨least, tail⟩ := pairwise_cons.mp sorted
  rw [mass_cons]
  unfold pick at picked
  split at picked
  case isTrue here =>
    cases picked
    have rest_nonneg := mass_nonneg (fun other => decide (other ≤ value)) later
    simp only [le_refl, decide_true, if_true]
    omega
  case isFalse =>
    have reached := ih _ tail later picked
    obtain ⟨found, member⟩ := pick_mem picked
    rw [if_pos (decide_eq_true (least _ member))]
    omega

/-- Where some value lies below the picked one, the weight below it does not
reach the threshold. -/
theorem pick_below (picked : pick threshold items = some value)
    (lower : ∃ item ∈ items, item.1 < value) :
    mass (fun other => decide (other < value)) items < threshold := by
  induction items generalizing threshold with
  | nil => cases picked
  | cons item rest ih =>
  obtain ⟨head, weight⟩ := item
  obtain ⟨least, tail⟩ := pairwise_cons.mp sorted
  rw [mass_cons]
  unfold pick at picked
  split at picked
  case isTrue =>
    cases picked
    obtain ⟨other, member, below⟩ := lower
    rcases mem_cons.mp member with rfl | inRest
    · exact absurd below (lt_irrefl _)
    · exact absurd below (not_lt.mpr (least other inRest))
  case isFalse before =>
    by_cases inRest : ∃ item ∈ rest, item.1 < value
    · have reached := ih _ tail picked inRest
      obtain ⟨other, member, below⟩ := inRest
      rw [if_pos (decide_eq_true (lt_of_le_of_lt (least other member) below))]
      omega
    · have none : mass (fun other => decide (other < value)) rest = 0 := by
        have empty : (rest.filter fun item => decide (item.1 < value)) = [] := by
          rw [filter_eq_nil_iff]
          intro other member
          simpa using fun below => inRest ⟨other, member, below⟩
        rw [mass, empty]
        rfl
      obtain ⟨other, member, below⟩ := lower
      rcases mem_cons.mp member with rfl | later
      · rw [none, if_pos (decide_eq_true below)]
        omega
      · exact absurd ⟨other, later, below⟩ inRest

end

end Tendermint.Median
