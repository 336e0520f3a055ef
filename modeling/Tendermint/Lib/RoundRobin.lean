import Tendermint.Lib.Quorum

/-!
Weighted round robin by the highest level. In a step every member rises by its
rate, and then the highest one drops by the total rate. The sum of the levels
stays.
-/

namespace Tendermint.RoundRobin

open List
open Quorum (weight)

variable {ι : Type} [DecidableEq ι]

def StepBy (members : Finset ι) (rate level next : ι → Int) (top : ι) : Prop :=
  top ∈ members ∧
    (∀ member ∈ members, level member + rate member ≤ level top + rate top) ∧
    ∀ member ∈ members, next member =
      level member + rate member - if member = top then weight rate members else 0

/-- A run with the members that it serves, in their order. -/
inductive Schedule (members : Finset ι) (rate : ι → Int) :
    List ι → (ι → Int) → (ι → Int) → Prop
  | start (level : ι → Int) : Schedule members rate [] level level
  | serve (tops : List ι) (top : ι) (level middle next : ι → Int)
      (before : Schedule members rate tops level middle)
      (last : StepBy members rate middle next top) :
      Schedule members rate (tops ++ [top]) level next

variable {members : Finset ι} {rate level next : ι → Int}

theorem StepBy.sum {top : ι} (step : StepBy members rate level next top) :
    weight next members = weight level members := by
  obtain ⟨member, _, moved⟩ := step
  rw [weight, Finset.sum_congr rfl moved, Finset.sum_sub_distrib, Finset.sum_add_distrib,
    Finset.sum_ite_eq' members top, if_pos member]
  exact add_sub_cancel_right _ _

theorem Schedule.sum {tops : List ι} (schedule : Schedule members rate tops level next) :
    weight next members = weight level members := by
  induction schedule with
  | start => rfl
  | serve _ _ _ _ _ _ last ih => rw [last.sum, ih]

omit [DecidableEq ι] in
theorem top_positive (top : ι)
    (highest : ∀ other ∈ members, level other + rate other ≤ level top + rate top)
    (centred : 0 ≤ weight level members) (positive : 0 < weight rate members) :
    0 < level top + rate top := by
  by_contra low
  have below : ∑ other ∈ members, (level other + rate other) ≤ 0 :=
    Finset.sum_nonpos fun other present => (highest other present).trans (not_lt.mp low)
  rw [Finset.sum_add_distrib] at below
  unfold weight at centred positive
  omega

section

variable {tops : List ι} (schedule : Schedule members rate tops level next)

include tops schedule

/-- From centred levels, none ever falls by the total rate below zero. -/
theorem Schedule.above (nonneg : ∀ member ∈ members, 0 ≤ rate member)
    (positive : 0 < weight rate members) (centred : 0 ≤ weight level members)
    (start : ∀ member ∈ members, -weight rate members < level member) :
    ∀ member ∈ members, -weight rate members < next member := by
  induction schedule with
  | start level => exact start
  | serve tops top level middle next before last ih =>
  obtain ⟨topMember, highest, moved⟩ := last
  intro member present
  have sum := before.sum
  have mean := top_positive top highest (by rw [sum]; exact centred) positive
  have earlier := ih centred start member present
  have rises := nonneg member present
  rw [moved member present]
  split
  case isTrue same =>
    rw [same]
    omega
  case isFalse => omega

/-- Where a schedule leaves a level: it has risen with every step and dropped whenever it was
served. -/
theorem Schedule.level_eq (member : ι) (present : member ∈ members) :
    next member = level member + tops.length * rate member -
      weight rate members * tops.count member := by
  induction schedule with
  | start level => simp
  | serve tops top level middle next before last ih =>
  rw [last.2.2 member present, ih, length_append, count_append, count_singleton]
  by_cases same : member = top
  · subst same
    simp only [if_true, BEq.rfl, length_singleton]
    push_cast
    ring
  · have other : ¬ (top == member) = true := fun equal => same (beq_iff_eq.mp equal).symm
    simp only [if_neg same, if_neg other, length_singleton]
    push_cast
    ring

theorem Schedule.served : ∀ top ∈ tops, top ∈ members := by
  induction schedule with
  | start level => exact fun _ member => nomatch member
  | serve tops top level middle next before last ih =>
  intro other member
  rcases mem_append.mp member with earlier | now
  · exact ih other earlier
  · rw [mem_singleton.mp now]
    exact last.1

/-- In as many steps as the total rate, from levels of zero, every member is served as often as
its rate says, and the levels are zero again. -/
theorem Schedule.cycle (nonneg : ∀ member ∈ members, 0 ≤ rate member)
    (positive : 0 < weight rate members) (zero : ∀ member ∈ members, level member = 0)
    (whole : (tops.length : Int) = weight rate members) :
    ∀ member ∈ members, (tops.count member : Int) = rate member ∧ next member = 0 := by
  have centred : weight level members = 0 := Finset.sum_eq_zero zero
  have above := schedule.above nonneg positive centred.ge
    fun member present => by rw [zero member present]; omega
  -- nobody is served too often, since a level is a multiple of the total above minus one of it
  have most : ∀ member ∈ members, (tops.count member : Int) ≤ rate member := by
    intro member present
    have low := above member present
    rw [schedule.level_eq member present, zero member present, whole, Int.zero_add,
      ← Int.mul_sub] at low
    have unit : weight rate members * (-1) <
        weight rate members * (rate member - tops.count member) := by
      rw [Int.mul_neg_one]
      exact low
    have gap := lt_of_mul_lt_mul_left unit positive.le
    omega
  have all : ∑ member ∈ members, (tops.count member : Int) = ∑ member ∈ members, rate member := by
    have counted := Multiset.sum_count_eq_card (s := members) (m := (tops : Multiset ι))
      fun top member => schedule.served top (Multiset.mem_coe.mp member)
    simp only [Multiset.coe_count, Multiset.coe_card] at counted
    rw [← Nat.cast_sum, counted]
    exact whole
  have equal := (Finset.sum_eq_sum_iff_of_le most).mp all
  intro member present
  refine ⟨equal member present, ?_⟩
  rw [schedule.level_eq member present, zero member present, whole, equal member present]
  ring

end

omit [DecidableEq ι] in
theorem level_le_of_above {bound : Int} (sum : weight level members = 0)
    (above : ∀ member ∈ members, -bound < level member) {member : ι} (present : member ∈ members) :
    level member + bound ≤ members.card * bound := by
  have raised : ∑ other ∈ members, (level other + bound) = members.card * bound := by
    rw [Finset.sum_add_distrib, Finset.sum_const, nsmul_eq_mul]
    unfold weight at sum
    rw [sum, Int.zero_add]
  rw [← raised]
  exact Finset.single_le_sum (f := fun other => level other + bound)
    (fun other inside => by have := above other inside; omega) present

end Tendermint.RoundRobin
