import Tendermint.Lib.Removal
import Tendermint.Light.Expiry

/-!
The providers of the light client. A witness is removed by its index and the
last one takes its place, so the indexes are taken from the highest down. When
the primary is replaced, the witness that answered becomes the primary before it
is removed from the witnesses, and the removal fails if no witness would be
left; it is then the primary and its own witness.
-/

namespace Tendermint.Light

open Types List
open Program (Act)
open Removal (swapOut without)

/-- The primary is no witness, and every witness is one once. -/
structure Client.Distinct (c : Client) : Prop where
  primary : c.primary ∉ c.witnesses
  nodup : c.witnesses.Nodup

section Removal

theorem swap_remove_eq {witnesses : List Provider} {index : Nat}
    (bounded : index < witnesses.length) :
    swapRemove witnesses index = .ok (swapOut witnesses index) := by
  cases isLast : witnesses.getLast? with
  | none =>
    rw [getLast?_eq_none_iff.mp isLast] at bounded
    exact absurd bounded (Nat.not_lt_zero _)
  | some last =>
    rw [swapRemove, swapOut, isLast]
    exact if_pos bounded

theorem swap_remove_all (indexes : List Nat) :
    ∀ witnesses : List Provider, indexes.Pairwise (· > ·) →
      (∀ index ∈ indexes, index < witnesses.length) →
      indexes.foldlM swapRemove witnesses = .ok (indexes.foldl swapOut witnesses) := by
  induction indexes with
  | nil => exact fun _ _ _ => rfl
  | cons index rest ih =>
  intro witnesses sorted bounded
  obtain ⟨highest, later⟩ := pairwise_cons.mp sorted
  have inside := bounded index mem_cons_self
  rw [foldlM_cons, swap_remove_eq inside]
  refine ih (swapOut witnesses index) later fun other member => ?_
  have lower := highest other member
  rw [Removal.length_swap_out]
  omega

variable {indexes : List Nat} {c : Client}

theorem sorted_indexes (nodup : indexes.Nodup) :
    (indexes.insertionSort (· ≥ ·)).Pairwise (· > ·) := by
  have sorted := pairwise_insertionSort (· ≥ ·) indexes
  have distinct := (perm_insertionSort (· ≥ ·) indexes).nodup_iff.mpr nodup
  refine (sorted.and distinct).imp ?_
  omega

theorem remove_witnesses_run (indexes : List Nat) (c : Client) (nodup : indexes.Nodup)
    (bounded : ∀ index ∈ indexes, index < c.witnesses.length)
    (fewer : indexes.length < c.witnesses.length) :
    ∃ left, left.Perm (without c.witnesses indexes) ∧
      removeWitnesses indexes c = (.ok none, { c with witnesses := left }) := by
  have perm := perm_insertionSort (· ≥ ·) indexes
  have inside : ∀ index ∈ indexes.insertionSort (· ≥ ·), index < c.witnesses.length :=
    fun index member => bounded index (perm.mem_iff.mp member)
  have sorted := sorted_indexes nodup
  have same : without c.witnesses (indexes.insertionSort (· ≥ ·)) =
      without c.witnesses indexes := by
    simp only [without, perm.mem_iff]
  refine ⟨_, same ▸ Removal.swap_out_all _ c.witnesses sorted inside, ?_⟩
  rw [removeWitnesses, Act.get_bind, if_neg (Nat.not_le.mpr fewer),
    swap_remove_all _ c.witnesses sorted inside]
  rfl

theorem remove_witnesses_refused (all : c.witnesses.length ≤ indexes.length) :
    removeWitnesses indexes c = (.ok (some .noWitnesses), c) := by
  rw [removeWitnesses, Act.get_bind, if_pos all]
  rfl

theorem distinct_without (distinct : c.Distinct) {left : List Provider}
    (perm : left.Perm (without c.witnesses indexes)) :
    Client.Distinct { c with witnesses := left } := by
  constructor
  · intro member
    obtain ⟨index, found, _⟩ := (Removal.mem_without).mp (perm.subset member)
    exact distinct.primary (mem_of_getElem? found)
  · exact perm.nodup_iff.mpr (Removal.nodup_without _ indexes distinct.nodup)

theorem remove_witnesses_distinct (distinct : c.Distinct) (nodup : indexes.Nodup)
    (bounded : ∀ index ∈ indexes, index < c.witnesses.length) :
    (removeWitnesses indexes c).2.Distinct := by
  by_cases all : c.witnesses.length ≤ indexes.length
  · rw [remove_witnesses_refused all]
    exact distinct
  · obtain ⟨left, perm, ran⟩ := remove_witnesses_run indexes c nodup bounded (Nat.not_le.mp all)
    rw [ran]
    exact distinct_without distinct perm

end Removal

section Responses

def ofContext : ProviderError → Bool
  | .canceled | .deadlineExceeded => true
  | _ => false

def malevolent : ProviderError → Bool
  | .canceled | .deadlineExceeded | .noResponse | .lightBlockNotFound | .heightTooHigh => false
  | _ => true

def badBefore : List (Nat × Except ProviderError LightBlock) → Option Nat
  | [] => none
  | (_, .ok _) :: _ => some 0
  | (_, .error error) :: rest =>
    if ofContext error then none
    else (badBefore rest).map (· + if malevolent error then 1 else 0)

/-- Some witness stays beside the one that is promoted. -/
def Spares (responses : List (Nat × Except ProviderError LightBlock)) (count : Nat) : Prop :=
  ∀ bad, badBefore responses = some bad → bad + 1 < count

variable {c : Client} {witnessIndex : Nat} {primary : Provider}

theorem promoted_distinct {indexes : List Nat} (nodup : c.witnesses.Nodup)
    (found : c.witnesses[witnessIndex]? = some primary) (listed : witnessIndex ∈ indexes)
    {left : List Provider} (perm : left.Perm (without c.witnesses indexes)) :
    Client.Distinct { c with primary := primary, witnesses := left } := by
  constructor
  · intro member
    obtain ⟨index, same, kept⟩ := (Removal.mem_without).mp (perm.subset member)
    obtain ⟨inside, here⟩ := List.getElem?_eq_some_iff.mp found
    obtain ⟨otherInside, there⟩ := List.getElem?_eq_some_iff.mp same
    have equal := nodup.getElem_inj_iff.mp (here.trans there.symm)
    exact kept (equal ▸ listed)
  · exact perm.nodup_iff.mpr (Removal.nodup_without _ indexes nodup)

theorem promote_run (remove : Bool) (witnessesToRemove : List Nat) (block : LightBlock)
    (found : c.witnesses[witnessIndex]? = some primary) :
    (promote remove witnessIndex witnessesToRemove block c).2 =
      (removeWitnesses (witnessesToRemove ++ [witnessIndex])
        { c with
          primary := primary
          witnesses := if remove then c.witnesses else c.witnesses ++ [c.primary] }).2 := by
  have inside := (List.getElem?_eq_some_iff.mp found).1
  have here : (if remove then c.witnesses else c.witnesses ++ [c.primary])[witnessIndex]? =
      some primary := by
    cases remove with
    | true => exact found
    | false => simpa [getElem?_append_left inside] using found
  rw [promote, Act.modify_bind, Act.get_bind]
  simp only [here, Act.modify_bind]
  rw [Act.bind_run]
  split
  · rename_i error after ran
    rw [ran]
    cases error <;> rfl
  · rename_i text after ran
    rw [ran]

theorem promote_distinct_iff (remove : Bool) (witnessIndex : Nat) (witnessesToRemove : List Nat)
    (block : LightBlock) (c : Client) (distinct : c.Distinct)
    (nodup : (witnessesToRemove ++ [witnessIndex]).Nodup)
    (bounded : ∀ index ∈ witnessesToRemove ++ [witnessIndex], index < c.witnesses.length) :
    (promote remove witnessIndex witnessesToRemove block c).2.Distinct ↔
      (remove = true → witnessesToRemove.length + 1 < c.witnesses.length) := by
  have inside := bounded witnessIndex (by simp)
  have found : c.witnesses[witnessIndex]? = some c.witnesses[witnessIndex] :=
    getElem?_eq_getElem inside
  have most := Removal.length_le_of_bounded nodup bounded
  rw [length_append, length_singleton] at most
  rw [promote_run remove witnessesToRemove block found]
  cases remove with
  | false =>
    simp only [Bool.false_eq_true, if_false, false_implies, iff_true]
    have nodupAll : (c.witnesses ++ [c.primary]).Nodup :=
      nodup_append.mpr ⟨distinct.nodup, nodup_singleton _, by
        rintro witness member other single rfl
        exact distinct.primary (mem_singleton.mp single ▸ member)⟩
    obtain ⟨left, perm, ran⟩ := remove_witnesses_run (witnessesToRemove ++ [witnessIndex])
      { c with primary := c.witnesses[witnessIndex], witnesses := c.witnesses ++ [c.primary] }
      nodup (fun index member => by
        have bound := bounded index member
        simp only [length_append, length_singleton]
        omega) (by simp only [length_append, length_singleton]; omega)
    rw [ran]
    exact @promoted_distinct { c with witnesses := c.witnesses ++ [c.primary] } witnessIndex _
      (witnessesToRemove ++ [witnessIndex]) nodupAll
      (by simp [getElem?_append_left inside]) (by simp) _ perm
  | true =>
    simp only [if_true, true_implies]
    by_cases fewer : witnessesToRemove.length + 1 < c.witnesses.length
    · obtain ⟨left, perm, ran⟩ := remove_witnesses_run (witnessesToRemove ++ [witnessIndex])
        { c with primary := c.witnesses[witnessIndex] } nodup bounded (by simpa using fewer)
      rw [ran]
      exact iff_of_true (promoted_distinct distinct.nodup found (by simp) perm) fewer
    · -- No witness would be left, and the promoted one stays among them.
      rw [remove_witnesses_refused (by simpa using Nat.not_lt.mp fewer)]
      refine iff_of_false (fun kept => kept.primary ?_) fewer
      exact mem_of_getElem? found

theorem process_responses_error (remove : Bool) (left witnessIndex : Nat) (error : ProviderError)
    (rest : List (Nat × Except ProviderError LightBlock)) (witnessesToRemove : List Nat)
    (lastError : Option ProviderError) :
    processResponses remove (left + 1) ((witnessIndex, .error error) :: rest) witnessesToRemove
        lastError =
      if ofContext error then pure (.error (.provider error))
      else processResponses remove left rest
        (if malevolent error then witnessesToRemove ++ [witnessIndex] else witnessesToRemove)
        (some error) := by
  cases error <;> rfl

theorem process_responses_distinct_iff (remove : Bool) (left : Nat)
    (responses : List (Nat × Except ProviderError LightBlock)) :
    ∀ (witnessesToRemove : List Nat) (lastError : Option ProviderError) (c : Client),
      c.Distinct → (witnessesToRemove ++ responses.map Prod.fst).Nodup →
      (∀ index ∈ witnessesToRemove ++ responses.map Prod.fst, index < c.witnesses.length) →
      responses.length ≤ left →
      ((processResponses remove left responses witnessesToRemove lastError c).2.Distinct ↔
        (remove = true → ∀ bad, badBefore responses = some bad →
          witnessesToRemove.length + bad + 1 < c.witnesses.length)) := by
  induction responses generalizing left with
  | nil =>
    intro witnessesToRemove lastError c distinct _ _ _
    have same : (processResponses remove left [] witnessesToRemove lastError c).2 = c := by
      cases left with
      | zero => cases lastError <;> rfl
      | succ left => rfl
    rw [same]
    exact iff_of_true distinct fun _ bad none => by cases none
  | cons entry rest ih =>
    intro witnessesToRemove lastError c distinct nodup bounded enough
    cases left with
    | zero => cases enough
    | succ left =>
    have fits : rest.length ≤ left := Nat.le_of_succ_le_succ enough
    obtain ⟨witnessIndex, answer⟩ := entry
    rcases answer with error | block
    · rw [process_responses_error, badBefore]
      by_cases done : ofContext error = true
      · rw [if_pos done, if_pos done]
        exact iff_of_true distinct fun _ bad none => by cases none
      rw [if_neg done, if_neg done]
      by_cases bad : malevolent error = true
      · have taken := ih left (witnessesToRemove ++ [witnessIndex]) (some error) c distinct
          (by simpa using nodup) (by simpa using bounded) fits
        simpa [bad, Nat.add_assoc, Nat.add_comm 1] using taken
      · have skipped : (witnessesToRemove ++ rest.map Prod.fst).Sublist
            (witnessesToRemove ++ witnessIndex :: rest.map Prod.fst) :=
          (sublist_cons_self _ _).append_left _
        simpa [bad] using ih left witnessesToRemove (some error) c distinct
          (nodup.sublist skipped) (fun index member => bounded index (skipped.subset member))
          fits
    · simp only [processResponses, badBefore, Option.some.injEq, forall_eq', Nat.add_zero]
      exact promote_distinct_iff remove witnessIndex witnessesToRemove block c distinct
        (nodup.sublist (by simp)) fun index member => bounded index (by
          simp only [mem_append, mem_singleton] at member
          rcases member with listed | rfl <;> simp [*])

end Responses

section Comparisons

def Comparison.removes : Comparison → Option Nat
  | .conflictingHeaders _ witnessIndex => some witnessIndex
  | .badWitness witnessIndex => some witnessIndex
  | _ => none

/-- Where a loop over the comparisons may leave a client: unchanged, or without some
of the witnesses that are to be removed. -/
def Dismisses (c final : Client) (indexes : List Nat) : Prop :=
  final = c ∨ ∃ removed, removed.Sublist indexes ∧ final = (removeWitnesses removed c).2

variable {c final : Client} {indexes : List Nat}

theorem Dismisses.distinct (dismisses : Dismisses c final indexes) (distinct : c.Distinct)
    (nodup : indexes.Nodup) (bounded : ∀ index ∈ indexes, index < c.witnesses.length) :
    final.Distinct := by
  rcases dismisses with rfl | ⟨removed, sub, rfl⟩
  · exact distinct
  · exact remove_witnesses_distinct distinct (nodup.sublist sub) fun index member =>
      bounded index (sub.subset member)

theorem Dismisses.weaken {others : List Nat} (dismisses : Dismisses c final indexes)
    (sub : indexes.Sublist others) :
    Dismisses c final others := by
  rcases dismisses with same | ⟨removed, listed, rest⟩
  · exact .inl same
  · exact .inr ⟨removed, listed.trans sub, rest⟩

theorem removes_cons (witnessesToRemove : List Nat) (result : Comparison) (rest : List Comparison) :
    (witnessesToRemove ++ rest.filterMap Comparison.removes).Sublist
        (witnessesToRemove ++ (result :: rest).filterMap Comparison.removes) ∧
      ∀ witnessIndex, result.removes = some witnessIndex →
        witnessesToRemove ++ [witnessIndex] ++ rest.filterMap Comparison.removes =
          witnessesToRemove ++ (result :: rest).filterMap Comparison.removes := by
  constructor
  · rw [filterMap_cons]
    split
    · exact List.Sublist.refl _
    · exact (sublist_cons_self _ _).append_left _
  · intro witnessIndex found
    rw [filterMap_cons_some found, append_assoc, singleton_append]

theorem process_comparisons_dismisses (conflict : LightBlock → Nat → Option ClientError)
    (left : Nat)
    (comparisons : List Comparison) (headerMatched : Bool) (witnessesToRemove : List Nat)
    (c : Client) :
    Dismisses c (processComparisons conflict left comparisons headerMatched witnessesToRemove c).2
      (witnessesToRemove ++ comparisons.filterMap Comparison.removes) := by
  induction left generalizing comparisons headerMatched witnessesToRemove with
  | zero =>
    refine .inr ⟨witnessesToRemove, sublist_append_left _ _, ?_⟩
    rw [processComparisons, Act.bind_run]
    split
    · rename_i error after ran
      rw [ran]
      cases error <;> rfl
    · rename_i text after ran
      rw [ran]
  | succ left ih =>
    cases comparisons with
    | nil => exact .inl rfl
    | cons result rest =>
    obtain ⟨passed, added⟩ := removes_cons witnessesToRemove result rest
    cases result with
    | matched => exact (ih rest true witnessesToRemove).weaken passed
    | conflictingHeaders block witnessIndex =>
      cases handled : conflict block witnessIndex with
      | some error =>
        simp only [processComparisons, handled]
        exact .inl rfl
      | none =>
        simp only [processComparisons, handled]
        exact added witnessIndex rfl ▸ ih rest headerMatched _
    | badWitness witnessIndex => exact added witnessIndex rfl ▸ ih rest headerMatched _
    | failed error =>
      cases error with
      | canceled => exact .inl rfl
      | deadlineExceeded => exact .inl rfl
      | _ => exact (ih rest headerMatched witnessesToRemove).weaken passed

theorem process_first_comparisons_dismisses (left : Nat) (comparisons : List Comparison)
    (witnessesToRemove : List Nat) (c : Client) :
    Dismisses c (processFirstComparisons left comparisons witnessesToRemove c).2
      (witnessesToRemove ++ comparisons.filterMap Comparison.removes) := by
  induction left generalizing comparisons witnessesToRemove with
  | zero =>
    refine .inr ⟨witnessesToRemove, sublist_append_left _ _, ?_⟩
    rw [processFirstComparisons, Act.bind_run]
    split
    · rename_i error after ran
      rw [ran]
      cases error <;> rfl
    · rename_i text after ran
      rw [ran]
  | succ left ih =>
    cases comparisons with
    | nil => exact .inl rfl
    | cons result rest =>
    obtain ⟨passed, added⟩ := removes_cons witnessesToRemove result rest
    cases result with
    | matched => exact (ih rest witnessesToRemove).weaken passed
    | conflictingHeaders block witnessIndex => exact .inl rfl
    | badWitness witnessIndex => exact added witnessIndex rfl ▸ ih rest _
    | failed error =>
    cases error with
    | canceled => exact .inl rfl
    | deadlineExceeded => exact .inl rfl
    | _ => exact (ih rest witnessesToRemove).weaken passed

end Comparisons

section Calls

inductive ProviderCall where
  | lightBlockFromPrimary (height : Int)
  | findNewPrimary (height : Int) (remove : Bool)
  | detectDivergence (primaryTrace : List LightBlock)
  | compareFirstHeaderWithWitnesses (header : SignedHeader)
  deriving DecidableEq, Repr

def callProviders (world : World) (c : Client) : ProviderCall → Client
  | .lightBlockFromPrimary height => (lightBlockFromPrimary world height c).2
  | .findNewPrimary height remove => (findNewPrimary world height remove c).2
  | .detectDivergence primaryTrace => (detectDivergence world primaryTrace c).2
  | .compareFirstHeaderWithWitnesses header => (compareFirstHeaderWithWitnesses world header c).2

structure World.Fair (world : World) (count : Nat) : Prop where
  respondOnce : ∀ number height, ((world.responses number height).map Prod.fst).Nodup
  respond : ∀ number height, ∀ index ∈ (world.responses number height).map Prod.fst, index < count
  compareOnce : ∀ number header,
    ((world.comparisons number header).filterMap Comparison.removes).Nodup
  compare : ∀ number header,
    ∀ index ∈ (world.comparisons number header).filterMap Comparison.removes, index < count

/-- The primary is dropped only if a witness stays beside the new primary. -/
def ProviderCall.Spared (world : World) (c : Client) : ProviderCall → Prop
  | .lightBlockFromPrimary height =>
    ∀ error, world.lightBlock c.asked c.primary height = .error error → malevolent error = true →
      Spares (world.responses (c.asked + 1) height) c.witnesses.length
  | .findNewPrimary height remove =>
    remove = true → Spares (world.responses c.asked height) c.witnesses.length
  | _ => True

theorem find_new_primary_distinct_iff (world : World) (height : Int) (remove : Bool) (c : Client)
    (distinct : c.Distinct) (fair : world.Fair c.witnesses.length) :
    (findNewPrimary world height remove c).2.Distinct ↔
      (remove = true → Spares (world.responses c.asked height) c.witnesses.length) := by
  have once := fair.respondOnce c.asked height
  have bounded := fair.respond c.asked height
  have few := Removal.length_le_of_bounded once bounded
  rw [length_map] at few
  by_cases nobody : c.witnesses.length < 1
  · have none : world.responses c.asked height = [] := length_eq_zero_iff.mp (by omega)
    have same : (findNewPrimary world height remove c).2 = c := by
      rw [findNewPrimary, Act.get_bind, if_pos nobody]
      rfl
    rw [same, none]
    exact iff_of_true distinct fun _ bad found => by cases found
  · have ran : findNewPrimary world height remove c = processResponses remove c.witnesses.length
        (world.responses c.asked height) [] none { c with asked := c.asked + 1 } := by
      rw [findNewPrimary, Act.get_bind, if_neg nobody]
      rfl
    rw [ran]
    refine (process_responses_distinct_iff remove _ _ [] none { c with asked := c.asked + 1 }
      ⟨distinct.primary, distinct.nodup⟩ once bounded few).trans ?_
    simp [Spares]

variable {c : Client} {world : World}

theorem light_block_from_primary_distinct_iff (height : Int) (distinct : c.Distinct)
    (fair : world.Fair c.witnesses.length) :
    (lightBlockFromPrimary world height c).2.Distinct ↔
      (ProviderCall.lightBlockFromPrimary height).Spared world c := by
  have replaced := fun remove => find_new_primary_distinct_iff world height remove
    { c with asked := c.asked + 1 } ⟨distinct.primary, distinct.nodup⟩ fair
  rw [lightBlockFromPrimary, Act.get_bind, Act.bind_run]
  simp only [ProviderCall.Spared]
  cases answer : world.lightBlock c.asked c.primary height with
  | ok block =>
    have fetched : getLightBlock world c.primary height c =
        (.ok (.ok block), { c with asked := c.asked + 1 }) := by
      rw [← answer]
      rfl
    rw [fetched]
    exact iff_of_true ⟨distinct.primary, distinct.nodup⟩ (by simp)
  | error error =>
    have fetched : getLightBlock world c.primary height c =
        (.ok (.error error), { c with asked := c.asked + 1 }) := by
      rw [← answer]
      rfl
    rw [fetched]
    cases error with
    | canceled => exact iff_of_true ⟨distinct.primary, distinct.nodup⟩ (by simp [malevolent])
    | deadlineExceeded =>
      exact iff_of_true ⟨distinct.primary, distinct.nodup⟩ (by simp [malevolent])
    | noResponse => simpa [malevolent] using replaced false
    | lightBlockNotFound => simpa [malevolent] using replaced false
    | heightTooHigh => simpa [malevolent] using replaced false
    | _ => simpa [malevolent] using replaced true

theorem detect_divergence_distinct (primaryTrace : List LightBlock) (distinct : c.Distinct)
    (fair : world.Fair c.witnesses.length) :
    (detectDivergence world primaryTrace c).2.Distinct := by
  cases isLast : primaryTrace.getLast? with
  | none =>
    simp only [detectDivergence, isLast]
    exact distinct
  | some last =>
  simp only [detectDivergence, isLast]
  by_cases short : primaryTrace.length < 2
  · rw [if_pos short]
    exact distinct
  rw [if_neg short, Act.get_bind]
  by_cases nobody : c.witnesses.length = 0
  · rw [if_pos nobody]
    exact distinct
  rw [if_neg nobody]
  exact (process_comparisons_dismisses _ _ _ _ [] { c with asked := c.asked + 1 }).distinct
    ⟨distinct.primary, distinct.nodup⟩ (fair.compareOnce c.asked last.signedHeader)
    (fair.compare c.asked last.signedHeader)

theorem compare_first_header_distinct (header : SignedHeader) (distinct : c.Distinct)
    (fair : world.Fair c.witnesses.length) :
    (compareFirstHeaderWithWitnesses world header c).2.Distinct := by
  rw [compareFirstHeaderWithWitnesses, Act.get_bind]
  by_cases nobody : c.witnesses.length < 1
  · rw [if_pos nobody]
    exact distinct
  rw [if_neg nobody]
  exact (process_first_comparisons_dismisses _ _ [] { c with asked := c.asked + 1 }).distinct
    ⟨distinct.primary, distinct.nodup⟩ (fair.compareOnce c.asked header)
    (fair.compare c.asked header)

theorem call_distinct_iff (call : ProviderCall) (distinct : c.Distinct)
    (fair : world.Fair c.witnesses.length) :
    (callProviders world c call).Distinct ↔ call.Spared world c := by
  cases call with
  | lightBlockFromPrimary height =>
    exact light_block_from_primary_distinct_iff height distinct fair
  | findNewPrimary height remove =>
    exact find_new_primary_distinct_iff world height remove c distinct fair
  | detectDivergence primaryTrace =>
    exact iff_of_true (detect_divergence_distinct primaryTrace distinct fair) trivial
  | compareFirstHeaderWithWitnesses header =>
    exact iff_of_true (compare_first_header_distinct header distinct fair) trivial

def afterCalls (c : Client) (calls : List (World × ProviderCall)) : Client :=
  calls.foldl (fun c call => callProviders call.1 c call.2) c

/-- Along a run of calls the primary is never a witness and no witness occurs twice
exactly if no call drops the primary without a witness to spare; and a removal takes
exactly the witnesses at the indexes it is given. -/
theorem providers_apart_iff (c : Client) (calls : List (World × ProviderCall))
    (distinct : c.Distinct)
    (fair : ∀ before call rest, calls = before ++ call :: rest →
      call.1.Fair (afterCalls c before).witnesses.length) :
    ((∀ before rest, calls = before ++ rest → (afterCalls c before).Distinct) ↔
      ∀ before call rest, calls = before ++ call :: rest →
        call.2.Spared call.1 (afterCalls c before)) ∧
    ∀ (indexes : List Nat) (given final : Client), indexes.Nodup →
      (∀ index ∈ indexes, index < given.witnesses.length) →
      removeWitnesses indexes given = (.ok none, final) →
      final.witnesses.Perm (without given.witnesses indexes) := by
  have step : ∀ before call, afterCalls c (before ++ [call]) =
      callProviders call.1 (afterCalls c before) call.2 := by
    intro before call
    rw [afterCalls, foldl_append]
    rfl
  constructor
  · constructor
    · intro all before call rest split
      have here := all before (call :: rest) split
      have next := all (before ++ [call]) rest (by simpa using split)
      rw [step] at next
      exact (call_distinct_iff call.2 here (fair before call rest split)).mp next
    · intro spared before
      -- The calls before this state were all spared.
      induction before using List.reverseRecOn with
      | nil => exact fun _ _ => distinct
      | append_singleton before call ih =>
      intro rest split
      have earlier : calls = before ++ call :: rest := by simpa using split
      rw [step]
      exact (call_distinct_iff call.2 (ih (call :: rest) earlier)
        (fair before call rest earlier)).mpr (spared before call rest earlier)
  · intro indexes given final nodup bounded ran
    by_cases all : given.witnesses.length ≤ indexes.length
    · rw [remove_witnesses_refused all] at ran
      cases ran
    · obtain ⟨left, perm, same⟩ :=
        remove_witnesses_run indexes given nodup bounded (Nat.not_le.mp all)
      rw [same] at ran
      cases ran
      exact perm

def badPrimaryWorld : World where
  lightBlock _ _ _ := .error (.badLightBlock "invalid header")
  responses _ _ := [(0, .ok (soleBlock 2 1900))]
  comparisons _ _ := []
  conflict _ _ _ _ := none

theorem bad_primary_world_fair (count : Nat) (some : 0 < count) : badPrimaryWorld.Fair count := by
  constructor <;> simp [badPrimaryWorld, some]

def servedBy (witnesses : List Provider) : Client :=
  Client.restore 0 witnesses ⟨[soleBlock 1 1800], 1⟩

theorem only_witness_promoted :
    (servedBy [1]).Distinct ∧ badPrimaryWorld.Fair (servedBy [1]).witnesses.length ∧
      (lightBlockFromPrimary badPrimaryWorld 2 (servedBy [1])).1 = .ok (.error .noWitnesses) ∧
      (afterCalls (servedBy [1]) [(badPrimaryWorld, .lightBlockFromPrimary 2)]).primary = 1 ∧
      (afterCalls (servedBy [1]) [(badPrimaryWorld, .lightBlockFromPrimary 2)]).witnesses = [1] ∧
      ¬ (afterCalls (servedBy [1]) [(badPrimaryWorld, .lightBlockFromPrimary 2)]).Distinct := by
  have primary : (afterCalls (servedBy [1])
      [(badPrimaryWorld, .lightBlockFromPrimary 2)]).primary = 1 := by decide +kernel
  have witnesses : (afterCalls (servedBy [1])
      [(badPrimaryWorld, .lightBlockFromPrimary 2)]).witnesses = [1] := by decide +kernel
  refine ⟨⟨by decide, by decide⟩, bad_primary_world_fair _ (by decide), by decide +kernel, primary,
    witnesses, fun distinct => distinct.primary ?_⟩
  exact mem_singleton.mpr rfl

theorem spare_witness_promoted :
    (afterCalls (servedBy [1, 2]) [(badPrimaryWorld, .lightBlockFromPrimary 2)]).primary = 1 ∧
      (afterCalls (servedBy [1, 2]) [(badPrimaryWorld, .lightBlockFromPrimary 2)]).Distinct := by
  refine ⟨by decide +kernel, ?_⟩
  refine (providers_apart_iff (servedBy [1, 2]) [(badPrimaryWorld, .lightBlockFromPrimary 2)]
    ⟨by decide, by decide⟩ ?_).1.mpr ?_ _ [] rfl
  · intro before call rest split
    cases before with
    | nil =>
      cases split
      exact bad_primary_world_fair _ (by decide)
    | cons first others => simp at split
  · intro before call rest split
    cases before with
    | nil =>
      cases split
      intro error _ _ bad found
      cases found
      decide
    | cons first others => simp at split

end Calls

end Tendermint.Light
