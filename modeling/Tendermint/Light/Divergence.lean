import Tendermint.Light.Backwards
import Tendermint.Light.Detector

/-!
What detectDivergence returns for every order in which the tasks' messages
arrive. A task whose witness has another header at the height of the primary's
sends two messages, while the channel is read once for each witness. So its
second message, which says that the headers match, may be read in the place of
what another task sends. The order can be chosen badly exactly if the conflicts
that come to nothing are at least as many as the messages that would have ended
the loop.
-/

namespace Tendermint.Light

open Types List
open Merkle (Hashing)
open Program (Act)
open Interleaving (Interleaves fromSender inTurns)

inductive Kind where
  /-- The header of the primary. -/
  | agrees
  /-- Another header at its height, for which no evidence is found. -/
  | unfounded
  /-- A lower block that is not earlier, for which no evidence is found. -/
  | unfoundedBelow
  /-- A conflict that is an attack. -/
  | attack
  /-- A conflict whose handling panics or does not return. -/
  | fatal
  | bad
  | benign
  | context
  deriving DecidableEq, Repr

def Kind.stopping : Kind → Bool
  | .attack | .fatal | .context => true
  | _ => false

section

variable (hashing : Hashing) (compared : Nat → Answers)
  (handle : LightBlock → Nat → Panics (Option ClientError)) (h : SignedHeader)

def conflictKind (outcome : Panics (Option ClientError)) (otherwise : Kind) : Kind :=
  match outcome with
  | .error _ => .fatal
  | .ok (some _) => .attack
  | .ok none => otherwise

def kindOf (index : Nat) : Kind :=
  match fetchToCompare (compared index) h with
  | .failed error => if ofContext error then .context else .benign
  | .bad _ => .bad
  | .laterBelow block => conflictKind (handle block index) .unfoundedBelow
  | .block block =>
    if h.header.hash hashing ≠ block.hash hashing then
      conflictKind (handle block index) .unfounded
    else .agrees

def sent (index : Nat) : List Comparison :=
  compareNewHeaderWithWitness hashing (compared index) h index

def stopOf : Comparison → Option (Panics (Option ClientError))
  | .conflictingHeaders block index =>
    match handle block index with
    | .ok none => none
    | .ok (some error) => some (.ok (some error))
    | .error text => some (.error text)
  | .failed error => if ofContext error then some (.ok (some (.provider error))) else none
  | _ => none

theorem handle_failed (left : Nat) (error : ProviderError) (rest : List Comparison)
    (headerMatched : Bool) (witnessesToRemove : List Nat) :
    handleComparisons handle (left + 1) (.failed error :: rest) headerMatched witnessesToRemove =
      if ofContext error then pure (some (.provider error))
      else handleComparisons handle left rest headerMatched witnessesToRemove := by
  cases error <;> rfl

theorem handle_comparisons_run (read rest : List Comparison) (headerMatched : Bool)
    (witnessesToRemove : List Nat) (c : Client) :
    handleComparisons handle read.length (read ++ rest) headerMatched witnessesToRemove c =
      match read.findSome? (stopOf handle) with
      | some outcome => (outcome, c)
      | none => handleComparisons handle 0 [] (headerMatched || read.contains .matched)
          (witnessesToRemove ++ read.filterMap Comparison.removes) c := by
  induction read generalizing headerMatched witnessesToRemove with
  | nil => simp [handleComparisons]
  | cons message read ih =>
  rw [length_cons, cons_append]
  cases message with
  | matched =>
    simp only [handleComparisons, ih, findSome?_cons, stopOf, filterMap_cons, Comparison.removes]
    simp
  | conflictingHeaders block index =>
    cases outcome : handle block index with
    | error text => simp [handleComparisons, stopOf, outcome]
    | ok found =>
    cases found with
    | some error => simp [handleComparisons, stopOf, outcome]
    | none =>
      simp only [handleComparisons, outcome, Act.lift_ok_bind, ih,
        findSome?_cons, stopOf, filterMap_cons, Comparison.removes]
      simp
  | badWitness index =>
    simp only [handleComparisons, ih, findSome?_cons, stopOf, filterMap_cons, Comparison.removes]
    simp
  | failed error =>
    rw [handle_failed, findSome?_cons, stopOf]
    by_cases done : ofContext error = true
    · rw [if_pos done, if_pos done]
      rfl
    · rw [if_neg done, if_neg done, ih, filterMap_cons_none rfl]
      simp

structure Task (index : Nat) (kind : Kind) (first : Comparison) (later : List Comparison) :
    Prop where
  matched : ∀ message ∈ later, message = Comparison.matched
  removes : ∀ removed, first.removes = some removed → removed = index
  passes : kind.stopping = false → stopOf handle first = none
  length : kind.stopping = false → later.length = if kind = .unfounded then 1 else 0
  agreeing : kind.stopping = false → Comparison.matched ∈ first :: later →
    kind = .agrees ∨ kind = .unfounded
  doubled : kind = .unfounded → first ≠ .matched ∧ later = [.matched]
  attack : kind = .attack → ∃ block error, handle block index = .ok (some error) ∧
    stopOf handle first = some (.ok (some error))
  fatal : kind = .fatal → ∃ text, stopOf handle first = some (.error text)
  context : kind = .context → ∃ error, stopOf handle first = some (.ok (some (.provider error)))

theorem conflict_task (index : Nat) (block : LightBlock) (otherwise : Kind)
    (later : List Comparison)
    (given : otherwise = .unfounded ∧ later = [.matched] ∨
      otherwise = .unfoundedBelow ∧ later = []) :
    Task handle index (conflictKind (handle block index) otherwise)
      (.conflictingHeaders block index) later := by
  rcases outcome : handle block index with text | _ | error
  all_goals
    constructor <;> rcases given with ⟨rfl, rfl⟩ | ⟨rfl, rfl⟩ <;>
      simp [conflictKind, Kind.stopping, Comparison.removes, stopOf, outcome]
  -- what is left is the error that the handling returned
  all_goals exact ⟨block, outcome⟩

theorem task_of (index : Nat) :
    ∃ first later, sent hashing compared h index = first :: later ∧
      Task handle index (kindOf hashing compared handle h index) first later := by
  simp only [kindOf, sent, compareNewHeaderWithWitness]
  cases fetchToCompare (compared index) h with
  | failed error =>
    refine ⟨.failed error, [], rfl, ?_⟩
    by_cases done : ofContext error = true
    · simp only [if_pos done]
      constructor <;> simp [Kind.stopping, Comparison.removes, stopOf, done]
    · simp only [if_neg done]
      constructor <;> simp [Kind.stopping, Comparison.removes, stopOf, done]
  | bad error =>
    refine ⟨.badWitness index, [], rfl, ?_⟩
    constructor <;> simp [Kind.stopping, Comparison.removes, stopOf]
  | laterBelow block =>
    exact ⟨_, [], rfl, conflict_task handle index block _ [] (.inr ⟨rfl, rfl⟩)⟩
  | block block =>
    by_cases differs : h.header.hash hashing ≠ block.hash hashing
    · simp only [if_pos differs]
      exact ⟨_, [.matched], rfl, conflict_task handle index block _ _ (.inl ⟨rfl, rfl⟩)⟩
    · simp only [if_neg differs]
      refine ⟨.matched, [], rfl, ?_⟩
      constructor <;> simp [Kind.stopping, Comparison.removes, stopOf]

variable {hashing compared handle h}

section

variable {index : Nat} {kind : Kind} {first : Comparison} {later : List Comparison}
  (task : Task handle index kind first later) (stopping : kind.stopping = true)

include index kind later task stopping

theorem Task.stops : ∃ outcome, stopOf handle first = some outcome := by
  cases kind with
  | attack =>
    obtain ⟨_, error, _, stops⟩ := task.attack rfl
    exact ⟨_, stops⟩
  | fatal =>
    obtain ⟨text, stops⟩ := task.fatal rfl
    exact ⟨_, stops⟩
  | context =>
    obtain ⟨error, stops⟩ := task.context rfl
    exact ⟨_, stops⟩
  | _ => cases stopping

theorem Task.outcome {outcome : Panics (Option ClientError)}
    (stops : stopOf handle first = some outcome) :
    outcome ≠ .ok none ∧ (kind ≠ .context → kind ≠ .fatal →
      ∃ block error, handle block index = .ok (some error) ∧ outcome = .ok (some error)) := by
  cases kind with
  | attack =>
    obtain ⟨block, error, handled, same⟩ := task.attack rfl
    have equal := Option.some.inj (stops.symm.trans same)
    exact ⟨by rw [equal]; simp, fun _ _ => ⟨block, error, handled, equal⟩⟩
  | fatal =>
    obtain ⟨text, same⟩ := task.fatal rfl
    have equal := Option.some.inj (stops.symm.trans same)
    exact ⟨by rw [equal]; simp, fun _ other => absurd rfl other⟩
  | context =>
    obtain ⟨error, same⟩ := task.context rfl
    have equal := Option.some.inj (stops.symm.trans same)
    exact ⟨by rw [equal]; simp, fun other => absurd rfl other⟩
  | _ => cases stopping

end

theorem agrees_iff (index : Nat) :
    kindOf hashing compared handle h index = .agrees ↔
      ∃ block, fetchToCompare (compared index) h = .block block ∧
        block.hash hashing = h.header.hash hashing := by
  have never : ∀ outcome otherwise, otherwise ≠ .agrees →
      conflictKind outcome otherwise ≠ .agrees := by
    intro outcome otherwise other
    rcases outcome with text | _ | error
    · exact Kind.noConfusion
    · exact other
    · exact Kind.noConfusion
  simp only [kindOf]
  cases fetchToCompare (compared index) h with
  | failed error => by_cases done : ofContext error = true <;> simp [done]
  | bad error => simp
  | laterBelow block => simpa using never _ _ Kind.noConfusion
  | block block =>
    by_cases differs : h.header.hash hashing ≠ block.hash hashing
    · simpa [differs, Ne.symm differs] using never _ _ Kind.noConfusion
    · simp [not_not.mp differs]

section

variable {count : Nat} {read rest : List (Nat × Comparison)}

theorem unheard (interleaves : Interleaves count (sent hashing compared h) (read ++ rest))
    (passed : (read.map Prod.snd).findSome? (stopOf handle) = none) {entry : Nat × Comparison}
    (member : entry ∈ read) : (kindOf hashing compared handle h entry.1).stopping = false := by
  obtain ⟨first, later, shape, task⟩ := task_of hashing compared handle h entry.1
  by_contra stops
  obtain ⟨outcome, stops⟩ := task.stops (by simpa using stops)
  have here := Interleaving.first_read interleaves member shape
  have none := findSome?_eq_none_iff.mp passed first (mem_map_of_mem here)
  rw [stops] at none
  cases none

theorem stopped_by (interleaves : Interleaves count (sent hashing compared h) (read ++ rest))
    {outcome : Panics (Option ClientError)}
    (stopped : (read.map Prod.snd).findSome? (stopOf handle) = some outcome) :
    ∃ index < count, ∃ first later,
      Task handle index (kindOf hashing compared handle h index) first later ∧
      (kindOf hashing compared handle h index).stopping = true ∧
      stopOf handle first = some outcome := by
  obtain ⟨message, listed, stops⟩ := exists_of_findSome?_eq_some stopped
  obtain ⟨⟨index, _⟩, member, rfl⟩ := mem_map.mp listed
  obtain ⟨bounded, sentHere⟩ := Interleaving.mem_sends interleaves member
  obtain ⟨first, later, shape, task⟩ := task_of hashing compared handle h index
  rw [shape] at sentHere
  have isFirst : stopOf handle first = some outcome := by
    rcases mem_cons.mp sentHere with rfl | behind
    · exact stops
    · have matched := task.matched _ behind
      rw [matched] at stops
      cases stops
  refine ⟨index, bounded, first, later, task, ?_, isFirst⟩
  by_contra passing
  have none := task.passes (by simpa using passing)
  rw [isFirst] at none
  cases none

end

section

variable (hashing compared handle h)

def witnessesOf (count : Nat) (kinds : Kind → Bool) : Finset Nat :=
  (Finset.range count).filter fun index => kinds (kindOf hashing compared handle h index) = true

variable {hashing compared handle h}

theorem mem_witnesses_of (count : Nat) (kinds : Kind → Bool) (index : Nat) :
    index ∈ witnessesOf hashing compared handle h count kinds ↔
      index < count ∧ kinds (kindOf hashing compared handle h index) = true := by
  rw [witnessesOf, Finset.mem_filter, Finset.mem_range]

theorem passing_and_stopping (count : Nat) :
    (witnessesOf hashing compared handle h count fun kind => !kind.stopping).card +
      (witnessesOf hashing compared handle h count Kind.stopping).card = count := by
  have parts := @Finset.card_filter_add_card_filter_not _ (Finset.range count)
  have passing : (witnessesOf hashing compared handle h count fun kind => !kind.stopping) =
      (Finset.range count).filter
        fun index => ¬ (kindOf hashing compared handle h index).stopping = true :=
    Finset.filter_congr fun index _ => by simp
  rw [passing, Nat.add_comm, witnessesOf, parts, Finset.card_range]

theorem passing_messages (count : Nat) :
    ∑ index ∈ witnessesOf hashing compared handle h count fun kind => !kind.stopping,
        (sent hashing compared h index).length =
      (witnessesOf hashing compared handle h count fun kind => !kind.stopping).card +
        (witnessesOf hashing compared handle h count (· == .unfounded)).card := by
  have each : ∀ index ∈ witnessesOf hashing compared handle h count fun kind => !kind.stopping,
      (sent hashing compared h index).length =
        1 + if kindOf hashing compared handle h index = .unfounded then 1 else 0 := by
    intro index member
    obtain ⟨_, passing⟩ := (mem_witnesses_of count _ index).mp member
    obtain ⟨first, later, shape, task⟩ := task_of hashing compared handle h index
    rw [shape, length_cons, task.length (by simpa using passing), Nat.add_comm]
  have among : (witnessesOf hashing compared handle h count fun kind => !kind.stopping).filter
      (fun index => kindOf hashing compared handle h index = .unfounded) =
      witnessesOf hashing compared handle h count (· == .unfounded) := by
    ext index
    rw [Finset.mem_filter, mem_witnesses_of, mem_witnesses_of, beq_iff_eq]
    constructor
    · exact fun found => ⟨found.1.1, found.2⟩
    · exact fun found => ⟨⟨found.1, by rw [found.2]; rfl⟩, found.2⟩
  rw [Finset.sum_congr rfl each, Finset.sum_add_distrib, Finset.sum_const, ← among,
    Finset.card_filter, smul_eq_mul, Nat.mul_one]

/-- A loop that nothing stopped has read that much, so those who would have stopped
it are no more than the unfounded conflicts. -/
theorem stopping_le_unfounded {count : Nat} {read rest : List (Nat × Comparison)}
    (interleaves : Interleaves count (sent hashing compared h) (read ++ rest))
    (length : read.length = count)
    (passed : (read.map Prod.snd).findSome? (stopOf handle) = none) :
    (witnessesOf hashing compared handle h count Kind.stopping).card ≤
      (witnessesOf hashing compared handle h count (· == .unfounded)).card := by
  have few : read.length ≤
      ∑ index ∈ witnessesOf hashing compared handle h count fun kind => !kind.stopping,
        (sent hashing compared h index).length :=
    Interleaving.read_length_le interleaves
      (fun index => (!(kindOf hashing compared handle h index).stopping) = true)
      fun entry member => by simp [unheard interleaves passed member]
  have parts := @passing_and_stopping hashing compared handle h count
  rw [passing_messages] at few
  omega

end

section

theorem remove_witnesses_error {toRemove : List Nat} {c after : Client} {error : ClientError}
    (ran : removeWitnesses toRemove c = (.ok (some error), after)) : error = .noWitnesses := by
  by_cases all : c.witnesses.length ≤ toRemove.length
  · rw [remove_witnesses_refused all] at ran
    cases ran
    rfl
  · rw [removeWitnesses, Act.get_bind, if_neg all] at ran
    obtain ⟨witnesses, between, _, ran⟩ := Act.bind_ok ran
    cases ran

theorem finish_matched {toRemove : List Nat} {headerMatched : Bool} {c : Client}
    (returned : (handleComparisons handle 0 [] headerMatched toRemove c).1 = .ok none) :
    headerMatched = true := by
  rw [handleComparisons, Act.bind_run] at returned
  split at returned
  · rename_i error after _
    cases error with
    | some error => cases returned
    | none =>
      by_contra unmatched
      simp [unmatched] at returned
  · cases returned

theorem finish_not_attack (toRemove : List Nat) (headerMatched : Bool) (c : Client) :
    (handleComparisons handle 0 [] headerMatched toRemove c).1 ≠ .ok (some .lightClientAttack) := by
  intro returned
  rw [handleComparisons, Act.bind_run] at returned
  split at returned
  · rename_i error after ran
    cases error with
    | some error =>
      rw [remove_witnesses_error ran] at returned
      cases returned
    | none =>
      cases headerMatched <;> cases returned
  · cases returned

theorem finish_ok (toRemove : List Nat) (c : Client) (nodup : toRemove.Nodup)
    (bounded : ∀ index ∈ toRemove, index < c.witnesses.length)
    (fewer : toRemove.length < c.witnesses.length) :
    (handleComparisons handle 0 [] true toRemove c).1 = .ok none := by
  obtain ⟨left, _, ran⟩ := remove_witnesses_run toRemove c nodup bounded fewer
  rw [handleComparisons, Act.bind_run, ran]
  rfl

end

section

variable {order : List (Nat × Comparison)}

theorem count_removes (index : Nat)
    (own : ∀ entry ∈ order, ∀ removed, entry.2.removes = some removed → removed = entry.1) :
    List.count index ((order.map Prod.snd).filterMap Comparison.removes) =
      List.count index ((fromSender index order).filterMap Comparison.removes) := by
  induction order with
  | nil => rfl
  | cons entry rest ih =>
  have later := ih fun other member => own other (mem_cons_of_mem _ member)
  rw [map_cons, filterMap_cons]
  cases removes : entry.2.removes with
  | none =>
    by_cases here : entry.1 = index
    · simpa [fromSender, here, filterMap_cons, removes] using later
    · simpa [fromSender, here] using later
  | some removed =>
    have same := own entry mem_cons_self removed removes
    by_cases here : entry.1 = index
    · simpa [fromSender, here, filterMap_cons, removes, count_cons] using later
    · have other : removed ≠ index := fun equal => here (same ▸ equal)
      simpa [fromSender, here, count_cons, other] using later

theorem removes_own {count : Nat} (interleaves : Interleaves count (sent hashing compared h) order)
    (entry : Nat × Comparison) (member : entry ∈ order) (removed : Nat)
    (removes : entry.2.removes = some removed) :
    removed = entry.1 := by
  rw [← append_nil order] at interleaves
  have sentHere := (Interleaving.mem_sends interleaves member).2
  obtain ⟨first, later, shape, task⟩ :=
    task_of hashing compared (fun _ _ => .ok none) h entry.1
  rw [shape] at sentHere
  rcases mem_cons.mp sentHere with same | behind
  · rw [same] at removes
    exact task.removes removed removes
  · rw [task.matched _ behind] at removes
    cases removes

theorem removes_of_sent (index : Nat) :
    ((sent hashing compared h index).filterMap Comparison.removes).length ≤ 1 := by
  obtain ⟨first, later, shape, task⟩ := task_of hashing compared (fun _ _ => .ok none) h index
  have nothing : later.filterMap Comparison.removes = [] := by
    refine filterMap_eq_nil_iff.mpr fun message member => ?_
    rw [task.matched message member]
    rfl
  rw [shape, filterMap_cons]
  split <;> simp [nothing]

theorem removes_once {count : Nat}
    (interleaves : Interleaves count (sent hashing compared h) order) :
    ((order.map Prod.snd).filterMap Comparison.removes).Nodup ∧
      ∀ index ∈ (order.map Prod.snd).filterMap Comparison.removes, index < count := by
  have own := removes_own interleaves
  have bounded : ∀ index ∈ (order.map Prod.snd).filterMap Comparison.removes, index < count := by
    intro index listed
    obtain ⟨message, isMessage, removes⟩ := mem_filterMap.mp listed
    obtain ⟨entry, member, rfl⟩ := mem_map.mp isMessage
    rw [own entry member index removes]
    exact interleaves.senders entry member
  refine ⟨nodup_iff_count_le_one.mpr fun index => ?_, bounded⟩
  by_cases inside : index < count
  · rw [count_removes index own, interleaves.kept index inside]
    exact (count_le_length).trans (removes_of_sent index)
  · rw [count_eq_zero_of_not_mem fun listed => inside (bounded index listed)]
    exact Nat.zero_le 1

end

section

variable (hashing compared handle h)

/-- What is asked of the result: nothing is returned only if a witness has the header
of the primary, and if there is evidence of an attack, the attack is reported unless
the context is done. -/
structure Reported (count : Nat) (evident : Prop) (result : Panics (Option ClientError)) :
    Prop where
  matched : result = .ok none → ∃ index < count, ∃ block,
    fetchToCompare (compared index) h = .block block ∧ block.hash hashing = h.header.hash hashing
  attack : evident → (∀ index < count, kindOf hashing compared handle h index ≠ .context) →
    result = .ok (some .lightClientAttack)

/-- The unfounded conflicts are too few to hide the messages that end the loop. -/
structure Guarded (count : Nat) (evident : Prop) : Prop where
  matched : (∀ index < count, kindOf hashing compared handle h index ≠ .agrees) →
    (∃ index < count, kindOf hashing compared handle h index = .unfounded) → 2 ≤ count →
    (witnessesOf hashing compared handle h count (· == .unfounded)).card <
      (witnessesOf hashing compared handle h count Kind.stopping).card
  attack : evident → (∀ index < count, kindOf hashing compared handle h index ≠ .context) →
    (∀ index < count, kindOf hashing compared handle h index ≠ .fatal) ∧
      (witnessesOf hashing compared handle h count (· == .unfounded)).card <
        (witnessesOf hashing compared handle h count Kind.stopping).card

variable {hashing compared handle h}

variable {count : Nat} {evident : Prop} {c : Client}

theorem order_long {order : List (Nat × Comparison)}
    (interleaves : Interleaves count (sent hashing compared h) order) : count ≤ order.length := by
  rw [Interleaving.length_eq_sum order interleaves.senders]
  have each : ∀ index ∈ Finset.range count, 1 ≤ (fromSender index order).length := by
    intro index member
    obtain ⟨first, later, shape, _⟩ := task_of hashing compared (fun _ _ => .ok none) h index
    rw [interleaves.kept index (Finset.mem_range.mp member), shape]
    exact Nat.le_add_left 1 _
  simpa using Finset.sum_le_sum each

theorem read_result (read rest : List (Nat × Comparison)) (length : read.length = count) :
    (handleComparisons handle count ((read ++ rest).map Prod.snd) false [] c).1 =
      match (read.map Prod.snd).findSome? (stopOf handle) with
      | some outcome => outcome
      | none => (handleComparisons handle 0 [] ((read.map Prod.snd).contains .matched)
          ((read.map Prod.snd).filterMap Comparison.removes) c).1 := by
  have run := handle_comparisons_run handle (read.map Prod.snd) (rest.map Prod.snd) false [] c
  rw [length_map, length, ← map_append] at run
  rw [run]
  cases (read.map Prod.snd).findSome? (stopOf handle) with
  | some outcome => rfl
  | none => simp

theorem agreeing_of_matched (guarded : Guarded hashing compared handle h count evident)
    {read rest : List (Nat × Comparison)}
    (interleaves : Interleaves count (sent hashing compared h) (read ++ rest))
    (length : read.length = count)
    (passed : (read.map Prod.snd).findSome? (stopOf handle) = none)
    (few : (witnessesOf hashing compared handle h count Kind.stopping).card ≤
      (witnessesOf hashing compared handle h count (· == .unfounded)).card)
    {index : Nat} (member : (index, Comparison.matched) ∈ read) :
    ∃ index < count, ∃ block, fetchToCompare (compared index) h = .block block ∧
      block.hash hashing = h.header.hash hashing := by
  by_contra nobody
  have noneAgrees : ∀ index < count, kindOf hashing compared handle h index ≠ .agrees :=
    fun index bounded agrees => nobody ⟨index, bounded, (agrees_iff index).mp agrees⟩
  obtain ⟨bounded, sentHere⟩ := Interleaving.mem_sends interleaves member
  obtain ⟨first, later, shape, task⟩ := task_of hashing compared handle h index
  rw [shape] at sentHere
  have passing := unheard interleaves passed member
  rcases task.agreeing passing sentHere with agrees | unfounded
  · exact noneAgrees index bounded agrees
  · -- Its conflict was read before, so there are two witnesses at least.
    have conflict := Interleaving.first_read interleaves member shape
    have apart : (index, first) ≠ (index, Comparison.matched) := by
      simpa using (task.doubled unfounded).1
    have two : 2 ≤ read.length := by
      match read, conflict, member with
      | [only], conflict, member =>
        exact absurd ((mem_singleton.mp conflict).trans (mem_singleton.mp member).symm) apart
      | _ :: _ :: _, _, _ => exact Nat.le_add_left 2 _
    have more := guarded.matched noneAgrees ⟨index, bounded, unfounded⟩ (length ▸ two)
    omega

theorem reported_of_guarded (guarded : Guarded hashing compared handle h count evident)
    (attackOnly : ∀ block index error, handle block index = .ok (some error) →
      error = .lightClientAttack)
    (order : List (Nat × Comparison))
    (interleaves : Interleaves count (sent hashing compared h) order) :
    Reported hashing compared handle h count evident
      (handleComparisons handle count (order.map Prod.snd) false [] c).1 := by
  obtain ⟨read, rest, rfl, length⟩ : ∃ read rest, order = read ++ rest ∧ read.length = count :=
    ⟨order.take count, order.drop count, (take_append_drop _ _).symm,
      length_take_of_le (order_long interleaves)⟩
  have result := @read_result handle count c read rest length
  cases found : (read.map Prod.snd).findSome? (stopOf handle) with
  | some outcome =>
    rw [found] at result
    obtain ⟨index, bounded, first, later, task, stopping, stops⟩ := stopped_by interleaves found
    obtain ⟨something, founded⟩ := task.outcome stopping stops
    constructor
    · intro nothing
      exact absurd (result.symm.trans nothing) something
    · intro isEvident noContext
      have noFatal := (guarded.attack isEvident noContext).1
      obtain ⟨block, error, handled, same⟩ :=
        founded (noContext index bounded) (noFatal index bounded)
      rw [result, same, attackOnly block index error handled]
  | none =>
    rw [found] at result
    have few := stopping_le_unfounded interleaves length found
    constructor
    · intro nothing
      have matched := finish_matched (result.symm.trans nothing)
      obtain ⟨⟨index, _⟩, member, rfl⟩ :=
        mem_map.mp (by simpa using matched : Comparison.matched ∈ read.map Prod.snd)
      exact agreeing_of_matched guarded interleaves length found few member
    · intro isEvident noContext
      have more := (guarded.attack isEvident noContext).2
      omega

variable (hashing compared handle h)

def passing (count : Nat) : List Nat :=
  (List.range count).filter fun index => !(kindOf hashing compared handle h index).stopping

variable {hashing compared handle h}

theorem passing_length {senders : List Nat}
    (perm : senders.Perm (passing hashing compared handle h count)) :
    (inTurns (sent hashing compared h) senders).length =
      (witnessesOf hashing compared handle h count fun kind => !kind.stopping).card +
        (witnessesOf hashing compared handle h count (· == .unfounded)).card := by
  have nodup : senders.Nodup := perm.nodup_iff.mpr (nodup_range.filter _)
  have listed : ∀ index, index ∈ senders ↔
      index < count ∧ (!(kindOf hashing compared handle h index).stopping) = true := by
    intro index
    rw [perm.mem_iff, passing, mem_filter, mem_range]
  have bounded : ∀ entry ∈ inTurns (sent hashing compared h) senders, entry.1 < count := by
    intro entry member
    obtain ⟨index, isSender, sentHere⟩ := mem_flatMap.mp member
    obtain ⟨message, _, rfl⟩ := mem_map.mp sentHere
    exact ((listed index).mp isSender).1
  rw [← passing_messages, Interleaving.length_eq_sum _ bounded, witnessesOf, Finset.sum_filter]
  refine Finset.sum_congr rfl fun index member => ?_
  rw [Interleaving.from_sender_in_turns _ _ nodup]
  by_cases isSender : index ∈ senders
  · rw [if_pos isSender, if_pos ((listed index).mp isSender).2]
  · rw [if_neg isSender, if_neg fun passes =>
      isSender ((listed index).mpr ⟨Finset.mem_range.mp member, passes⟩)]
    rfl

/-- If these have enough to send, they alone may be read, in any order among them. -/
theorem passing_order {senders : List Nat}
    (perm : senders.Perm (passing hashing compared handle h count))
    (enough : (witnessesOf hashing compared handle h count Kind.stopping).card ≤
      (witnessesOf hashing compared handle h count (· == .unfounded)).card) :
    ∃ read rest, read = (inTurns (sent hashing compared h) senders).take count ∧
      read.length = count ∧ Interleaves count (sent hashing compared h) (read ++ rest) ∧
      (read.map Prod.snd).findSome? (stopOf handle) = none := by
  have long : count ≤ (inTurns (sent hashing compared h) senders).length := by
    have parts := @passing_and_stopping hashing compared handle h count
    rw [passing_length perm]
    omega
  let others := (List.range count).filter
    fun index => (kindOf hashing compared handle h index).stopping
  have all : (senders ++ others).Perm (List.range count) := by
    refine (perm.append_right others).trans (perm_append_comm.trans ?_)
    simpa [passing] using filter_append_perm
      (fun index => (kindOf hashing compared handle h index).stopping) (List.range count)
  refine ⟨_, (inTurns (sent hashing compared h) senders).drop count ++
    inTurns (sent hashing compared h) others, rfl, length_take_of_le long, ?_, ?_⟩
  · rw [← append_assoc, take_append_drop, inTurns, inTurns, ← flatMap_append]
    exact Interleaving.interleaves_in_turns count _ _ all
  · refine findSome?_eq_none_iff.mpr fun message listed => ?_
    obtain ⟨entry, member, rfl⟩ := mem_map.mp listed
    obtain ⟨index, isSender, sentHere⟩ := mem_flatMap.mp (mem_of_mem_take member)
    obtain ⟨message, isMessage, rfl⟩ := mem_map.mp sentHere
    have passes := (mem_filter.mp (perm.subset isSender)).2
    obtain ⟨first, later, shape, task⟩ := task_of hashing compared handle h index
    rw [shape] at isMessage
    rcases mem_cons.mp isMessage with rfl | behind
    · exact task.passes (by simpa using passes)
    · simp only [task.matched _ behind]
      rfl

section

variable (total : c.witnesses.length = count)
  (all : ∀ order, Interleaves count (sent hashing compared h) order →
    Reported hashing compared handle h count evident
      (handleComparisons handle count (order.map Prod.snd) false [] c).1)

include total all

theorem unfounded_few
    (noneAgrees : ∀ index < count, kindOf hashing compared handle h index ≠ .agrees) {index : Nat}
    (bounded : index < count) (unfounded : kindOf hashing compared handle h index = .unfounded)
    (two : 2 ≤ count) :
    (witnessesOf hashing compared handle h count (· == .unfounded)).card <
      (witnessesOf hashing compared handle h count Kind.stopping).card := by
  by_contra notLess
  -- Let the unfounded conflict and the match that follows it be the first two messages.
  have member : index ∈ passing hashing compared handle h count := by
    rw [passing, mem_filter, mem_range, unfounded]
    exact ⟨bounded, rfl⟩
  obtain ⟨read, rest, isRead, length, interleaves, passed⟩ := passing_order
    (perm_cons_erase member).symm (Nat.not_lt.mp notLess)
  obtain ⟨first, later, shape, task⟩ := task_of hashing compared handle h index
  have matched : Comparison.matched ∈ read.map Prod.snd := by
    obtain ⟨more, enough⟩ : ∃ more, count = more + 2 := ⟨count - 2, by omega⟩
    rw [isRead, inTurns, flatMap_cons, shape, (task.doubled unfounded).2, enough]
    simp
  have result := @read_result handle count c read rest length
  have removed := removes_once interleaves
  rw [map_append, filterMap_append] at removed
  have fewer : ((read.map Prod.snd).filterMap Comparison.removes).length < count := by
    have shorter := length_filterMap_lt_length_iff_exists.mpr
      ⟨Comparison.matched, matched, (rfl : Comparison.removes .matched = none)⟩
    rw [length_map, length] at shorter
    exact shorter
  rw [passed, contains_iff_mem.mpr matched, finish_ok _ c
    (removed.1.sublist (sublist_append_left _ _))
    (fun other listed => total ▸ removed.2 other (mem_append_left _ listed))
    (total ▸ fewer)] at result
  obtain ⟨agreeing, inside, agrees⟩ := (all _ interleaves).matched result
  exact noneAgrees agreeing inside ((agrees_iff agreeing).mpr agrees)

theorem guarded_of_reported : Guarded hashing compared handle h count evident := by
  constructor
  · rintro noneAgrees ⟨index, bounded, unfounded⟩ two
    exact unfounded_few total all noneAgrees bounded unfounded two
  · intro isEvident noContext
    constructor
    · intro index bounded isFatal
      -- Let the fatal conflict be read first.
      have perm := (perm_cons_erase (mem_range.mpr bounded)).symm
      have interleaves := Interleaving.interleaves_in_turns count (sent hashing compared h) _ perm
      obtain ⟨first, later, shape, task⟩ := task_of hashing compared handle h index
      obtain ⟨text, stops⟩ := task.fatal isFatal
      have attack := (all _ interleaves).attack isEvident noContext
      obtain ⟨behind, order⟩ : ∃ behind, (inTurns (sent hashing compared h)
          (index :: (List.range count).erase index)).map Prod.snd = first :: behind := by
        rw [inTurns, flatMap_cons, shape]
        exact ⟨_, rfl⟩
      generalize inTurns (sent hashing compared h) (index :: (List.range count).erase index) =
        messages at interleaves attack order
      obtain ⟨more, rfl⟩ : ∃ more, count = more + 1 := ⟨count - 1, by omega⟩
      have result := @read_result handle (more + 1) c _ (messages.drop (more + 1))
        (length_take_of_le (order_long interleaves))
      rw [take_append_drop, map_take, order, take_succ_cons, findSome?_cons,
        stops, ← order, attack] at result
      cases result
    · by_contra notLess
      obtain ⟨read, rest, _, length, interleaves, passed⟩ := passing_order (List.Perm.refl _)
        (Nat.not_lt.mp notLess)
      have result := @read_result handle count c read rest length
      rw [passed] at result
      exact finish_not_attack _ _ c
        (result.symm.trans ((all _ interleaves).attack isEvident noContext))

end

end

end

section

variable (env : Env) (fuel : Nat) (replies : Replies) (primaryTrace : List LightBlock) (now : Time)
  (c : Client)

def handled (block : LightBlock) (index : Nat) : Panics (Option ClientError) :=
  (handleConflictingHeaders env (replies.handled index) fuel primaryTrace block index now c).1

/-- A witness returned a conflicting block, and the examination against the trace of
the primary verified it. -/
def Evident (h : SignedHeader) : Prop :=
  ∃ index < c.witnesses.length, ∃ block,
    (fetchToCompare (replies.compared index) h = .laterBelow block ∨
      fetchToCompare (replies.compared index) h = .block block ∧
        block.hash env.hashing ≠ h.header.hash env.hashing) ∧
    ∃ witness witnessTrace primaryBlock, c.witnesses[index]? = some witness ∧
      (examineConflictingHeaderAgainstTrace env (replies.handled index) fuel primaryTrace block
        witness now c).1 = .ok (.ok (witnessTrace, primaryBlock))

variable {env fuel replies primaryTrace now c}

theorem handled_attack (block : LightBlock) (index : Nat) (error : ClientError)
    (found : handled env fuel replies primaryTrace now c block index = .ok (some error)) :
    error = .lightClientAttack := by
  have ran := Prod.fst_eq_iff.mp found
  rw [handleConflictingHeaders, Act.get_bind] at ran
  cases here : c.witnesses[index]? with
  | none =>
    rw [here] at ran
    cases ran
  | some witness =>
  simp only [here] at ran
  obtain ⟨examined, between, _, ran⟩ := Act.bind_ok ran
  rcases examined with failure | ⟨witnessTrace, primaryBlock⟩
  · cases ran
  obtain ⟨_, reported, _, ran⟩ := Act.bind_ok ran
  obtain ⟨countered, after, _, ran⟩ := Act.bind_ok ran
  rcases countered with failure | ⟨trace, witnessBlock⟩
  · cases ran
    rfl
  obtain ⟨_, final, _, ran⟩ := Act.bind_ok ran
  cases ran
  rfl

end

section

variable (env : Env) (fuel : Nat) (replies : Replies) (first last : LightBlock)
  (between : List LightBlock) (now : Time) (c : Client)

/-- In every order in which the messages may arrive the result is as it has to be,
exactly if the conflicts that come to nothing cannot hide the others. -/
theorem divergence_reported_iff :
    (∀ order, Interleaves c.witnesses.length (sent env.hashing replies.compared last.signedHeader)
        order →
      Reported env.hashing replies.compared
        (handled env fuel replies (first :: (between ++ [last])) now c) last.signedHeader
        c.witnesses.length
        (Evident env fuel replies (first :: (between ++ [last])) now c last.signedHeader)
        (detectDivergenceIn env fuel replies (first :: (between ++ [last])) now order c).1) ↔
    Guarded env.hashing replies.compared
      (handled env fuel replies (first :: (between ++ [last])) now c) last.signedHeader
      c.witnesses.length
      (Evident env fuel replies (first :: (between ++ [last])) now c last.signedHeader) := by
  have long : ¬ (first :: (between ++ [last])).length < 2 := by simp
  by_cases nobody : c.witnesses.length = 0
  · have never : ¬ Evident env fuel replies (first :: (between ++ [last])) now c
        last.signedHeader := by
      rintro ⟨index, inside, _⟩
      omega
    refine iff_of_true (fun order _ => ⟨fun nothing => ?_, fun evident => absurd evident never⟩)
      ⟨fun _ _ two => by omega, fun evident => absurd evident never⟩
    rw [detectDivergenceIn, if_neg long, Act.get_bind, if_pos nobody] at nothing
    cases nothing
  · have run : ∀ order, detectDivergenceIn env fuel replies (first :: (between ++ [last])) now order
        c = handleComparisons (handled env fuel replies (first :: (between ++ [last])) now c)
          c.witnesses.length (order.map Prod.snd) false [] c := by
      intro order
      rw [detectDivergenceIn, if_neg long, Act.get_bind, if_neg nobody]
      rfl
    simp only [run]
    exact ⟨guarded_of_reported rfl, fun guarded =>
      reported_of_guarded guarded fun block index error => handled_attack block index error⟩

end

section

def steadyBlock (height : Int) (time : Time) (lastBlockID : BlockID) : LightBlock :=
  linkedBlock { linkedHeader height time lastBlockID with
    nextValidatorsHash := soleSet.hash checksum }

def baseBlock : LightBlock := steadyBlock 1 100 .zero

def primaryBlock : LightBlock := steadyBlock 2 200 baseBlock.commit.blockID

/-- The first witness has another block and does not answer when it is examined. The
second witness has a third block and can verify it. -/
def hidingReplies : Replies where
  compared index _ _ :=
    .ok (steadyBlock 2 (if index = 0 then 170 else 150) baseBlock.commit.blockID)
  handled index :=
    { lightBlock := fun _ _ _ => if index = 0 then .error .noResponse else .ok baseBlock
      responses := fun _ _ => []
      comparisons := fun _ _ => []
      conflict := fun _ _ _ _ => none }

def hidingClient : Client := Client.restore 0 [1, 2] ⟨[baseBlock], 1⟩

/-- Both messages of the first witness are read. -/
def hidingOrder : List (Nat × Comparison) :=
  inTurns (sent checksum hidingReplies.compared primaryBlock.signedHeader) [0, 1]

theorem attack_is_hidden :
    Interleaves hidingClient.witnesses.length
        (sent checksum hidingReplies.compared primaryBlock.signedHeader) hidingOrder ∧
      (detectDivergenceIn linkedEnv 5 hidingReplies [baseBlock, primaryBlock] 300 hidingOrder
        hidingClient).1 = .ok none ∧
      Evident linkedEnv 5 hidingReplies [baseBlock, primaryBlock] 300 hidingClient
        primaryBlock.signedHeader ∧
      ¬ Reported checksum hidingReplies.compared
        (handled linkedEnv 5 hidingReplies [baseBlock, primaryBlock] 300 hidingClient)
        primaryBlock.signedHeader 2 True (.ok none) := by
  refine ⟨Interleaving.interleaves_in_turns 2 _ [0, 1] (List.Perm.refl _), by decide +kernel,
    ?_, ?_⟩
  · exact ⟨1, by decide, steadyBlock 2 150 baseBlock.commit.blockID,
      .inr ⟨rfl, by decide +kernel⟩, 2, [baseBlock, steadyBlock 2 150 baseBlock.commit.blockID],
      primaryBlock, rfl, by decide +kernel⟩
  · intro reported
    obtain ⟨index, bounded, block, fetched, same⟩ := reported.matched rfl
    have found :
      block = steadyBlock 2 (if index = 0 then 170 else 150) baseBlock.commit.blockID := by
      cases fetched
      rfl
    subst found
    by_cases isFirst : index = 0
    · rw [if_pos isFirst] at same
      exact absurd same (by decide +kernel)
    · rw [if_neg isFirst] at same
      exact absurd same (by decide +kernel)

end

end Tendermint.Light
