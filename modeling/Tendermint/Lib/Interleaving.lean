import Mathlib

/-!
Messages of several senders on one channel. Each sender sends its messages one
after the other and nothing is said about the order between senders. A reader
that stops early has read a beginning of the order: of every sender a beginning
of what it sends.
-/

namespace Tendermint.Interleaving

open List

variable {α : Type}

def fromSender (sender : Nat) (order : List (Nat × α)) : List α :=
  (order.filter fun entry => entry.1 == sender).map Prod.snd

structure Interleaves (count : Nat) (sends : Nat → List α) (order : List (Nat × α)) : Prop where
  senders : ∀ entry ∈ order, entry.1 < count
  kept : ∀ sender < count, fromSender sender order = sends sender

def inTurns (sends : Nat → List α) (senders : List Nat) : List (Nat × α) :=
  senders.flatMap fun sender => (sends sender).map (Prod.mk sender)

theorem from_sender_append (sender : Nat) (first second : List (Nat × α)) :
    fromSender sender (first ++ second) = fromSender sender first ++ fromSender sender second := by
  simp [fromSender]

theorem from_sender_turn (sender other : Nat) (messages : List α) :
    fromSender sender (messages.map (Prod.mk other)) = if other = sender then messages else [] := by
  by_cases same : other = sender
  · subst same
    simp [fromSender, filter_map, Function.comp_def]
  · simp [fromSender, filter_map, Function.comp_def, same]

theorem from_sender_in_turns (sends : Nat → List α) (sender : Nat) {senders : List Nat}
    (nodup : senders.Nodup) :
    fromSender sender (inTurns sends senders) = if sender ∈ senders then sends sender else [] := by
  induction senders with
  | nil => rfl
  | cons first rest ih =>
  obtain ⟨fresh, nodup⟩ := nodup_cons.mp nodup
  have turn : inTurns sends (first :: rest) =
      (sends first).map (Prod.mk first) ++ inTurns sends rest := flatMap_cons
  rw [turn, from_sender_append, from_sender_turn, ih nodup]
  by_cases here : first = sender
  · subst here
    simp [fresh]
  · simp [here, Ne.symm here]

theorem interleaves_in_turns (count : Nat) (sends : Nat → List α) (senders : List Nat)
    (perm : senders.Perm (List.range count)) :
    Interleaves count sends (inTurns sends senders) := by
  constructor
  · intro entry member
    obtain ⟨sender, listed, sent⟩ := mem_flatMap.mp member
    obtain ⟨message, _, rfl⟩ := mem_map.mp sent
    exact mem_range.mp (perm.subset listed)
  · intro sender bounded
    rw [from_sender_in_turns sends sender (perm.nodup_iff.mpr nodup_range),
      if_pos (perm.symm.subset (mem_range.mpr bounded))]

section Reading

variable {count : Nat} {sends : Nat → List α} {read rest : List (Nat × α)}

theorem from_sender_read (interleaves : Interleaves count sends (read ++ rest)) (sender : Nat)
    (bounded : sender < count) : fromSender sender read <+: sends sender := by
  rw [← interleaves.kept sender bounded, from_sender_append]
  exact prefix_append _ _

theorem mem_from_sender (sender : Nat) (message : α) (order : List (Nat × α)) :
    message ∈ fromSender sender order ↔ (sender, message) ∈ order := by
  simp [fromSender]

theorem mem_sends (interleaves : Interleaves count sends (read ++ rest)) {sender : Nat}
    {message : α} (member : (sender, message) ∈ read) :
    sender < count ∧ message ∈ sends sender := by
  have bounded := interleaves.senders _ (mem_append_left rest member)
  exact ⟨bounded, (from_sender_read interleaves sender bounded).subset
    ((mem_from_sender sender message read).mpr member)⟩

/-- Whoever has been heard of was heard from the beginning. -/
theorem first_read (interleaves : Interleaves count sends (read ++ rest)) {sender : Nat}
    {message first : α} {later : List α} (member : (sender, message) ∈ read)
    (sent : sends sender = first :: later) : (sender, first) ∈ read := by
  have bounded := (mem_sends interleaves member).1
  have heard := from_sender_read interleaves sender bounded
  rw [sent] at heard
  cases read' : fromSender sender read with
  | nil =>
    have here := (mem_from_sender sender message read).mpr member
    rw [read'] at here
    cases here
  | cons head tail =>
    rw [read'] at heard
    have same := (cons_prefix_cons.mp heard).1
    rw [← mem_from_sender, read', ← same]
    exact mem_cons_self

theorem length_eq_sum (order : List (Nat × α)) (bounded : ∀ entry ∈ order, entry.1 < count) :
    order.length = ∑ sender ∈ Finset.range count, (fromSender sender order).length := by
  induction order with
  | nil => simp [fromSender]
  | cons entry rest ih =>
  have one : ∀ sender, (fromSender sender (entry :: rest)).length =
      (if entry.1 = sender then 1 else 0) + (fromSender sender rest).length := by
    intro sender
    by_cases here : entry.1 = sender
    · simp [fromSender, here, Nat.add_comm]
    · simp [fromSender, here]
  have inside := Finset.mem_range.mpr (bounded entry mem_cons_self)
  rw [Finset.sum_congr rfl fun sender _ => one sender, Finset.sum_add_distrib,
    Finset.sum_ite_eq, if_pos inside,
    ← ih fun other member => bounded other (mem_cons_of_mem _ member), length_cons,
    Nat.add_comm]

/-- No more is read than the senders heard of have to send. -/
theorem read_length_le (interleaves : Interleaves count sends (read ++ rest)) (heard : Nat → Prop)
    [DecidablePred heard] (only : ∀ entry ∈ read, heard entry.1) :
    read.length ≤ ∑ sender ∈ (Finset.range count).filter heard, (sends sender).length := by
  rw [length_eq_sum read fun entry member =>
    interleaves.senders entry (mem_append_left rest member), Finset.sum_filter]
  refine Finset.sum_le_sum fun sender member => ?_
  by_cases known : heard sender
  · rw [if_pos known]
    exact (from_sender_read interleaves sender (Finset.mem_range.mp member)).length_le
  · have silent : fromSender sender read = [] := by
      refine eq_nil_iff_forall_not_mem.mpr fun message sent => known ?_
      exact only _ ((mem_from_sender sender message read).mp sent)
    rw [if_neg known, silent]
    rfl

end Reading

end Tendermint.Interleaving
