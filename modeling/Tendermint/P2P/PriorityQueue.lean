import Mathlib

/-!
internal/p2p/pqueue.go: the books of the priority-queue scheduler. The queue is the array of
its heap, and container/heap is taken as documented. The envelopes lie in memory, so their
sizes stay exact. Metrics are left out.
-/

namespace Tendermint.P2P

open List

structure ChannelDescriptor where
  id : Nat
  priority : Nat

/-- An envelope in the queue, as far as the books read it. -/
structure PqEnvelope where
  priority : Nat
  size : Nat
  deriving DecidableEq

/-- container/heap on the array. `Pop` is `Remove` at the root. -/
structure PqHeap where
  push : List PqEnvelope → PqEnvelope → List PqEnvelope
  remove : List PqEnvelope → Nat → List PqEnvelope
  push_perm : ∀ queue env, (push queue env).Perm (env :: queue)
  remove_perm : ∀ queue index env, queue[index]? = some env → (env :: remove queue index).Perm queue

structure PqScheduler where
  size : Int
  sizes : Nat → Int
  pq : List PqEnvelope
  chDescs : List ChannelDescriptor
  rising : (chDescs.map ChannelDescriptor.priority).Pairwise (· ≤ ·)
  capacity : Nat

namespace PqScheduler

/-- The descriptors are in an order that `sort.Slice` makes. -/
def new (chDescs : List ChannelDescriptor)
    (rising : (chDescs.map ChannelDescriptor.priority).Pairwise (· ≤ ·)) (capacity : Nat) :
    PqScheduler :=
  ⟨0, fun _ => 0, [], chDescs, rising, capacity⟩

def priorities (s : PqScheduler) : List Nat := s.chDescs.map ChannelDescriptor.priority

/-- The last descriptor of a channel counts; another channel has the zero value of the map. -/
def chPriorities (s : PqScheduler) (channelID : Nat) : Nat :=
  (s.chDescs.reverse.find? (·.id = channelID)).elim 0 ChannelDescriptor.priority

/-- The loop over the descriptors, which ends at the first one of a lower priority. -/
def adjust (priority : Nat) (change : Int) (priorities : List Nat) (sizes : Nat → Int) :
    Nat → Int :=
  (priorities.takeWhile (priority ≤ ·)).foldl
    (fun sizes each => Function.update sizes each (sizes each + change)) sizes

variable (heap : PqHeap)

def push (s : PqScheduler) (env : PqEnvelope) : PqScheduler :=
  { s with
    pq := heap.push s.pq env
    size := s.size + env.size
    sizes := adjust env.priority env.size s.priorities s.sizes }

/-- The loop that drops envelopes; the first `left` places are still to be looked at. -/
def dropLower (env : PqEnvelope) (capacity : Nat) (tmpSize : Int) (left : Nat)
    (queue : List PqEnvelope) : List PqEnvelope :=
  match left with
  | 0 => queue
  | i + 1 =>
    match found : queue[i]? with
    | none => queue
    | some tmp =>
      if tmp.priority < env.priority then
        if tmpSize + env.size ≤ capacity then queue
        else dropLower env capacity (tmpSize - tmp.size) (queue.length - 1) (heap.remove queue i)
      else dropLower env capacity tmpSize i queue
termination_by (queue.length, left)
decreasing_by
  · have fewer := (heap.remove_perm queue i tmp found).length_eq
    rw [length_cons] at fewer
    exact .left _ _ (by omega)
  · exact .right _ (by omega)

def receive (s : PqScheduler) (channelID size : Nat) : PqScheduler :=
  let env : PqEnvelope := ⟨s.chPriorities channelID, size⟩
  if s.size + size ≤ s.capacity then s.push heap env
  else if size ≤ s.sizes env.priority then
    { s with pq := dropLower heap env s.capacity s.size s.pq.length s.pq }.push heap env
  else s

def pop (s : PqScheduler) : PqScheduler :=
  match s.pq[0]? with
  | none => s
  | some env =>
    { s with
      pq := heap.remove s.pq 0
      size := s.size - env.size
      sizes := adjust env.priority (-env.size) s.priorities s.sizes }

def total (queue : List PqEnvelope) : Int := (queue.map fun env => (env.size : Int)).sum

def upTo (priority : Nat) (queue : List PqEnvelope) : Int :=
  total (queue.filter (·.priority ≤ priority))

structure Accounted (s : PqScheduler) : Prop where
  size_eq : s.size = total s.pq
  bounded : s.size ≤ s.capacity
  sizes_eq : ∀ priority ∈ s.priorities, s.sizes priority = upTo priority s.pq
  known : ∀ env ∈ s.pq, env.priority ∈ s.priorities

/-- The loop over the descriptors reaches each priority from this one on, and once. -/
def Reached (s : PqScheduler) (env : PqEnvelope) : Prop :=
  env.size = 0 ∨ (∀ priority ∈ s.priorities, env.priority ≤ priority) ∧ s.priorities.Nodup

variable {heap} {s : PqScheduler} {env : PqEnvelope}

theorem adjust_apply (priority : Nat) (change : Int) (priorities : List Nat) (sizes : Nat → Int)
    (each : Nat) : adjust priority change priorities sizes each =
      sizes each + (priorities.takeWhile (priority ≤ ·)).count each * change := by
  unfold adjust
  induction priorities.takeWhile (priority ≤ ·) generalizing sizes with
  | nil => simp
  | cons first rest ih =>
    rw [foldl_cons, ih]
    by_cases same : first = each
    · subst same
      rw [Function.update_self, count_cons_self]
      push_cast
      linarith
    · rw [Function.update_of_ne (Ne.symm same), count_cons_of_ne same]

section Sums

variable {rest queue : List PqEnvelope} (perm : (env :: rest).Perm queue)

include perm

theorem total_eq_add : total queue = total rest + env.size := by
  rw [total, ← (perm.map _).sum_eq]
  simp [total, add_comm]

theorem upTo_eq_add (priority : Nat) : upTo priority queue =
    upTo priority rest + if env.priority ≤ priority then (env.size : Int) else 0 := by
  rw [upTo, total, ← ((perm.filter _).map _).sum_eq]
  by_cases within : env.priority ≤ priority <;> simp [upTo, total, within, add_comm]

end Sums

theorem reached_iff (known : env.priority ∈ s.priorities) : s.Reached env ↔
    ∀ each ∈ s.priorities, ((s.priorities.takeWhile (env.priority ≤ ·)).count each : Int) *
      env.size = if env.priority ≤ each then (env.size : Int) else 0 := by
  constructor
  · rintro (empty | ⟨lowest, distinct⟩) each member
    · simp [empty]
    · rw [takeWhile_eq_self_iff.mpr (by simpa using lowest),
        count_eq_one_of_mem distinct member, if_pos (lowest each member)]
      simp
  · intro exactly
    by_cases empty : env.size = 0
    · exact .inl empty
    have once : ∀ each ∈ s.priorities, env.priority ≤ each →
        (s.priorities.takeWhile (env.priority ≤ ·)).count each = 1 := by
      intro each member above
      have same := exactly each member
      rw [if_pos above] at same
      have one := mul_right_cancel₀ (Int.natCast_ne_zero.mpr empty) (same.trans (one_mul _).symm)
      exact_mod_cast one
    have lowest : ∀ each ∈ s.priorities, env.priority ≤ each := by
      have own := once _ known (Nat.le_refl _)
      have rising : s.priorities.Pairwise (· ≤ ·) := s.rising
      rcases order : s.priorities with _ | ⟨first, rest⟩
      · simp
      rw [order] at own rising
      -- if the loop ends at the first descriptor, it does not reach the envelope's own one
      by_cases above : env.priority ≤ first
      · exact forall_mem_cons.mpr
          ⟨above, fun each later => above.trans (rel_of_pairwise_cons rising later)⟩
      · simp [above] at own
    refine .inr ⟨lowest, nodup_iff_count_eq_one.mpr fun each member => ?_⟩
    have single := once each member (lowest each member)
    rwa [takeWhile_eq_self_iff.mpr (by simpa using lowest)] at single

theorem push_accounted_iff (accounted : s.Accounted) (known : env.priority ∈ s.priorities)
    (room : s.size + env.size ≤ s.capacity) : (s.push heap env).Accounted ↔ s.Reached env := by
  have perm := (heap.push_perm s.pq env).symm
  rw [reached_iff known]
  constructor
  · intro after each member
    have now := after.sizes_eq each member
    simp only [push, adjust_apply, upTo_eq_add perm, accounted.sizes_eq each member] at now
    linarith
  · intro reached
    refine ⟨?_, room, fun each member => ?_, fun other member => ?_⟩
    · simp only [push, total_eq_add perm, accounted.size_eq]
    · simp only [push, adjust_apply, upTo_eq_add perm, accounted.sizes_eq each member,
        reached each member]
    · rcases mem_cons.mp (perm.symm.subset member) with rfl | old
      · exact known
      · exact accounted.known other old

theorem pop_accounted_iff (accounted : s.Accounted) (top : s.pq[0]? = some env) :
    (s.pop heap).Accounted ↔ s.Reached env := by
  have perm := heap.remove_perm s.pq 0 env top
  rw [reached_iff (accounted.known env (mem_of_getElem? top)), pop, top]
  constructor
  · intro after each member
    have now := after.sizes_eq each member
    simp only [adjust_apply, accounted.sizes_eq each member, upTo_eq_add perm] at now
    linarith
  · intro reached
    refine ⟨?_, ?_, fun each member => ?_, fun other member => ?_⟩
    · simp only [accounted.size_eq, total_eq_add perm, add_sub_cancel_right]
    · have before := accounted.bounded
      show s.size - env.size ≤ s.capacity
      omega
    · have same := reached each member
      simp only [adjust_apply, accounted.sizes_eq each member, upTo_eq_add perm]
      linarith
    · exact accounted.known other (perm.subset (mem_cons_of_mem _ member))

theorem ch_priorities_mem {channelID : Nat} (known : ∃ desc ∈ s.chDescs, desc.id = channelID) :
    s.chPriorities channelID ∈ s.priorities := by
  unfold chPriorities
  cases found : s.chDescs.reverse.find? (·.id = channelID) with
  | none =>
    obtain ⟨desc, member, same⟩ := known
    have other := find?_eq_none.mp found desc (mem_reverse.mpr member)
    simp [same] at other
  | some desc =>
    exact mem_map_of_mem (mem_reverse.mp (mem_of_find?_eq_some found))

theorem drop_lower_perm (heap : PqHeap) (env : PqEnvelope) (capacity : Nat) (tmpSize : Int)
    (left : Nat) (queue : List PqEnvelope) :
    ∃ dropped : List PqEnvelope, (∀ other ∈ dropped, other.priority < env.priority) ∧
      (dropped ++ dropLower heap env capacity tmpSize left queue).Perm queue := by
  fun_induction dropLower heap env capacity tmpSize left queue with
  | case4 tmpSize queue i tmp found lower full ih =>
    obtain ⟨dropped, below, perm⟩ := ih
    exact ⟨tmp :: dropped, forall_mem_cons.mpr ⟨lower, below⟩,
      (perm.cons tmp).trans (heap.remove_perm queue i tmp found)⟩
  | case5 tmpSize queue i tmp found same ih => exact ih
  | _ => exact ⟨[], by simp, .refl _⟩

inductive Step where
  | receive (channelID size : Nat)
  | pop

def step (heap : PqHeap) (s : PqScheduler) : Step → PqScheduler
  | .receive channelID size => s.receive heap channelID size
  | .pop => s.pop heap

def Known (s : PqScheduler) : Step → Prop
  | .receive channelID _ => ∃ desc ∈ s.chDescs, desc.id = channelID
  | .pop => True

def Displaces (heap : PqHeap) (s : PqScheduler) : Step → Prop
  | .receive channelID size => s.receive heap channelID size = s ∨
      ∃ dropped : List PqEnvelope,
        (∀ other ∈ dropped, other.priority < s.chPriorities channelID) ∧
        (dropped ++ (s.receive heap channelID size).pq).Perm
          (⟨s.chPriorities channelID, size⟩ :: s.pq)
  | .pop => True

/-- The envelope fits and the loop over the descriptors reaches what it changes, or the
envelope is refused. -/
def Books (s : PqScheduler) : Step → Prop
  | .receive channelID size =>
    if s.size + size ≤ s.capacity then s.Reached ⟨s.chPriorities channelID, size⟩
    else s.sizes (s.chPriorities channelID) < size
  | .pop => ∀ env, s.pq[0]? = some env → s.Reached env

theorem receive_displaces (channelID size : Nat) : s.Displaces heap (.receive channelID size) := by
  unfold Displaces receive
  dsimp only
  split
  · exact .inr ⟨[], by simp, heap.push_perm ..⟩
  split
  · obtain ⟨dropped, below, perm⟩ := drop_lower_perm heap
      ⟨s.chPriorities channelID, size⟩ s.capacity s.size s.pq.length s.pq
    refine .inr ⟨dropped, below, ?_⟩
    exact ((heap.push_perm ..).append_left dropped).trans (perm_middle.trans (perm.cons _))
  · exact .inl rfl

/-- The books stay right exactly under the condition. -/
theorem books_kept_iff (heap : PqHeap) (s : PqScheduler) (accounted : s.Accounted) (event : Step)
    (known : s.Known event) :
    (s.step heap event).Accounted ∧ s.Displaces heap event ↔ s.Books event := by
  cases event with
  | receive channelID size =>
    rw [and_iff_left (receive_displaces channelID size), Books, step, receive]
    split
    · rename_i room
      exact push_accounted_iff accounted (ch_priorities_mem known) room
    rename_i full
    split
    · rename_i enough
      -- the size counts what was dropped
      refine iff_of_false (fun after => full after.bounded) (not_lt.mpr enough)
    · rename_i small
      exact iff_of_true accounted (not_le.mp small)
  | pop =>
    rw [Displaces, and_iff_left trivial, Books, step]
    cases top : s.pq[0]? with
    | none => exact iff_of_true (by rwa [pop, top]) (by simp)
    | some env => simpa using pop_accounted_iff accounted top

def plainHeap : PqHeap where
  push queue env := env :: queue
  remove queue index := queue.eraseIdx index
  push_perm _ _ := .refl _
  remove_perm queue index env found := by
    obtain ⟨inside, rfl⟩ := List.getElem?_eq_some_iff.mp found
    exact getElem_cons_eraseIdx_perm inside

def twoChannels : PqScheduler := new [⟨1, 1⟩, ⟨2, 2⟩] (by decide) 10

theorem two_channels_accounted : twoChannels.Accounted :=
  ⟨rfl, by decide, fun _ _ => rfl, by simp [twoChannels, new]⟩

theorem lowest_priority_booked : (twoChannels.step plainHeap (.receive 1 5)).Accounted :=
  ((books_kept_iff plainHeap twoChannels two_channels_accounted (.receive 1 5)
    ⟨⟨1, 1⟩, by simp [twoChannels, new], rfl⟩).mpr
    (by simp [Books, Reached, twoChannels, new, chPriorities, priorities])).1

/-- The loop ends at the first descriptor. -/
theorem higher_priority_not_booked :
    twoChannels.Accounted ∧ ¬(twoChannels.receive plainHeap 2 5).Accounted := by
  refine ⟨two_channels_accounted, fun after => ?_⟩
  have sizes := after.sizes_eq 2 (by decide)
  exact absurd sizes (by decide)

end PqScheduler

end Tendermint.P2P
