import Tendermint.Lib.Heap
import Tendermint.Lib.Runs
import Tendermint.Light.Backwards

/-!
internal/statesync/block_queue.go and the loops of Reactor.backfill around it: some
fetchers ask peers for light blocks, one verifier checks them from the start height
downwards. Calls of the queue hold its lock, so a run is a sequence of them. The
peers of the blocks and what is stored of a verified block are left out.
-/

namespace Tendermint.StateSync

open Types List
open Merkle (Hashing)

/-- `maxIntHeap`, whose `Less` puts the least height first. -/
def intHeap : Heap.Interface (List Int) where
  less items i j := decide (items.getD i 0 < items.getD j 0)
  swap items i j := (items.set i (items.getD j 0)).set j (items.getD i 0)

def heapPush (items : List Int) (height : Int) : List Int :=
  Heap.up intHeap items.length (items ++ [height]) items.length

def heapPop (items : List Int) : Int × List Int :=
  let last := items.length - 1
  let sunk := (Heap.down intHeap last last (intHeap.swap items 0 last) 0).1
  (sunk.getD last 0, sunk.dropLast)

structure BlockQueue where
  fetchHeight : Int
  verifyHeight : Int
  initialHeight : Int
  stopHeight : Int
  stopTime : Time
  terminal : Option LightBlock
  failed : List Int
  retries : Int
  maxRetries : Int
  pending : Int → Option LightBlock
  /-- The verifier waits for a block. -/
  verifyCh : Bool
  /-- The number of fetchers that wait for a height. -/
  waiters : Nat
  done : Bool

namespace BlockQueue

def new (startHeight stopHeight initialHeight : Int) (stopTime : Time) (maxRetries : Int) :
    BlockQueue where
  fetchHeight := startHeight
  verifyHeight := startHeight
  initialHeight
  stopHeight
  stopTime
  terminal := none
  failed := []
  retries := 0
  maxRetries
  pending := fun _ => none
  verifyCh := false
  waiters := 0
  done := false

def Stops (queue : BlockQueue) (block : LightBlock) : Prop :=
  (block.height ≤ queue.stopHeight ∧ block.time < queue.stopTime) ∨
    block.height = queue.initialHeight

instance (queue : BlockQueue) (block : LightBlock) : Decidable (queue.Stops block) :=
  inferInstanceAs (Decidable (_ ∨ _))

def BelowTerminal (queue : BlockQueue) (height : Int) : Prop :=
  ∃ terminal ∈ queue.terminal, height < terminal.height

instance (queue : BlockQueue) (height : Int) : Decidable (queue.BelowTerminal height) :=
  inferInstanceAs (Decidable (∃ terminal ∈ queue.terminal, height < terminal.height))

def add (queue : BlockQueue) (block : LightBlock) : BlockQueue × Option LightBlock :=
  if queue.done ∨ queue.BelowTerminal block.height then (queue, none)
  else
    let terminal := if queue.Stops block then some block else queue.terminal
    if block.height = queue.verifyHeight ∧ queue.verifyCh then
      ({ queue with verifyCh := false, terminal }, some block)
    else
      ({ queue with
        pending := Function.update queue.pending block.height (some block)
        terminal }, none)

def nextHeight (queue : BlockQueue) : BlockQueue × Option Int :=
  if 0 < queue.failed.length then
    ({ queue with failed := (heapPop queue.failed).2 }, some (heapPop queue.failed).1)
  else if queue.terminal = none ∧ queue.initialHeight ≤ queue.fetchHeight then
    ({ queue with fetchHeight := queue.fetchHeight - 1 }, some queue.fetchHeight)
  else ({ queue with waiters := queue.waiters + 1 }, none)

def verifyNext (queue : BlockQueue) : BlockQueue × Option LightBlock :=
  if queue.done then (queue, none)
  else match queue.pending queue.verifyHeight with
    | some block =>
      ({ queue with pending := Function.update queue.pending queue.verifyHeight none }, some block)
    | none => ({ queue with verifyCh := true }, none)

def retry (queue : BlockQueue) (height : Int) : BlockQueue × Option Int :=
  if queue.done ∨ queue.BelowTerminal height then (queue, none)
  else
    let queue := { queue with retries := queue.retries + 1 }
    if queue.maxRetries ≤ queue.retries then ({ queue with done := true }, none)
    else if 0 < queue.waiters then ({ queue with waiters := queue.waiters - 1 }, some height)
    else ({ queue with failed := heapPush queue.failed height }, none)

def AtTerminal (queue : BlockQueue) : Prop :=
  ∃ terminal ∈ queue.terminal, queue.verifyHeight = terminal.height

instance (queue : BlockQueue) : Decidable queue.AtTerminal :=
  inferInstanceAs (Decidable (∃ terminal ∈ queue.terminal, queue.verifyHeight = terminal.height))

def success (queue : BlockQueue) : Panics BlockQueue :=
  if queue.AtTerminal then
    if queue.done then .error "close of closed channel"
    else .ok { queue with done := true, verifyHeight := queue.verifyHeight - 1 }
  else .ok { queue with verifyHeight := queue.verifyHeight - 1 }

def error (queue : BlockQueue) : Option String :=
  if queue.maxRetries ≤ queue.retries then
    some ("max retries to fetch valid blocks exceeded (" ++ toString queue.maxRetries ++
      "); target height: " ++ toString queue.stopHeight ++ ", height reached: " ++
      toString queue.verifyHeight)
  else none

theorem error_none {queue : BlockQueue} (noError : queue.error = none) :
    queue.retries < queue.maxRetries := by
  unfold error at noError
  split at noError
  · cases noError
  · omega

end BlockQueue

/-! ### The order of the retries -/

theorem swap_perm (items : List Int) {i j : Nat} (first : i < items.length)
    (second : j < items.length) : (intHeap.swap items i j).Perm items := by
  show ((items.set i (items.getD j 0)).set j (items.getD i 0)).Perm items
  rw [getD_eq_getElem _ _ first, getD_eq_getElem _ _ second]
  exact set_set_perm first second

def heapKey (items : List Int) (index : Nat) : Int := items.getD index 0

theorem int_heap_reads : Heap.Reads intHeap length heapKey where
  less _ _ _ := rfl
  sameSize items i j := by simp [intHeap]
  swap items i j other first second := by
    show ((items.set i (items.getD j 0)).set j (items.getD i 0)).getD other 0 =
      items.getD (Equiv.swap i j other) 0
    rw [Equiv.swap_apply_def, getD_eq_getElem?_getD, getElem?_set, getElem?_set, length_set]
    rcases eq_or_ne other j with rfl | notSecond
    · rw [if_pos rfl, if_pos second, if_pos rfl]
      split_ifs with same
      · rw [same]
        rfl
      · rfl
    rw [if_neg notSecond.symm, if_neg notSecond]
    rcases eq_or_ne other i with rfl | notFirst
    · rw [if_pos rfl, if_pos first, if_pos rfl]
      rfl
    · rw [if_neg notFirst.symm, if_neg notFirst, getD_eq_getElem?_getD]

/-- The failed heights as container/heap keeps them. -/
def HeapOrdered (items : List Int) : Prop := Heap.InOrder items.length (heapKey items)

theorem heap_push_perm (items : List Int) (height : Int) :
    (heapPush items height).Perm (height :: items) := by
  refine @Heap.up_keeps _ intHeap (items.length + 1) _ (fun state => state.Perm (height :: items))
    (fun state i j first second perm => ?_) _ (perm_append_singleton height items) _ (by omega)
  have same : state.length = items.length + 1 := perm.length_eq
  exact (swap_perm state (by omega) (by omega)).trans perm

theorem heap_push_ordered {items : List Int} (ordered : HeapOrdered items) (height : Int) :
    HeapOrdered (heapPush items height) := by
  have grown : (heapPush items height).length = items.length + 1 :=
    (heap_push_perm items height).length_eq
  have before : ∀ index, index < items.length →
      heapKey (items ++ [height]) index = heapKey items index := by
    intro index inside
    simp [heapKey, getD_eq_getElem?_getD, getElem?_append_left inside]
  rw [HeapOrdered, grown]
  refine Heap.up_in_order int_heap_reads (by simp) (by omega) le_rfl
    ⟨fun i positive inside notLast => ?_, fun _ child positive inside isChild => ?_⟩
  · have above := Heap.parent_lt positive
    rw [before _ (by omega), before i (by omega)]
    exact ordered i positive (by omega)
  · have above := Heap.parent_lt positive
    omega

/-- The sift leaves the old root behind the heap. -/
theorem sink_spec {items sunk : List Int} {last : Nat} (ordered : HeapOrdered items)
    (size : items.length = last + 1)
    (sinks : (Heap.down intHeap last last (intHeap.swap items 0 last) 0).1 = sunk) :
    sunk.Perm items ∧ heapKey sunk last = heapKey items 0 ∧ Heap.InOrder last (heapKey sunk) := by
  subst sinks
  have swapped : (intHeap.swap items 0 last).Perm items := swap_perm items (by omega) (by omega)
  have moved : ∀ index, heapKey (intHeap.swap items 0 last) index =
      heapKey items (Equiv.swap 0 last index) :=
    fun index => int_heap_reads.swap items 0 last index (by omega) (by omega)
  have kept := @Heap.down_keeps _ intHeap last _
    (fun state => state.Perm items ∧ heapKey state last = heapKey items 0)
    (fun state i j first second held => by
      have same : state.length = last + 1 := held.1.length_eq.trans size
      refine ⟨(swap_perm state (by omega) (by omega)).trans held.1, ?_⟩
      rw [int_heap_reads.swap state i j last (by omega) (by omega),
        Equiv.swap_apply_of_ne_of_ne (by omega) (by omega)]
      exact held.2) last ⟨swapped, by rw [moved, Equiv.swap_apply_right]⟩ 0
  refine ⟨kept.1, kept.2, ?_⟩
  refine Heap.down_in_order int_heap_reads (by rw [swapped.length_eq]; omega) (by omega)
    ⟨fun i positive inside notRoot => ?_, fun none => absurd none (by decide)⟩
  have above := Heap.parent_lt positive
  rw [moved, moved, Equiv.swap_apply_of_ne_of_ne notRoot (by omega),
    Equiv.swap_apply_of_ne_of_ne (by omega) (by omega)]
  exact ordered i positive (by omega)

theorem heap_pop_spec {items : List Int} (ordered : HeapOrdered items) (some : items ≠ []) :
    ((heapPop items).1 :: (heapPop items).2).Perm items ∧ HeapOrdered (heapPop items).2 ∧
      ∀ height ∈ items, (heapPop items).1 ≤ height := by
  have nonempty := length_pos_of_ne_nil some
  rw [heapPop]
  generalize lastIs : items.length - 1 = last
  generalize sinks : (Heap.down intHeap last last (intHeap.swap items 0 last) 0).1 = sunk
  have size : items.length = last + 1 := by omega
  obtain ⟨perm, root, sunkOrdered⟩ := sink_spec ordered size sinks
  have length : sunk.length = last + 1 := perm.length_eq.trans size
  refine ⟨?_, ?_, fun height member => ?_⟩
  · have split : sunk.dropLast ++ [sunk.getD last 0] = sunk := by
      rw [getD_eq_getElem _ _ (by omega)]
      have notEmpty : sunk ≠ [] := ne_nil_of_length_pos (by omega)
      conv_rhs => rw [← dropLast_append_getLast notEmpty, getLast_eq_getElem]
      simp [length]
    exact (perm_append_singleton _ _).symm.trans (split.symm ▸ perm)
  · have front : ∀ index, index < last → heapKey sunk.dropLast index = heapKey sunk index := by
      intro index inside
      rw [heapKey, heapKey, getD_eq_getElem?_getD, getElem?_dropLast, if_pos (by omega),
        getD_eq_getElem?_getD]
    rw [HeapOrdered, length_dropLast, length, Nat.add_sub_cancel]
    intro i positive inside
    have above := Heap.parent_lt positive
    rw [front _ (by omega), front i inside]
    exact sunkOrdered i positive inside
  · obtain ⟨index, inside, rfl⟩ := mem_iff_getElem.mp member
    have least := ordered.root_le inside
    rw [← root, heapKey, heapKey, getD_eq_getElem _ _ inside] at least
    exact least

namespace BlockQueue

inductive Call where
  | add (block : LightBlock)
  | nextHeight
  | verifyNext
  | retry (height : Int)
  | success

def call (queue : BlockQueue) : Call → Panics BlockQueue
  | .add block => .ok (queue.add block).1
  | .nextHeight => .ok queue.nextHeight.1
  | .verifyNext => .ok queue.verifyNext.1
  | .retry height => .ok (queue.retry height).1
  | .success => queue.success

theorem next_height_failed {queue : BlockQueue} (some : queue.failed ≠ []) :
    queue.nextHeight =
      ({ queue with failed := (heapPop queue.failed).2 },
        Option.some (heapPop queue.failed).1) := by
  rw [nextHeight, if_pos (length_pos_of_ne_nil some)]

theorem call_ordered {queue next : BlockQueue} {call : Call} (ordered : HeapOrdered queue.failed)
    (called : queue.call call = .ok next) : HeapOrdered next.failed := by
  cases call with
  | add block =>
    cases called
    unfold add
    dsimp only
    split_ifs <;> exact ordered
  | nextHeight =>
    cases called
    by_cases none : queue.failed = []
    · unfold nextHeight
      rw [if_neg (by simp [none])]
      split_ifs <;> exact ordered
    · rw [next_height_failed none]
      exact (heap_pop_spec ordered none).2.1
  | verifyNext =>
    cases called
    unfold verifyNext
    split
    · exact ordered
    · split <;> exact ordered
  | retry height =>
    cases called
    unfold retry
    dsimp only
    split_ifs
    · exact ordered
    · exact ordered
    · exact ordered
    · exact heap_push_ordered ordered height
  | success =>
    unfold BlockQueue.call success at called
    split_ifs at called <;> cases called <;> exact ordered

/-- In every run a failed height is served before a new one, and it is the least of them. So
it is the greatest one exactly if all heights that have failed are equal. -/
theorem next_height_greatest_iff (startHeight stopHeight initialHeight : Int) (stopTime : Time)
    (maxRetries : Int) (calls : List Call) (queue : BlockQueue)
    (ran : Runs.run call (new startHeight stopHeight initialHeight stopTime maxRetries) calls =
      .ok queue) (some : queue.failed ≠ []) :
    ∃ served rest, queue.nextHeight = ({ queue with failed := rest }, Option.some served) ∧
      (served :: rest).Perm queue.failed ∧ (∀ height ∈ queue.failed, served ≤ height) ∧
      ((∀ height ∈ queue.failed, height ≤ served) ↔
        ∀ height ∈ queue.failed, ∀ other ∈ queue.failed, height = other) := by
  have ordered : HeapOrdered queue.failed :=
    @Runs.run_keeps _ _ _ (fun queue => HeapOrdered queue.failed) (fun _ _ => True) _ _
      (fun _ _ _ ordered _ called => call_ordered ordered called) _
      (fun i positive inside => by simp [new] at inside) (Runs.each_of_mem fun _ _ _ => trivial) ran
  obtain ⟨perm, _, least⟩ := heap_pop_spec ordered some
  refine ⟨_, _, next_height_failed some, perm, least,
    fun above height member other otherMember => ?_,
    fun same height member => (same height member _ (perm.subset mem_cons_self)).le⟩
  exact ((above height member).antisymm (least height member)).trans
    ((least other otherMember).antisymm (above other otherMember))

def failing (heights : List Int) : BlockQueue :=
  heights.foldl (fun queue height => (queue.retry height).1) (new 10 1 1 0 20)

/-- A height that failed twice is the greatest one after a greater one was served. -/
theorem same_height_served : ∃ queue, Runs.run call (new 10 1 1 0 20)
      [.retry 9, .nextHeight, .retry 5, .retry 5] = .ok queue ∧
    queue.nextHeight.2 = some 5 ∧ ∀ height ∈ queue.failed, height ≤ 5 := by
  obtain ⟨served, rest, same, perm, _, greatest⟩ := next_height_greatest_iff 10 1 1 0 20
    [.retry 9, .nextHeight, .retry 5, .retry 5] _ rfl (by decide)
  refine ⟨_, rfl, by decide, fun height member => ?_⟩
  have isFive : served = 5 := Option.some.inj ((congrArg Prod.snd same).symm.trans (by decide))
  exact isFive ▸ greatest.mpr (by decide) height member

/-- Of the heights 5 and 9 the lower one is served, and the verifier waits for the other. -/
theorem lower_height_served_first :
    9 ∈ (failing [9, 5]).failed ∧ (failing [9, 5]).nextHeight.2 = some 5 := by decide

end BlockQueue

/-- The heights that fetchers are asking for, the block in the verifier's hands, and what
was verified. -/
structure Backfill where
  queue : BlockQueue
  requested : List Int
  received : Option LightBlock
  trustedHash : Bytes
  verified : List LightBlock

inductive BackfillEvent where
  | fetch
  /-- A peer answered the request for a height. -/
  | deliver (height : Int) (block : LightBlock)
  | fail (height : Int)
  | verifyNext
  | verify

namespace Backfill

def new (startHeight stopHeight initialHeight : Int) (trustedHash : Bytes) (stopTime : Time)
    (maxRetries : Int) : Backfill :=
  ⟨.new startHeight stopHeight initialHeight stopTime maxRetries, [], none, trustedHash, []⟩

def retry (backfill : Backfill) (height : Int) : Backfill :=
  { backfill with
    queue := (backfill.queue.retry height).1
    requested := (backfill.queue.retry height).2.toList ++ backfill.requested }

variable (hashing : Hashing) (chainID : ChainID)

def verify (backfill : Backfill) (block : LightBlock) : Panics Backfill :=
  let backfill := { backfill with received := none }
  if backfill.trustedHash ≠ block.hash hashing then .ok (backfill.retry block.height)
  else do
    let queue ← backfill.queue.success
    return { backfill with
      queue
      trustedHash := block.header.lastBlockID.hash
      verified := backfill.verified ++ [block] }

/-- A fetcher adds a block that is sound on its own and of the height it asked for. -/
def deliver (backfill : Backfill) (height : Int) (block : LightBlock) : Backfill :=
  let backfill := { backfill with requested := backfill.requested.erase height }
  if block.validateBasic hashing chainID ≠ none ∨ block.height ≠ height then backfill.retry height
  else
    { backfill with
      queue := (backfill.queue.add block).1
      received := (backfill.queue.add block).2 <|> backfill.received }

def step (backfill : Backfill) : BackfillEvent → Panics Backfill
  | .fetch => .ok
      { backfill with
        queue := backfill.queue.nextHeight.1
        requested := backfill.queue.nextHeight.2.toList ++ backfill.requested }
  | .deliver height block =>
    if height ∈ backfill.requested then .ok (backfill.deliver hashing chainID height block)
    else .ok backfill
  | .fail height =>
    if height ∈ backfill.requested then
      .ok ({ backfill with requested := backfill.requested.erase height }.retry height)
    else .ok backfill
  | .verifyNext =>
    -- the verifier waits for the answer to its last call first
    if backfill.received.isSome ∨ backfill.queue.verifyCh then .ok backfill
    else .ok { backfill with
      queue := backfill.queue.verifyNext.1
      received := backfill.queue.verifyNext.2 }
  | .verify =>
    match backfill.received with
    | none => .ok backfill
    | some block => backfill.verify hashing block

/-! ### What holds in every run -/

/-- What the queue, the verifier's hands and the verified blocks are in a run from `first`
where all blocks that peers deliver are `given`. -/
structure Progress (first : BlockQueue) (given : LightBlock → Prop)
    (backfill : Backfill) : Prop where
  stops : ∀ block, backfill.queue.Stops block ↔ first.Stops block
  heights : ∀ (index : Nat) (block : LightBlock), backfill.verified[index]? = some block →
    block.height = first.verifyHeight - index ∧ given block
  next : backfill.queue.verifyHeight = first.verifyHeight - backfill.verified.length
  pending : ∀ height block, backfill.queue.pending height = some block →
    block.height = height ∧ given block
  received : ∀ block, backfill.received = some block →
    block.height = backfill.queue.verifyHeight ∧ given block
  terminal : ∀ block, backfill.queue.terminal = some block → given block ∧ first.Stops block
  ended : backfill.queue.done = true → backfill.queue.retries < backfill.queue.maxRetries →
    backfill.received = none ∧ ∃ terminal last, backfill.queue.terminal = some terminal ∧
      backfill.verified.getLast? = some last ∧ last.height = terminal.height

variable {hashing chainID} {first : BlockQueue} {given : LightBlock → Prop} {backfill : Backfill}

theorem new_progress (startHeight stopHeight initialHeight : Int) (trustedHash : Bytes)
    (stopTime : Time) (maxRetries : Int) :
    Progress (.new startHeight stopHeight initialHeight stopTime maxRetries) given
      (new startHeight stopHeight initialHeight trustedHash stopTime maxRetries) where
  stops _ := Iff.rfl
  heights index block found := by simp [new] at found
  next := by simp [new, BlockQueue.new]
  pending height block found := by cases found
  received block found := by cases found
  terminal block found := by cases found
  ended closed := by cases closed

section

variable (progress : Progress first given backfill)

include progress

theorem Progress.drop : Progress first given { backfill with received := none } :=
  { progress with
    received := fun block found => by cases found
    ended := fun closed fewer => ⟨rfl, (progress.ended closed fewer).2⟩ }

theorem Progress.of_queue {queue : BlockQueue} (requested : List Int)
    (stops : ∀ block, queue.Stops block ↔ backfill.queue.Stops block)
    (verifyHeight : queue.verifyHeight = backfill.queue.verifyHeight)
    (pending : queue.pending = backfill.queue.pending)
    (terminal : queue.terminal = backfill.queue.terminal)
    (ended : queue.done = true → queue.retries < queue.maxRetries → backfill.queue.done = true ∧
      backfill.queue.retries < backfill.queue.maxRetries) :
        Progress first given { backfill with queue, requested } where
  stops block := (stops block).trans (progress.stops block)
  heights := progress.heights
  next := verifyHeight.trans progress.next
  pending := by
    rw [pending]
    exact progress.pending
  received block found := by
    rw [verifyHeight]
    exact progress.received block found
  terminal := by
    rw [terminal]
    exact progress.terminal
  ended closed fewer := by
    rw [terminal]
    exact progress.ended (ended closed fewer).1 (ended closed fewer).2

theorem Progress.asked (requested : List Int) :
    Progress first given { backfill with requested } :=
  progress.of_queue _ (fun _ => Iff.rfl) rfl rfl rfl fun closed fewer => ⟨closed, fewer⟩

theorem Progress.retry (height : Int) : Progress first given (backfill.retry height) := by
  unfold Backfill.retry BlockQueue.retry
  split
  · exact progress.of_queue _ (fun _ => Iff.rfl) rfl rfl rfl fun closed fewer => ⟨closed, fewer⟩
  rename_i running
  rw [not_or] at running
  dsimp only
  split
  · rename_i many
    refine progress.of_queue _ (fun _ => Iff.rfl) rfl rfl rfl fun _ fewer => ?_
    exact absurd many (not_le.mpr fewer)
  split
  · exact progress.of_queue _ (fun _ => Iff.rfl) rfl rfl rfl fun closed => absurd closed running.1
  · exact progress.of_queue _ (fun _ => Iff.rfl) rfl rfl rfl fun closed => absurd closed running.1

theorem Progress.fetch : Progress first given { backfill with
      queue := backfill.queue.nextHeight.1
      requested := backfill.queue.nextHeight.2.toList ++ backfill.requested } := by
  -- each of the three branches leaves what the verifier reads
  unfold BlockQueue.nextHeight
  repeat' split
  all_goals
    exact progress.of_queue _ (fun _ => Iff.rfl) rfl rfl rfl fun closed fewer => ⟨closed, fewer⟩

theorem Progress.add {block : LightBlock} (isGiven : given block) :
    Progress first given { backfill with
      queue := (backfill.queue.add block).1
      received := (backfill.queue.add block).2 <|> backfill.received } := by
  have marked : ∀ terminal, (if backfill.queue.Stops block then some block
      else backfill.queue.terminal) = some terminal → given terminal ∧ first.Stops terminal := by
    intro terminal same
    split at same
    · rename_i test
      cases same
      exact ⟨isGiven, (progress.stops block).mp test⟩
    · exact progress.terminal terminal same
  unfold BlockQueue.add
  split
  · exact progress
  rename_i running
  rw [not_or] at running
  dsimp only
  split
  · -- the verifier is waiting for exactly this height
    rename_i waited
    exact
      { progress with
        received := fun other same => by
          cases same
          exact ⟨waited.1, isGiven⟩
        terminal := marked
        ended := fun closed => absurd closed running.1 }
  · exact
      { progress with
        pending := fun height other found => by
          by_cases here : height = block.height
          · subst here
            simp only [Function.update_self, Option.some.injEq] at found
            subst found
            exact ⟨rfl, isGiven⟩
          · simp only [Function.update_of_ne here] at found
            exact progress.pending height other found
        terminal := marked
        ended := fun closed => absurd closed running.1 }

theorem Progress.verify_next (idle : backfill.received = none) :
    Progress first given { backfill with
      queue := backfill.queue.verifyNext.1
      received := backfill.queue.verifyNext.2 } := by
  unfold BlockQueue.verifyNext
  split
  · rw [← idle]
    exact progress
  rename_i running
  split
  · rename_i block found
    exact
      { progress with
        pending := fun height other stored => by
          by_cases here : height = backfill.queue.verifyHeight
          · simp [here] at stored
          · simp only [Function.update_of_ne here] at stored
            exact progress.pending height other stored
        received := fun other same => by
          cases same
          exact progress.pending _ _ found
        ended := fun closed => absurd closed running }
  · exact
      { progress with
        received := fun other same => by cases same
        ended := fun closed => absurd closed running }

theorem Progress.success {block : LightBlock} {queue : BlockQueue}
    (held : backfill.received = some block) (succeeded : backfill.queue.success = .ok queue)
    (trustedHash : Bytes) :
    Progress first given { backfill with
      queue
      received := none
      trustedHash
      verified := backfill.verified ++ [block] } := by
  obtain ⟨height, isGiven⟩ := progress.received block held
  have heights : ∀ (index : Nat) (other : LightBlock),
      (backfill.verified ++ [block])[index]? = some other →
      other.height = first.verifyHeight - index ∧ given other := by
    intro index other found
    rcases lt_or_ge index backfill.verified.length with inside | beyond
    · rw [getElem?_append_left inside] at found
      exact progress.heights index other found
    · rw [getElem?_append_right beyond, getElem?_singleton] at found
      split at found
      · rename_i last
        cases found
        rw [height, progress.next]
        exact ⟨by omega, isGiven⟩
      · cases found
  have next : backfill.queue.verifyHeight - 1 =
      first.verifyHeight - ((backfill.verified ++ [block]).length : Int) := by
    rw [progress.next, length_append, length_singleton]
    omega
  unfold BlockQueue.success at succeeded
  split at succeeded
  · rename_i reached
    split at succeeded
    · cases succeeded
    · cases succeeded
      obtain ⟨terminal, marked, level⟩ := reached
      exact
        { progress with
          heights
          next
          received := fun other same => by cases same
          ended := fun _ _ => ⟨rfl, terminal, block, marked, by simp, height.trans level⟩ }
  · cases succeeded
    exact
      { progress with
        heights
        next
        received := fun other same => by cases same
        -- a queue that closed without an error left nothing to verify
        ended := fun closed fewer => by
          have nothing := (progress.ended closed fewer).1
          rw [held] at nothing
          cases nothing }

end

theorem step_progress {event : BackfillEvent} {next : Backfill}
    (progress : Progress first given backfill)
    (allGiven : ∀ height block, event = .deliver height block →
      block.validateBasic hashing chainID = none → given block)
    (stepped : backfill.step hashing chainID event = .ok next) : Progress first given next := by
  cases event with
  | fetch =>
    cases stepped
    exact progress.fetch
  | deliver height block =>
    rw [step] at stepped
    split at stepped
    · cases stepped
      unfold deliver
      split
      · exact (progress.asked _).retry height
      · rename_i sound
        exact (progress.asked _).add (allGiven height block rfl (not_not.mp (not_or.mp sound).1))
    · cases stepped
      exact progress
  | fail height =>
    rw [step] at stepped
    split at stepped
    · cases stepped
      exact (progress.asked _).retry height
    · cases stepped
      exact progress
  | verifyNext =>
    rw [step] at stepped
    split at stepped
    · cases stepped
      exact progress
    · rename_i idle
      cases stepped
      rw [not_or] at idle
      exact progress.verify_next (by simpa using idle.1)
  | verify =>
    rw [step] at stepped
    split at stepped
    · cases stepped
      exact progress
    · rename_i block held
      unfold verify at stepped
      dsimp only at stepped
      split at stepped
      · cases stepped
        exact progress.drop.retry block.height
      · cases succeeded : backfill.queue.success with
        | error text =>
          rw [succeeded] at stepped
          cases stepped
        | ok queue =>
          rw [succeeded] at stepped
          cases stepped
          exact progress.success held succeeded _

def PastStop (stopHeight : Int) (stopTime : Time) (block : LightBlock) : Prop :=
  block.height ≤ stopHeight ∧ block.time < stopTime

/-- No two blocks that peers deliver for one height differ in the time test. -/
def SameSide (stopHeight : Int) (stopTime : Time) (events : List BackfillEvent) : Prop :=
  ∀ height other first second, .deliver height first ∈ events → .deliver other second ∈ events →
    first.height = second.height → PastStop stopHeight stopTime first →
    PastStop stopHeight stopTime second

/-- The blocks are verified one per height downwards from the start. If the peers do not
disagree on which side of the stop time a height is, a backfill that ends without an error
ends at the initial height or past the stop. -/
theorem backfill_stops (hashing : Hashing) (chainID : ChainID)
    (startHeight stopHeight initialHeight : Int) (trustedHash : Bytes) (stopTime : Time)
    (maxRetries : Int) (events : List BackfillEvent) (final : Backfill)
    (ran : Runs.run (step hashing chainID)
      (new startHeight stopHeight initialHeight trustedHash stopTime maxRetries) events =
        .ok final) :
    (∀ (index : Nat) (block : LightBlock), final.verified[index]? = some block →
        block.height = startHeight - index) ∧
      (SameSide stopHeight stopTime events → final.queue.done = true → final.queue.error = none →
        ∃ last, final.verified.getLast? = some last ∧
          (last.height = initialHeight ∨ PastStop stopHeight stopTime last)) := by
  let given := fun block => ∃ height, BackfillEvent.deliver height block ∈ events
  have each : Runs.Each (step hashing chainID)
      (fun _ event => ∀ height block, event = .deliver height block →
        block.validateBasic hashing chainID = none → given block)
      (new startHeight stopHeight initialHeight trustedHash stopTime maxRetries) events :=
    Runs.each_of_mem fun _ event member height block same _ => ⟨height, same ▸ member⟩
  have progress := Runs.run_keeps
    (fun _ event _ progress allGiven stepped => step_progress progress allGiven stepped)
      (new_progress startHeight stopHeight initialHeight trustedHash stopTime maxRetries)
    each ran
  refine ⟨fun index block found => (progress.heights index block found).1,
    fun sameSide closed noError => ?_⟩
  obtain ⟨_, terminal, last, marked, isLast, level⟩ :=
    progress.ended closed (BlockQueue.error_none noError)
  obtain ⟨⟨height, delivered⟩, stops⟩ := progress.terminal terminal marked
  obtain ⟨_, other, alsoDelivered⟩ := progress.heights _ last
    (getLast?_eq_getElem?.symm.trans isLast)
  refine ⟨last, isLast, ?_⟩
  rcases stops with past | initial
  · exact .inr (sameSide height other terminal last delivered alsoDelivered level.symm past)
  · exact .inl (level.trans initial)

section ThreeBlocks

open Light (checksum linkedHeader linkedBlock lowerBlock upperBlock)

def topBlock : LightBlock := linkedBlock (linkedHeader 3 300 upperBlock.commit.blockID)

def earlyBlock : LightBlock := linkedBlock (linkedHeader 2 50 lowerBlock.commit.blockID)

def threeBlocks (stopTime : Time) : Backfill := new 3 2 1 (topBlock.hash checksum) stopTime 20

def honestEvents : List BackfillEvent :=
  [.fetch, .fetch, .deliver 2 upperBlock, .verifyNext, .deliver 3 topBlock, .verify, .verifyNext,
    .verify]

def forgedEvents : List BackfillEvent :=
  [.fetch, .verifyNext, .deliver 3 topBlock, .verify, .fetch, .deliver 2 earlyBlock, .verifyNext,
    .verify, .fetch, .deliver 2 upperBlock, .verifyNext, .verify]

theorem honest_backfill_stops : ∃ final,
    Runs.run (step checksum [99]) (threeBlocks 250) honestEvents = .ok final ∧
    final.queue.done = true ∧ final.queue.error = none ∧
    ∃ last, final.verified.getLast? = some last ∧ (last.height = 1 ∨ PastStop 2 250 last) := by
  have same : SameSide 2 250 honestEvents := by
    intro height other first second firstIn secondIn level past
    simp only [honestEvents, mem_cons, reduceCtorEq, BackfillEvent.deliver.injEq, false_or,
      not_mem_nil, or_false] at firstIn secondIn
    rcases firstIn with ⟨_, rfl⟩ | ⟨_, rfl⟩
    · rcases secondIn with ⟨_, rfl⟩ | ⟨_, rfl⟩
      · exact past
      · exact absurd level (by decide)
    · exact absurd past.1 (by decide)
  have ends : (Runs.run (step checksum [99]) (threeBlocks 250) honestEvents).toOption.map
      (fun final => (final.queue.done, final.queue.error)) = some (true, none) := by decide +kernel
  cases ran : Runs.run (step checksum [99]) (threeBlocks 250) honestEvents with
  | error text =>
    rw [ran] at ends
    cases ends
  | ok final =>
  rw [ran] at ends
  have closed : final.queue.done = true := congrArg Prod.fst (Option.some.inj ends)
  have noError : final.queue.error = none := congrArg Prod.snd (Option.some.inj ends)
  exact ⟨final, rfl, closed, noError, (backfill_stops checksum [99] 3 2 1 _ 250 20 honestEvents
    final ran).2 same closed noError⟩

/-- The early block stops the fetchers although it is rejected; the block of the chain that
replaces it ends the backfill before the stop time is reached. -/
theorem rejected_block_ends_backfill :
    earlyBlock.validateBasic checksum [99] = none ∧
    (Runs.run (step checksum [99]) (threeBlocks 150) forgedEvents).toOption.map
        (fun final => (final.queue.done, final.queue.error, final.verified)) =
      some (true, none, [topBlock, upperBlock]) ∧
    upperBlock.height ≠ 1 ∧ ¬PastStop 2 150 upperBlock := by
  refine ⟨by decide +kernel, by decide +kernel, by decide, fun past => ?_⟩
  exact absurd past.2 (by decide)

end ThreeBlocks

end Backfill

end Tendermint.StateSync
