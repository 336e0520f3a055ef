import Tendermint.StateSync.BlockQueue

/-!
How the block queue shuts down. `_closeChannels` closes `doneCh` and then returns from
the select that is to drain it, so the channels of waiting fetchers and of the waiting
verifier stay open; and only some of its callers look at whether `doneCh` is closed.
The verifying loop closes the queue when its context or the reactor ends, at any of
its selects.
-/

namespace Tendermint.StateSync

open Types
open Merkle (Hashing)

def BlockQueue.GivesUp (queue : BlockQueue) (height : Int) : Prop :=
  queue.done = false ∧ ¬ queue.BelowTerminal height ∧ queue.maxRetries ≤ queue.retries + 1

namespace Backfill

variable (hashing : Hashing) (chainID : ChainID)

def Closes (backfill : Backfill) : BackfillEvent → Prop
  | .deliver height block => height ∈ backfill.requested ∧
      (block.validateBasic hashing chainID ≠ none ∨ block.height ≠ height) ∧
      backfill.queue.GivesUp height
  | .fail height => height ∈ backfill.requested ∧ backfill.queue.GivesUp height
  | .verify => ∃ block, backfill.received = some block ∧
      if backfill.trustedHash ≠ block.hash hashing then backfill.queue.GivesUp block.height
      else backfill.queue.AtTerminal
  | _ => False

/-- What the shutdown looks at: whether the queue is done, and who waits. -/
def SameWaiting (backfill next : Backfill) : Prop :=
  next.queue.waiters = backfill.queue.waiters ∧ next.queue.verifyCh = backfill.queue.verifyCh

variable {hashing chainID} {backfill : Backfill}

variable {height : Int} {event : BackfillEvent}

theorem retry_gives_up (limit : backfill.queue.GivesUp height) :
    (backfill.retry height).queue.done = true ∧ SameWaiting backfill (backfill.retry height) := by
  obtain ⟨running, above, many⟩ := limit
  have goes : ¬ (backfill.queue.done = true ∨ backfill.queue.BelowTerminal height) := by
    simp [running, above]
  unfold Backfill.retry BlockQueue.retry
  rw [if_neg goes]
  dsimp only
  rw [if_pos many]
  exact ⟨rfl, rfl, rfl⟩

theorem retry_goes_on (more : ¬ backfill.queue.GivesUp height) :
    (backfill.retry height).queue.done = backfill.queue.done := by
  unfold Backfill.retry BlockQueue.retry
  split
  · rfl
  rename_i running
  rw [not_or, Bool.not_eq_true] at running
  dsimp only
  split
  · rename_i many
    exact absurd ⟨running.1, running.2, many⟩ more
  split
  · rfl
  · rfl

theorem closing_step (closes : backfill.Closes hashing chainID event) :
    (backfill.queue.done = true ∧ ∃ text, backfill.step hashing chainID event = .error text) ∨
    (backfill.queue.done = false ∧ ∃ next, backfill.step hashing chainID event = .ok next ∧
      next.queue.done = true ∧ SameWaiting backfill next) := by
  cases event with
  | fetch => cases closes
  | verifyNext => cases closes
  | deliver height block =>
    obtain ⟨asked, bad, limit⟩ := closes
    refine .inr ⟨limit.1, _, by rw [step, if_pos asked], ?_⟩
    rw [deliver, if_pos bad]
    exact retry_gives_up limit
  | fail height =>
    obtain ⟨asked, limit⟩ := closes
    refine .inr ⟨limit.1, _, by rw [step, if_pos asked], ?_⟩
    exact retry_gives_up limit
  | verify =>
    obtain ⟨block, held, test⟩ := closes
    rw [step, held]
    dsimp only
    rw [verify]
    dsimp only
    split_ifs at test ⊢ with differs
    · exact .inr ⟨test.1, _, rfl, retry_gives_up test⟩
    · rw [BlockQueue.success, if_pos test]
      cases done : backfill.queue.done with
      | true => exact .inl ⟨rfl, _, rfl⟩
      | false => exact .inr ⟨rfl, _, rfl, rfl, rfl, rfl⟩

theorem other_step (other : ¬ backfill.Closes hashing chainID event) :
    ∃ next, backfill.step hashing chainID event = .ok next ∧
      next.queue.done = backfill.queue.done := by
  cases event with
  | fetch =>
    refine ⟨_, rfl, ?_⟩
    dsimp only
    rw [BlockQueue.nextHeight]
    split_ifs <;> rfl
  | verifyNext =>
    rw [step]
    split
    · exact ⟨_, rfl, rfl⟩
    · refine ⟨_, rfl, ?_⟩
      dsimp only
      rw [BlockQueue.verifyNext]
      split
      · rfl
      split <;> rfl
  | deliver height block =>
    rw [step]
    split
    · rename_i asked
      refine ⟨_, rfl, ?_⟩
      rw [deliver]
      dsimp only
      split
      · rename_i bad
        exact retry_goes_on fun limit => other ⟨asked, bad, limit⟩
      · rw [BlockQueue.add]
        split_ifs <;> rfl
    · exact ⟨_, rfl, rfl⟩
  | fail height =>
    rw [step]
    split
    · rename_i asked
      exact ⟨_, rfl, retry_goes_on fun limit => other ⟨asked, limit⟩⟩
    · exact ⟨_, rfl, rfl⟩
  | verify =>
    rw [step]
    split
    · exact ⟨_, rfl, rfl⟩
    · rename_i block held
      rw [verify]
      dsimp only
      split
      · rename_i differs
        exact ⟨_, rfl, retry_goes_on fun limit => other ⟨block, held, by rwa [if_pos differs]⟩⟩
      · rename_i same
        have below : ¬ backfill.queue.AtTerminal := fun reached =>
          other ⟨block, held, by rwa [if_neg same]⟩
        rw [BlockQueue.success, if_neg below]
        exact ⟨_, rfl, rfl⟩

end Backfill

/-- A backfill with its verifying loop, which may have returned, and the number of channels
that the queue returned before it was done and that are open and empty. -/
structure Shutdown where
  backfill : Backfill
  returned : Bool
  unserved : Nat

inductive ShutdownEvent where
  | call (event : BackfillEvent)
  /-- The loop finds its context or the reactor at an end. -/
  | close
  /-- The loop finds the queue done. -/
  | finish

def BackfillEvent.byVerifier : BackfillEvent → Bool
  | .verifyNext => true
  | .verify => true
  | _ => false

namespace Shutdown

def new (backfill : Backfill) : Shutdown := ⟨backfill, false, 0⟩

def after (shutdown : Shutdown) (next : Backfill) : Shutdown :=
  { shutdown with
    backfill := next
    unserved := if shutdown.backfill.queue.done then shutdown.unserved
      else next.queue.waiters + next.queue.verifyCh.toNat }

variable (hashing : Hashing) (chainID : ChainID)

def step (shutdown : Shutdown) : ShutdownEvent → Panics Shutdown
  | .call event =>
    if shutdown.returned ∧ event.byVerifier then .ok shutdown
    else do
      let next ← shutdown.backfill.step hashing chainID event
      return shutdown.after next
  | .close =>
    let queue := shutdown.backfill.queue
    if shutdown.returned then .ok shutdown
    else if queue.done then .error "close of closed channel"
    else .ok { shutdown.after { shutdown.backfill with queue := { queue with done := true } } with
      returned := true }
  | .finish =>
    .ok { shutdown with returned := shutdown.returned || shutdown.backfill.queue.done }

/-- Once the queue is done, no channel that was returned before is left. -/
def Served (shutdown : Shutdown) : Prop :=
  shutdown.backfill.queue.done = true → shutdown.unserved = 0

def Closes (shutdown : Shutdown) : ShutdownEvent → Prop
  | .call event => ¬ (shutdown.returned = true ∧ event.byVerifier = true) ∧
      shutdown.backfill.Closes hashing chainID event
  | .close => shutdown.returned = false
  | .finish => False

/-- The queue is closed once, and when no fetcher and no verifier waits. -/
def Orderly (shutdown : Shutdown) (event : ShutdownEvent) : Prop :=
  shutdown.Closes hashing chainID event → shutdown.backfill.queue.done = false ∧
    shutdown.backfill.queue.waiters = 0 ∧ shutdown.backfill.queue.verifyCh = false

variable {hashing chainID}

variable {next : Backfill} {shutdown : Shutdown}

theorem after_closing (running : shutdown.backfill.queue.done = false)
    (closed : next.queue.done = true) (same : shutdown.backfill.SameWaiting next) :
    (shutdown.after next).Served ↔
      shutdown.backfill.queue.waiters = 0 ∧ shutdown.backfill.queue.verifyCh = false := by
  unfold Served after
  dsimp only
  rw [running, same.1, same.2]
  simp [closed]

theorem after_other (served : shutdown.Served)
    (same : next.queue.done = shutdown.backfill.queue.done) : (shutdown.after next).Served := by
  intro closed
  have before : shutdown.backfill.queue.done = true := same.symm.trans closed
  unfold after
  dsimp only
  rw [if_pos before]
  exact served before

theorem orderly_iff (shutdown : Shutdown) (event : ShutdownEvent) (served : shutdown.Served) :
    shutdown.Orderly hashing chainID event ↔
      ∃ next, shutdown.step hashing chainID event = .ok next ∧ next.Served := by
  unfold Orderly
  cases event with
  | call event =>
    rw [step, Closes]
    by_cases idle : shutdown.returned = true ∧ event.byVerifier = true
    · simp [idle, served]
    rw [if_neg idle]
    by_cases closes : shutdown.backfill.Closes hashing chainID event
    · simp only [idle, not_false_eq_true, closes, true_and, forall_const]
      rcases Backfill.closing_step closes with ⟨done, text, panics⟩ |
        ⟨running, next, stepped, closed, same⟩
      · simp [done, panics]
      · rw [stepped]
        simp only [running, true_and, bind_eq, pure_eq, Except.ok.injEq, exists_eq_left']
        exact (after_closing running closed same).symm
    · obtain ⟨next, stepped, same⟩ := Backfill.other_step closes
      simp only [closes, and_false, false_implies, true_iff]
      exact ⟨_, by rw [stepped]; rfl, after_other served same⟩
  | close =>
    rw [step, Closes]
    cases returned : shutdown.returned with
    | true => simp [served]
    | false =>
    cases done : shutdown.backfill.queue.done with
    | true => simp
    | false =>
    simp only [forall_const, true_and, Bool.false_eq_true, if_false, Except.ok.injEq,
      exists_eq_left']
    have closed : ({ shutdown.backfill with
        queue := { shutdown.backfill.queue with done := true } } : Backfill).queue.done = true :=
      rfl
    exact (after_closing done closed ⟨rfl, rfl⟩).symm
  | finish =>
    rw [Closes, false_implies, true_iff]
    exact ⟨_, rfl, served⟩

/-- A run shuts down cleanly exactly if it is orderly. -/
theorem clean_shutdown_iff (hashing : Hashing) (chainID : ChainID)
    (startHeight stopHeight initialHeight : Int) (trustedHash : Bytes) (stopTime : Time)
    (maxRetries : Int) (events : List ShutdownEvent) :
    Runs.Passes (step hashing chainID) Served
      (new (.new startHeight stopHeight initialHeight trustedHash stopTime maxRetries)) events ↔
    Runs.Each (step hashing chainID) (Orderly hashing chainID)
      (new (.new startHeight stopHeight initialHeight trustedHash stopTime maxRetries)) events :=
  Runs.passes_iff_each orderly_iff events fun _ => rfl

section OneBlock

open Light (checksum lowerBlock)

def oneBlock : Shutdown := new (.new 1 1 1 (lowerBlock.hash checksum) 50 20)

/-- Two fetchers for the one block: the second waits and is left waiting. If the context
ends when the queue is done, the queue is closed again. -/
theorem waiting_fetcher_left :
    (Runs.run (step checksum [99]) oneBlock [.call .fetch, .call .fetch, .call .verifyNext,
      .call (.deliver 1 lowerBlock), .call .verify]).toOption.map
        (fun final => (final.backfill.queue.done, final.unserved)) = some (true, 1) ∧
    (Runs.run (step checksum [99]) oneBlock [.call .fetch, .call .verifyNext,
      .call (.deliver 1 lowerBlock), .call .verify, .close]).isOk = false := by
  decide +kernel

end OneBlock

end Shutdown

end Tendermint.StateSync
