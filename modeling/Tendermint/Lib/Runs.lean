import Mathlib

/-!
Runs of a machine whose steps may panic. A condition on steps is asked of a run at
every state that the run really passes.
-/

namespace Tendermint.Runs

open List

variable {σ ε : Type} (step : σ → ε → Except String σ)

def run : σ → List ε → Except String σ
  | state, [] => .ok state
  | state, event :: rest => step state event >>= fun next => run next rest

/-- Every step of the run meets the condition, as far as the run goes. -/
def Each (meets : σ → ε → Prop) : σ → List ε → Prop
  | _, [] => True
  | state, event :: rest =>
    meets state event ∧ ∀ next, step state event = .ok next → Each meets next rest

variable {step}

variable {holds : σ → Prop} {meets : σ → ε → Prop} {state final : σ} {event : ε} {rest : List ε}

theorem run_cons_ok {next : σ} (first : step state event = .ok next) :
    run step state (event :: rest) = .ok final ↔ run step next rest = .ok final := by
  rw [run, first]
  rfl

theorem run_cons_split (ran : run step state (event :: rest) = .ok final) :
    ∃ next, step state event = .ok next ∧ run step next rest = .ok final := by
  cases first : step state event with
  | error text =>
    rw [run, first] at ran
    cases ran
  | ok next => exact ⟨next, rfl, (run_cons_ok first).mp ran⟩

theorem each_of_mem {events : List ε} (all : ∀ state, ∀ event ∈ events, meets state event) :
    Each step meets state events := by
  induction events generalizing state with
  | nil => trivial
  | cons event rest ih =>
    exact ⟨all state event mem_cons_self, fun _ _ =>
      ih fun other later member => all other later (mem_cons_of_mem _ member)⟩

theorem run_keeps
    (keeps : ∀ state event next, holds state → meets state event → step state event = .ok next →
      holds next) {events : List ε} (start : holds state) (each : Each step meets state events)
    (ran : run step state events = .ok final) : holds final := by
  induction events generalizing state with
  | nil =>
    cases ran
    exact start
  | cons event rest ih =>
    obtain ⟨next, stepped, after⟩ := run_cons_split ran
    exact ih (keeps state event next start each.1 stepped) (each.2 next stepped) after

/-- The property holds in every state that the run passes. -/
def Always (step : σ → ε → Except String σ) (holds : σ → Prop) (state : σ) (events : List ε) :
    Prop :=
  ∀ before after final, events = before ++ after → run step state before = .ok final → holds final

theorem always_cons :
    Always step holds state (event :: rest) ↔
      holds state ∧ ∀ next, step state event = .ok next → Always step holds next rest := by
  constructor
  · intro always
    refine ⟨always [] _ state rfl rfl, fun next stepped before after final split ran => ?_⟩
    exact always (event :: before) after final (by rw [split]; rfl) ((run_cons_ok stepped).mpr ran)
  · rintro ⟨start, later⟩ before after final split ran
    cases before with
    | nil =>
      cases ran
      exact start
    | cons first before =>
      cases split
      obtain ⟨next, stepped, rest⟩ := run_cons_split ran
      exact later next stepped before after final rfl rest

/-- If a condition says exactly when a step keeps the property, it says so of runs. -/
theorem always_iff_each {side : σ → Prop} {allowed : ε → Prop}
    (exactly : ∀ state event, allowed event → side state → holds state →
      (meets state event ↔ ∀ next, step state event = .ok next → holds next))
    (keeps : ∀ state event next, allowed event → side state → step state event = .ok next →
      side next) (events : List ε) (within : ∀ event ∈ events, allowed event) (aside : side state)
    (start : holds state) :
    Always step holds state events ↔ Each step meets state events := by
  induction events generalizing state with
  | nil =>
    refine ⟨fun _ => trivial, fun _ before after final split ran => ?_⟩
    cases before with
    | nil =>
      cases ran
      exact start
    | cons first before => cases split
  | cons event rest ih =>
    have here := within event mem_cons_self
    have apart : ∀ other ∈ rest, allowed other := fun other member =>
      within other (mem_cons_of_mem _ member)
    rw [always_cons, Each]
    constructor
    · rintro ⟨_, later⟩
      have kept : ∀ next, step state event = .ok next → holds next := fun next stepped =>
        later next stepped [] _ next rfl rfl
      exact ⟨(exactly state event here aside start).mpr kept, fun next stepped =>
        (ih apart (keeps state event next here aside stepped) (kept next stepped)).mp
          (later next stepped)⟩
    · rintro ⟨met, later⟩
      refine ⟨start, fun next stepped => ?_⟩
      have kept := (exactly state event here aside start).mp met next stepped
      exact (ih apart (keeps state event next here aside stepped) kept).mpr (later next stepped)

/-- The run does not panic, and the property holds in every state that it passes. -/
def Passes (step : σ → ε → Except String σ) (holds : σ → Prop) (state : σ) (events : List ε) :
    Prop :=
  ∀ before after, events = before ++ after →
    ∃ final, run step state before = .ok final ∧ holds final

theorem passes_iff_each
    (exactly : ∀ state event, holds state →
      (meets state event ↔ ∃ next, step state event = .ok next ∧ holds next)) (events : List ε)
    (start : holds state) :
    Passes step holds state events ↔ Each step meets state events := by
  induction events generalizing state with
  | nil =>
    refine ⟨fun _ => trivial, fun _ before after split => ?_⟩
    rw [(append_eq_nil_iff.mp split.symm).1]
    exact ⟨state, rfl, start⟩
  | cons event rest ih =>
    constructor
    · intro passes
      obtain ⟨next, ran, kept⟩ := passes [event] rest rfl
      obtain ⟨next, stepped, ended⟩ := run_cons_split ran
      cases ended
      refine ⟨(exactly state event start).mpr ⟨next, stepped, kept⟩, fun other same => ?_⟩
      rw [stepped] at same
      cases same
      refine (ih kept).mp fun before after split => ?_
      obtain ⟨final, ran, last⟩ := passes (event :: before) after (by rw [split]; rfl)
      exact ⟨final, (run_cons_ok stepped).mp ran, last⟩
    · rintro ⟨met, later⟩ before after split
      obtain ⟨next, stepped, kept⟩ := (exactly state event start).mp met
      cases before with
      | nil => exact ⟨state, rfl, start⟩
      | cons first before =>
        cases split
        obtain ⟨final, ran, last⟩ := (ih kept).mpr (later next stepped) before after rfl
        exact ⟨final, (run_cons_ok stepped).mpr ran, last⟩

end Tendermint.Runs
