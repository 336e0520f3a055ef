import Mathlib

/-!
Stateful programs that may panic. A panic does not undo what the program did
before it, and deferred calls run on the way out, so the state is kept beside
the result in both cases. The rules below relate such a program to a transition
relation: from a given state it takes a chain of moves and ends either with a
value or in a panic. They hold for any state and any relation.
-/

namespace Tendermint.Program

open Relation (ReflTransGen)

variable {σ α β : Type}

def Act (σ α : Type) : Type := σ → Except String α × σ

instance : Monad (Act σ) where
  pure value := fun state => (.ok value, state)
  bind first next := fun state =>
    match first state with
    | (.ok value, after) => next value after
    | (.error text, after) => (.error text, after)

namespace Act

def get : Act σ σ := fun state => (.ok state, state)

def modify (change : σ → σ) : Act σ Unit := fun state => (.ok (), change state)

def raise (text : String) : Act σ α := fun state => (.error text, state)

/-- A computation that reads no state; its panic leaves the state alone. -/
def lift (result : Except String α) : Act σ α := fun state => (result, state)

@[simp]
theorem pure_run (value : α) (state : σ) : (pure value : Act σ α) state = (.ok value, state) :=
  rfl

theorem bind_run (first : Act σ α) (next : α → Act σ β) (state : σ) :
    (first >>= next) state =
      match first state with
      | (.ok value, after) => next value after
      | (.error text, after) => (.error text, after) := rfl

theorem bind_ok {first : Act σ α} {next : α → Act σ β} {state final : σ} {value : β}
    (ran : (first >>= next) state = (.ok value, final)) :
    ∃ given between, first state = (.ok given, between) ∧
      next given between = (.ok value, final) := by
  rw [bind_run] at ran
  cases head : first state with
  | mk result between =>
    rw [head] at ran
    cases result with
    | ok given => exact ⟨given, between, rfl, ran⟩
    | error text => cases ran

@[simp]
theorem get_bind (next : σ → Act σ β) (state : σ) : (get >>= next) state = next state state := rfl

@[simp]
theorem modify_bind (change : σ → σ) (next : Unit → Act σ β) (state : σ) :
    (modify change >>= next) state = next () (change state) := rfl

@[simp]
theorem modify_run (change : σ → σ) (state : σ) : modify change state = (.ok (), change state) :=
  rfl

@[simp]
theorem lift_ok_bind (value : α) (next : α → Act σ β) (state : σ) :
    (lift (.ok value) >>= next) state = next value state := rfl

@[simp]
theorem lift_error_bind (text : String) (next : α → Act σ β) (state : σ) :
    (lift (.error text) >>= next) state = (.error text, state) := rfl

end Act

/-- From `start` the program takes moves only, and what it ends with satisfies
`returned`, or `panicked` when it panics. -/
structure Yields (move : σ → σ → Prop) (program : Act σ α) (start : σ)
    (returned : α → σ → Prop) (panicked : σ → Prop) : Prop where
  chain : ReflTransGen move start (program start).2
  value : ∀ value, (program start).1 = .ok value → returned value (program start).2
  panic : ∀ text, (program start).1 = .error text → panicked (program start).2

namespace Yields

variable {move : σ → σ → Prop} {start : σ} {panicked : σ → Prop}

variable {returned : α → σ → Prop}

theorem of_run {program : Act σ α} {result : Except String α} {final : σ}
    (ran : program start = (result, final)) (chain : ReflTransGen move start final)
    (value : ∀ value, result = .ok value → returned value final)
    (panic : ∀ text, result = .error text → panicked final) :
    Yields move program start returned panicked := by
  constructor
  · rw [ran]
    exact chain
  · intro given same
    rw [ran] at same ⊢
    exact value given same
  · intro text same
    rw [ran] at same ⊢
    exact panic text same

theorem weaken {program : Act σ α} {weaker : α → σ → Prop} {panickedWeaker : σ → Prop}
    (yields : Yields move program start returned panicked)
    (value : ∀ value state, returned value state → weaker value state)
    (panic : ∀ state, panicked state → panickedWeaker state) :
    Yields move program start weaker panickedWeaker :=
  ⟨yields.chain, fun given same => value given _ (yields.value given same),
    fun text same => panic _ (yields.panic text same)⟩

theorem pure (value : α) (holds : returned value start) :
    Yields move (Pure.pure value) start returned panicked :=
  of_run rfl .refl (fun _ same => by cases same; exact holds) (fun _ same => by cases same)

theorem raise (text : String) (holds : panicked start) :
    Yields move (Act.raise text) start returned panicked :=
  of_run rfl .refl (fun _ same => by cases same) (fun _ _ => holds)

theorem get {next : σ → Act σ α} (rest : Yields move (next start) start returned panicked) :
    Yields move (Act.get >>= next) start returned panicked :=
  ⟨rest.chain, rest.value, rest.panic⟩

/-- Sequencing: the second program starts where the first one returned. -/
theorem bind {first : Act σ α} {next : α → Act σ β} {middle : α → σ → Prop}
    {returned : β → σ → Prop} (head : Yields move first start middle panicked)
    (rest : ∀ value state, ReflTransGen move start state → middle value state →
      Yields move (next value) state returned panicked) :
    Yields move (first >>= next) start returned panicked := by
  cases ran : first start with
  | mk result after =>
    have chain : ReflTransGen move start after := by simpa [ran] using head.chain
    cases result with
    | ok value =>
      have tail := rest value after chain (by simpa [ran] using head.value value (by rw [ran]))
      have run : (first >>= next) start = next value after := by rw [Act.bind_run, ran]
      constructor
      · rw [run]
        exact chain.trans tail.chain
      · rw [run]
        exact tail.value
      · rw [run]
        exact tail.panic
    | error text =>
      have run : (first >>= next) start = (.error text, after) := by rw [Act.bind_run, ran]
      exact of_run run chain (fun _ same => by cases same)
        (fun _ _ => by simpa [ran] using head.panic text (by rw [ran]))

theorem modify_bind {change : σ → σ} {next : Unit → Act σ β} {returned : β → σ → Prop}
    (chain : ReflTransGen move start (change start))
    (rest : Yields move (next ()) (change start) returned panicked) :
    Yields move (Act.modify change >>= next) start returned panicked :=
  ⟨chain.trans rest.chain, rest.value, rest.panic⟩

theorem lift_bind {result : Except String α} {next : α → Act σ β} {returned : β → σ → Prop}
    (rest : ∀ value, result = .ok value → Yields move (next value) start returned panicked)
    (panic : panicked start) : Yields move (Act.lift result >>= next) start returned panicked := by
  cases result with
  | ok value => exact rest value rfl
  | error text => exact Yields.raise text panic

end Yields

end Tendermint.Program
