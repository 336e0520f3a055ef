import Mathlib

/-!
Loops without a bound of their own. The body either leaves the loop with a result
or goes on with a new state. A loop whose measure falls returns, and what returns
does so for every amount of fuel from some amount on.
-/

namespace Tendermint.Loop

open Relation (ReflTransGen)

variable {σ ρ : Type} (body : σ → ρ ⊕ σ)

def Next (state next : σ) : Prop := body state = .inr next

def Reached (start state : σ) : Prop := ReflTransGen (Next body) start state

/-- The loop leaves with the result after finitely many rounds. -/
def Returns (start : σ) (result : ρ) : Prop :=
  ∃ last, Reached body start last ∧ body last = .inl result

/-- The loop with fuel: its result, or the state in which the fuel is used up. -/
def run : Nat → σ → ρ ⊕ σ
  | 0, state => .inr state
  | fuel + 1, state =>
    match body state with
    | .inl result => .inl result
    | .inr next => run fuel next

variable {body}

variable {start state : σ} {result : ρ}

theorem Reached.first {next last : σ} (first : body start = .inr next)
    (rest : Reached body next last) : Reached body start last :=
  ReflTransGen.head first rest

theorem Returns.first {next : σ} (first : body start = .inr next)
    (rest : Returns body next result) : Returns body start result := by
  obtain ⟨last, reached, left⟩ := rest
  exact ⟨last, reached.first first, left⟩

theorem Reached.keeps (reached : Reached body start state) (keep : σ → Prop) (begins : keep start)
    (step : ∀ before after, keep before → body before = .inr after → keep after) : keep state := by
  induction reached with
  | refl => exact begins
  | tail _ next kept => exact step _ _ kept next

/-- The rule for termination: an invariant, and a measure that falls while it holds. -/
theorem returns_of_measure {α : Type} {smaller : α → α → Prop} (founded : WellFounded smaller)
    (measure : σ → α) (keep : σ → Prop)
    (step : ∀ before after, keep before → body before = .inr after →
      keep after ∧ smaller (measure after) (measure before))
    (start : σ) (begins : keep start) : ∃ result, Returns body start result := by
  induction bound : measure start using founded.induction generalizing start with
  | _ value ih =>
    cases left : body start with
    | inl result => exact ⟨result, start, ReflTransGen.refl, left⟩
    | inr next =>
      obtain ⟨kept, falls⟩ := step start next begins left
      obtain ⟨result, returns⟩ := ih (measure next) (bound ▸ falls) next kept rfl
      exact ⟨result, returns.first left⟩

theorem run_more {fuel : Nat} (ran : run body fuel state = .inl result) (more : Nat)
    (enough : fuel ≤ more) : run body more state = .inl result := by
  induction fuel generalizing state more with
  | zero => cases ran
  | succ fuel ih =>
  obtain ⟨less, rfl⟩ : ∃ less, more = less + 1 := ⟨more - 1, by omega⟩
  unfold run at ran ⊢
  cases left : body state with
  | inl value =>
    rw [left] at ran
    exact ran
  | inr next =>
    rw [left] at ran
    exact ih ran less (by omega)

theorem run_iff_returns (start : σ) (result : ρ) :
    (∃ fuel, run body fuel start = .inl result) ↔ Returns body start result := by
  constructor
  · rintro ⟨fuel, ran⟩
    induction fuel generalizing start with
    | zero => cases ran
    | succ fuel ih =>
    unfold run at ran
    cases left : body start with
    | inl value =>
      rw [left] at ran
      cases ran
      exact ⟨start, ReflTransGen.refl, left⟩
    | inr next =>
      rw [left] at ran
      exact (ih next ran).first left
  · rintro ⟨last, reached, left⟩
    induction reached using ReflTransGen.head_induction_on with
    | refl => exact ⟨1, by rw [run, left]⟩
    | head next _ later =>
      obtain ⟨fuel, ran⟩ := later
      exact ⟨fuel + 1, by rw [run, next]; exact ran⟩

theorem Returns.unique {other : ρ} (returns : Returns body start result)
    (returnsToo : Returns body start other) : result = other := by
  obtain ⟨fuel, ran⟩ := (run_iff_returns start result).mpr returns
  obtain ⟨otherFuel, otherRan⟩ := (run_iff_returns start other).mpr returnsToo
  have same := run_more ran (max fuel otherFuel) (le_max_left _ _)
  rw [run_more otherRan (max fuel otherFuel) (le_max_right _ _)] at same
  exact (Sum.inl.inj same).symm

theorem Reached.returns (reached : Reached body start state) (returns : Returns body state result) :
    Returns body start result := by
  obtain ⟨last, later, left⟩ := returns
  exact ⟨last, reached.trans later, left⟩

end Tendermint.Loop
