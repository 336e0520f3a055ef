import Mathlib

/-!
internal/p2p/conn_tracker.go: the connections of each address, and when the last one was
accepted. `newConnTracker` is given a window and does not keep it. An address without
connections has no entry in the cache, which is a count of zero here; `Len` is left out.
-/

namespace Tendermint.P2P

open List Function

structure ConnTracker where
  cache : String → Nat
  lastConnect : String → Option Int
  max : Nat
  window : Int

inductive ConnError where
  | connections (address : String) (num max : Nat)
  | withinWindow (address : String) (window : Int)

inductive ConnCall where
  /-- The two times are those of the check and of the entry. -/
  | addConn (address : String) (now stamp : Int)
  | removeConn (address : String) (now : Int)

namespace ConnTracker

/-- The field of the window is not set. -/
def new (max : Nat) (_window : Int) : ConnTracker := ⟨fun _ => 0, fun _ => none, max, 0⟩

/-- `time.Since` of the zero time is the longest duration, which is below no window. -/
def recent (rat : ConnTracker) (address : String) (now : Int) : Bool :=
  (rat.lastConnect address).any fun last => now - last < rat.window

def addConn (rat : ConnTracker) (address : String) (now stamp : Int) :
    Except ConnError ConnTracker :=
  if rat.max ≤ rat.cache address then .error (.connections address (rat.cache address) rat.max)
  else if rat.cache address = 0 ∧ rat.recent address now then
    .error (.withinWindow address rat.window)
  else .ok { rat with
    cache := update rat.cache address (rat.cache address + 1)
    lastConnect := update rat.lastConnect address (some stamp) }

def removeConn (rat : ConnTracker) (address : String) (now : Int) : ConnTracker :=
  { rat with
    cache := update rat.cache address (rat.cache address - 1)
    lastConnect :=
      if (rat.lastConnect address).any fun last => rat.window < now - last then
        update rat.lastConnect address none
      else rat.lastConnect }

/-- A tracker with the connections that it has accepted, the newest one first, and those of
them that were removed. -/
structure History where
  tracker : ConnTracker
  accepted : List (String × Int)
  removed : List String

namespace History

def step (history : History) : ConnCall → History
  | .addConn address now stamp =>
    match history.tracker.addConn address now stamp with
    | .error _ => history
    | .ok tracker => ⟨tracker, (address, stamp) :: history.accepted, history.removed⟩
  | .removeConn address now =>
    ⟨history.tracker.removeConn address now, history.accepted,
      if history.tracker.cache address = 0 then history.removed else address :: history.removed⟩

def run (max : Nat) (window : Int) (calls : List ConnCall) : History :=
  calls.foldl step ⟨.new max window, [], []⟩

structure Counted (max : Nat) (history : History) : Prop where
  limit : history.tracker.max = max
  bounded : ∀ address, history.tracker.cache address ≤ max
  balance : ∀ address, history.tracker.cache address + history.removed.count address =
    (history.accepted.map Prod.fst).count address

variable {max : Nat} {window : Int} {history : History}

theorem Counted.step (counted : Counted max history) (call : ConnCall) :
    Counted max (history.step call) := by
  obtain ⟨limit, bounded, balance⟩ := counted
  cases call with
  | addConn address now stamp =>
    rw [History.step, addConn]
    split_ifs with full early
    · exact ⟨limit, bounded, balance⟩
    · exact ⟨limit, bounded, balance⟩
    · refine ⟨limit, fun other => ?_, fun other => ?_⟩
      · by_cases same : other = address
        · subst same
          simp only [update_self]
          omega
        · simpa only [update_of_ne same] using bounded other
      · have before := balance other
        by_cases same : other = address
        · subst same
          simp only [update_self, map_cons, count_cons_self]
          omega
        · simpa only [update_of_ne same, map_cons,
            count_cons_of_ne (Ne.symm same)] using before
  | removeConn address now =>
    rw [History.step, removeConn]
    refine ⟨limit, fun other => ?_, fun other => ?_⟩
    · have below := bounded other
      by_cases same : other = address
      · subst same
        simp only [update_self]
        omega
      · simpa only [update_of_ne same] using below
    · have before := balance other
      by_cases same : other = address
      · subst same
        simp only [update_self]
        split
        · omega
        · rw [count_cons_self]
          omega
      · simp only [update_of_ne same]
        split
        · exact before
        · rwa [count_cons_of_ne (Ne.symm same)]

theorem run_counted (max : Nat) (window : Int) (calls : List ConnCall) :
    Counted max (run max window calls) := by
  unfold run
  have start : Counted max ⟨.new max window, [], []⟩ :=
    ⟨rfl, fun _ => Nat.zero_le _, fun _ => rfl⟩
  exact List.foldlRecOn calls History.step start fun _ counted call _ => counted.step call

end History

def Timed (calls : List ConnCall) : Prop :=
  (calls.flatMap fun call => match call with
    | .addConn _ now stamp => [now, stamp]
    | .removeConn _ now => [now]).Pairwise (· ≤ ·)

structure RateLimits (max : Nat) (window : Int) : Prop where
  counted : ∀ calls, Timed calls → History.Counted max (.run max window calls)
  spaced : ∀ calls address now stamp last, Timed (calls ++ [.addConn address now stamp]) →
    (History.run max window calls).tracker.cache address = 0 →
    (History.run max window calls).accepted.lookup address = some last →
    last ≤ now → now - last < window →
    ∃ error, (History.run max window calls).tracker.addConn address now stamp = .error error

theorem not_rate_limits {max : Nat} {window : Int} (room : max ≠ 0) (positive : 0 < window) :
    ¬RateLimits max window := by
  intro limits
  obtain ⟨error, refused⟩ := limits.spaced [.addConn "10.0.0.1" 0 0, .removeConn "10.0.0.1" 0]
    "10.0.0.1" 0 0 0 (by simp [Timed])
    (by simp [History.run, History.step, addConn, removeConn, new, recent, room])
    (by simp [History.run, History.step, addConn, new, recent, room])
    (Int.le_refl 0) positive
  simp [History.run, History.step, addConn, removeConn, new, recent, room] at refused

/-- The window is never enforced. -/
theorem rate_limits_iff (max : Nat) (window : Int) :
    RateLimits max window ↔ max = 0 ∨ window ≤ 0 := by
  constructor
  · intro limits
    by_contra enforced
    rw [not_or, Int.not_le] at enforced
    exact not_rate_limits enforced.1 enforced.2 limits
  · intro loose
    refine ⟨fun calls _ => History.run_counted max window calls, ?_⟩
    intro calls address now stamp last _ _ _ past within
    rcases loose with none | never
    · refine ⟨_, if_pos ?_⟩
      rw [(History.run_counted max window calls).limit, none]
      exact Nat.zero_le _
    · omega

/-- One connection at a time and a minute between them. -/
theorem minute_not_enforced : ¬RateLimits 1 60000000000 :=
  not_rate_limits (by decide) (by decide)

end ConnTracker

end Tendermint.P2P
