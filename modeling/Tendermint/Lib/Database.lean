import Tendermint.Lib.Keyed

/-!
An ordered database as a list of entries in the order of their keys: reading,
batches of writes, and the entries of a range of keys. A sorted database is
determined by what it answers, so the lemmas describe every operation by the
answers after it.
-/

namespace Tendermint.Database

variable {κ β : Type} [LinearOrder κ]

def get (db : List (κ × β)) (key : κ) : Option β :=
  (db.find? fun entry => entry.1 == key).map Prod.snd

def set (db : List (κ × β)) (key : κ) (value : β) : List (κ × β) :=
  Keyed.put Prod.fst (key, value) db

inductive Write (κ β : Type) where
  | set (key : κ) (value : β)
  | delete (key : κ)

def apply (db : List (κ × β)) : Write κ β → List (κ × β)
  | .set key value => set db key value
  | .delete key => db.filter fun entry => entry.1 != key

def write (db : List (κ × β)) (batch : List (Write κ β)) : List (κ × β) := batch.foldl apply db

def range (db : List (κ × β)) (start stop : κ) : List (κ × β) :=
  db.filter fun entry => decide (start ≤ entry.1) && decide (entry.1 < stop)

theorem get_nil (key : κ) : get ([] : List (κ × β)) key = none := rfl

theorem get_cons (entry : κ × β) (rest : List (κ × β)) (key : κ) :
    get (entry :: rest) key = if entry.1 = key then some entry.2 else get rest key := by
  by_cases same : entry.1 = key <;> simp [get, same]

theorem get_set (db : List (κ × β)) (key wanted : κ) (value : β) :
    get (set db key value) wanted = if key = wanted then some value else get db wanted := by
  induction db with
  | nil => rw [set, Keyed.put, get_cons, get_nil]
  | cons entry rest ih =>
  rw [set, Keyed.put]
  dsimp only
  split
  · rename_i same
    rw [get_cons, get_cons]
    by_cases hit : key = wanted
    · rw [if_pos hit, if_pos hit]
    · rw [if_neg hit, if_neg hit, if_neg (same ▸ hit)]
  · rename_i other
    split
    · rw [get_cons]
    · rw [get_cons, get_cons, ← set, ih]
      by_cases hit : key = wanted
      · rw [if_pos hit, if_pos hit, if_neg (fun same => other (hit.trans same.symm))]
      · rw [if_neg hit, if_neg hit]

theorem get_filter (db : List (κ × β)) (keep : κ → Bool) (wanted : κ) :
    get (db.filter fun entry => keep entry.1) wanted =
      if keep wanted then get db wanted else none := by
  induction db with
  | nil => simp [get_nil]
  | cons entry rest ih =>
  rw [List.filter_cons]
  by_cases kept : keep entry.1 = true
  · rw [if_pos kept, get_cons, ih, get_cons]
    by_cases same : entry.1 = wanted
    · rw [if_pos same, if_pos same, if_pos (same ▸ kept)]
    · rw [if_neg same, if_neg same]
  · rw [if_neg kept, ih, get_cons]
    by_cases same : entry.1 = wanted
    · rw [if_neg (same ▸ kept), if_neg (same ▸ kept)]
    · rw [if_neg same]

/-- What is read after a write, if it is of the wanted key. -/
def Write.answer (wanted : κ) : Write κ β → Option (Option β)
  | .set key value => if key = wanted then some (some value) else none
  | .delete key => if key = wanted then some none else none

/-- What is read after a batch, by the last write of the wanted key. -/
def lastWrite (wanted : κ) : List (Write κ β) → Option (Option β)
  | [] => none
  | change :: rest => (lastWrite wanted rest).or (change.answer wanted)

theorem last_write_append (wanted : κ) (first second : List (Write κ β)) :
    lastWrite wanted (first ++ second) = (lastWrite wanted second).or (lastWrite wanted first) := by
  induction first with
  | nil => simp [lastWrite]
  | cons change rest ih => rw [List.cons_append, lastWrite, ih, lastWrite, Option.or_assoc]

theorem get_apply (db : List (κ × β)) (change : Write κ β) (wanted : κ) :
    get (apply db change) wanted = (change.answer wanted).getD (get db wanted) := by
  cases change with
  | set key value =>
    rw [apply, get_set]
    by_cases hit : key = wanted <;> simp [Write.answer, hit]
  | delete key =>
  rw [apply, get_filter db (fun other => other != key)]
  by_cases hit : key = wanted
  · simp [Write.answer, hit]
  · simp [Write.answer, hit, Ne.symm hit]

theorem get_write (db : List (κ × β)) (batch : List (Write κ β)) (wanted : κ) :
    get (write db batch) wanted = (lastWrite wanted batch).getD (get db wanted) := by
  induction batch generalizing db with
  | nil => rfl
  | cons change rest ih =>
  have step : write db (change :: rest) = write (apply db change) rest := rfl
  rw [step, ih, get_apply, lastWrite]
  cases lastWrite wanted rest with
  | some answer => rfl
  | none => rfl

end Tendermint.Database
