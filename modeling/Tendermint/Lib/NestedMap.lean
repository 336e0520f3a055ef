import Mathlib

/-!
Maps whose values are maps. A row is made when it is first needed, changed in place, and taken
out when it is empty. The order in which a loop meets the entries of a map is left open.
-/

namespace Tendermint

structure Iteration (α : Type) where
  walk : List α → List α
  perm : ∀ items, (walk items).Perm items

def Iteration.listed (α : Type) : Iteration α := ⟨id, fun items => List.Perm.refl items⟩

end Tendermint

namespace Tendermint.NestedMap

section Map

variable {κ β : Type} [DecidableEq κ]

/-- The map with a value for the key, the given one if it had none. -/
def ensure (map : AList fun _ : κ => β) (key : κ) (value : β) : AList fun _ : κ => β :=
  match map.lookup key with
  | none => map.insert key value
  | some _ => map

def modify (map : AList fun _ : κ => β) (key : κ) (change : β → β) : AList fun _ : κ => β :=
  match map.lookup key with
  | none => map
  | some value => map.insert key (change value)

section

variable (map : AList fun _ : κ => β)

theorem lookup_ensure (key other : κ) (value : β) : (ensure map key value).lookup other =
      if other = key then some ((map.lookup key).getD value) else map.lookup other := by
  unfold ensure
  by_cases same : other = key
  · subst same
    cases present : map.lookup other <;> simp [present]
  · cases present : map.lookup key <;> simp [AList.lookup_insert_ne same, same]

theorem lookup_modify (key other : κ) (change : β → β) : (modify map key change).lookup other =
      if other = key then (map.lookup key).map change else map.lookup other := by
  unfold modify
  by_cases same : other = key
  · subst same
    cases present : map.lookup other <;> simp [present]
  · cases present : map.lookup key <;> simp [AList.lookup_insert_ne same, same]

theorem mem_iff_lookup (key : κ) : key ∈ map ↔ ∃ value, map.lookup key = some value := by
  rw [← AList.lookup_isSome, Option.isSome_iff_exists]

theorem mem_modify (key other : κ) (change : β → β) :
    other ∈ modify map key change ↔ other ∈ map := by
  rw [mem_iff_lookup, mem_iff_lookup, lookup_modify]
  by_cases same : other = key
  · subst same
    simp
  · simp [same]

theorem mem_ensure (key other : κ) (value : β) :
    other ∈ ensure map key value ↔ other = key ∨ other ∈ map := by
  rw [mem_iff_lookup, mem_iff_lookup, lookup_ensure]
  by_cases same : other = key
  · simp [same]
  · simp [same]

end

end Map

section Rows

variable {κ ι α : Type} [DecidableEq κ] [DecidableEq ι]

abbrev Table (κ ι α : Type) := AList fun _ : κ => AList fun _ : ι => α

def find (table : Table κ ι α) (key : κ) (column : ι) : Option α :=
  (table.lookup key).bind fun row => row.lookup column

def columns (table : Table κ ι α) (key : κ) : List ι := ((table.lookup key).getD ∅).keys

def prune (table : Table κ ι α) (key : κ) : Table κ ι α :=
  if (columns table key).length = 0 then table.erase key else table

theorem mem_columns (table : Table κ ι α) (key : κ) (column : ι) :
    column ∈ columns table key ↔ ∃ value, find table key column = some value := by
  unfold columns find
  cases table.lookup key with
  | none => simp
  | some row =>
    rw [Option.getD_some, ← AList.mem_keys, mem_iff_lookup]
    rfl

theorem mem_of_find {table : Table κ ι α} {key : κ} {column : ι} {value : α}
    (found : find table key column = some value) : key ∈ table := by
  obtain ⟨row, present, _⟩ := Option.bind_eq_some_iff.mp found
  exact (mem_iff_lookup table key).mpr ⟨row, present⟩

section

variable (table : Table κ ι α) (key other : κ)

theorem find_ensure (column : ι) :
    find (ensure table key ∅) other column = find table other column := by
  unfold find
  rw [lookup_ensure]
  by_cases same : other = key
  · subst same
    cases table.lookup other <;> simp
  · rw [if_neg same]

theorem find_insert {column index : ι} {value : α} (present : key ∈ table) :
    find (modify table key (·.insert column value)) other index =
      if other = key ∧ index = column then some value else find table other index := by
  obtain ⟨row, found⟩ := (mem_iff_lookup table key).mp present
  unfold find
  rw [lookup_modify]
  by_cases same : other = key
  · subst same
    by_cases hit : index = column
    · subst hit
      simp [found]
    · simp [found, hit, AList.lookup_insert_ne hit]
  · simp [same]

theorem find_erase (column index : ι) : find (modify table key (·.erase column)) other index =
      if other = key ∧ index = column then none else find table other index := by
  unfold find
  rw [lookup_modify]
  by_cases same : other = key
  · subst same
    by_cases hit : index = column
    · subst hit
      cases table.lookup other <;> simp
    · cases table.lookup other <;> simp [hit, AList.lookup_erase_ne hit]
  · simp [same]

theorem find_prune (column : ι) :
    find (prune table key) other column = find table other column := by
  unfold prune
  split
  · rename_i empty
    by_cases same : other = key
    · subst same
      have missing : column ∉ columns table other := by
        rw [List.length_eq_zero_iff.mp empty]
        exact List.not_mem_nil
      rw [mem_columns, not_exists] at missing
      rw [Option.eq_none_iff_forall_not_mem.mpr missing]
      simp [find]
    · unfold find
      rw [AList.lookup_erase_ne same]
  · rfl

end

omit [DecidableEq ι] in
theorem mem_prune_of_ne (table : Table κ ι α) {key other : κ} (apart : other ≠ key) :
    other ∈ prune table key ↔ other ∈ table := by
  unfold prune
  split
  · rw [AList.mem_erase]
    exact and_iff_right apart
  · rfl

end Rows

end Tendermint.NestedMap
