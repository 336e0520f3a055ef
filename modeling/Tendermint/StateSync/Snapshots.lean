import Tendermint.Crypto.Merkle

/-!
internal/statesync/snapshots.go: the key of a snapshot, and the ranking of a pool. Three decimal
numbers and two byte strings are hashed as one string. The hash that the light client adds is no
part of the key.
-/

namespace Tendermint.StateSync

open List
open Types (Bytes)
open Merkle (Hashing)

structure Snapshot where
  height : UInt64
  format : UInt32
  chunks : UInt32
  hash : Bytes
  metadata : Bytes
  deriving DecidableEq

/-- The last digit of a number and the digits before it, as `%v` prints them. -/
def decimal (number : Nat) : Bytes :=
  if number < 10 then [UInt8.ofNat (48 + number)]
  else decimal (number / 10) ++ [UInt8.ofNat (48 + number % 10)]

def Snapshot.written (s : Snapshot) : Bytes :=
  decimal s.height.toNat ++ 58 :: (decimal s.format.toNat ++ 58 ::
    (decimal s.chunks.toNat ++ s.hash ++ s.metadata))

def Snapshot.key (hashing : Hashing) (s : Snapshot) : Bytes := hashing.sum s.written

theorem colon_not_mem_decimal (number : Nat) : (58 : UInt8) ∉ decimal number := by
  have digit : ∀ value < 10, (58 : UInt8) ≠ UInt8.ofNat (48 + value) := by decide
  induction number using decimal.induct with
  | case1 number small =>
    rw [decimal, if_pos small, mem_singleton]
    exact digit number small
  | case2 number large hypothesis =>
    rw [decimal, if_neg large, mem_append, mem_singleton, not_or]
    exact ⟨hypothesis, digit _ (Nat.mod_lt _ (by decide))⟩

theorem decimal_nonempty (number : Nat) : decimal number ≠ [] := by
  rw [decimal]
  split <;> simp

theorem decimal_injective {first second : Nat} (same : decimal first = decimal second) :
    first = second := by
  have digit : ∀ one < 10, ∀ other < 10,
      UInt8.ofNat (48 + one) = UInt8.ofNat (48 + other) → one = other := by decide
  induction first using decimal.induct generalizing second with
  | case1 first small =>
    rw [decimal, if_pos small, decimal] at same
    split at same
    · exact digit _ small _ (by assumption) (singleton_inj.mp same)
    · exact absurd (append_eq_singleton_iff.mp same.symm) (by simp [decimal_nonempty])
  | case2 first large hypothesis =>
    rw [decimal, if_neg large] at same
    by_cases small : second < 10
    · rw [decimal.eq_def second, if_pos small] at same
      exact absurd (append_eq_singleton_iff.mp same) (by simp [decimal_nonempty])
    · rw [decimal.eq_def second, if_neg small] at same
      obtain ⟨before, last⟩ := append_inj' same rfl
      have quotient := hypothesis before
      have rest := digit _ (Nat.mod_lt _ (by decide)) _ (Nat.mod_lt _ (by decide))
        (singleton_inj.mp last)
      omega

theorem decimal_before_colon (number : Nat) (rest : Bytes) :
    (decimal number ++ 58 :: rest).takeWhile (· != 58) = decimal number := by
  rw [takeWhile_append_of_pos]
  · simp
  · intro byte member
    rw [bne_iff_ne]
    rintro rfl
    exact colon_not_mem_decimal number member

theorem decimal_colon {first second : Nat} {rest others : Bytes}
    (same : decimal first ++ 58 :: rest = decimal second ++ 58 :: others) :
    first = second ∧ rest = others := by
  have number : decimal first = decimal second := by
    rw [← decimal_before_colon first rest, same, decimal_before_colon]
  rw [number] at same
  exact ⟨decimal_injective number, (List.cons.inj (append_cancel_left same)).2⟩

/-- No other snapshot has the key of one, if and only if its last number is one digit and
nothing is written behind it. -/
theorem key_identifies_iff (hashing : Hashing) (injective : Function.Injective hashing.sum)
    (a : Snapshot) :
    (∀ b : Snapshot, a.key hashing = b.key hashing → a = b) ↔
      a.chunks.toNat < 10 ∧ a.hash = [] ∧ a.metadata = [] := by
  constructor
  · intro identifies
    by_contra other
    by_cases empty : a.hash = []
    · by_cases bare : a.metadata = []
      · -- the last digit moves from the number to the hash
        have large : ¬ a.chunks.toNat < 10 := fun small => other ⟨small, empty, bare⟩
        have size : (a.chunks / 10).toNat = a.chunks.toNat / 10 := UInt32.toNat_div ..
        have moved := identifies { a with
          chunks := a.chunks / 10
          hash := [UInt8.ofNat (48 + a.chunks.toNat % 10)] } (by
            simp only [Snapshot.key, Snapshot.written, empty, size]
            rw [decimal.eq_def a.chunks.toNat, if_neg large, append_nil])
        have hash := congrArg Snapshot.hash moved
        simp [empty] at hash
      · have moved := identifies { a with hash := a.metadata, metadata := [] } (by
          simp [Snapshot.key, Snapshot.written, empty])
        exact bare (congrArg Snapshot.metadata moved)
    · have moved := identifies { a with hash := [], metadata := a.hash ++ a.metadata } (by
        simp [Snapshot.key, Snapshot.written])
      exact empty (congrArg Snapshot.hash moved)
  · rintro ⟨small, hash, metadata⟩ b same
    -- the colons separate the numbers; only one byte is left for the third
    obtain ⟨height, rest⟩ := decimal_colon (injective same)
    obtain ⟨format, tail⟩ := decimal_colon rest
    rw [hash, metadata, append_nil, append_nil, decimal.eq_def a.chunks.toNat,
      if_pos small, append_assoc] at tail
    rcases singleton_eq_append_iff.mp tail with ⟨none, _⟩ | ⟨chunks, behind⟩
    · exact absurd none (decimal_nonempty _)
    · obtain ⟨noHash, noMetadata⟩ := append_eq_nil_iff.mp behind
      have number : decimal a.chunks.toNat = decimal b.chunks.toNat := by
        rw [chunks, decimal, if_pos small]
      cases a
      cases b
      simp only [Snapshot.mk.injEq]
      exact ⟨UInt64.toNat_inj.mp height, UInt32.toNat_inj.mp format,
        UInt32.toNat_inj.mp (decimal_injective number), hash.trans noHash.symm,
        metadata.trans noMetadata.symm⟩

theorem bare_snapshot_identified :
    Snapshot.key ⟨id⟩ ⟨1, 0, 1, [], []⟩ ≠ Snapshot.key ⟨id⟩ ⟨1, 0, 12, [], []⟩ := by
  intro same
  have equal := (key_identifies_iff ⟨id⟩ Function.injective_id ⟨1, 0, 1, [], []⟩).mpr
    ⟨by decide, rfl, rfl⟩ _ same
  exact absurd equal (by decide)

/-- A byte may stand at the end of the hash or at the start of the metadata. -/
theorem snapshots_share_key : Function.Injective (id : Bytes → Bytes) ∧
    Snapshot.key ⟨id⟩ ⟨5, 1, 3, [7, 8], [9]⟩ = Snapshot.key ⟨id⟩ ⟨5, 1, 3, [7], [8, 9]⟩ ∧
    (⟨5, 1, 3, [7, 8], [9]⟩ : Snapshot) ≠ ⟨5, 1, 3, [7], [8, 9]⟩ :=
  ⟨Function.injective_id, by simp [Snapshot.key, Snapshot.written], by decide⟩

/-! ### Ranking -/

structure SnapshotPool where
  snapshots : List Snapshot
  numPeers : Snapshot → Nat

namespace SnapshotPool

variable (p : SnapshotPool)

def medianPeers : Nat :=
  let numPeers := (p.snapshots.map p.numPeers).insertionSort (· ≤ ·)
  let median := numPeers.length / 2
  if numPeers.length % 2 = 0 then (numPeers.getD (median - 1) 0 + numPeers.getD median 0) / 2
  else numPeers.getD median 0

def less (a b : Snapshot) : Bool :=
  if b.height < a.height then true
  else if a.height < b.height then false
  else if p.numPeers b < p.numPeers a then true
  else if b.format < a.format then true
  else if a.format < b.format then false
  else false

def candidates (common : Bool) : List Snapshot :=
  p.snapshots.filter fun s => decide (p.medianPeers < p.numPeers s) == common

structure StrictWeakOrder {α : Type} (less : α → α → Bool) (items : List α) : Prop where
  irrefl : ∀ a ∈ items, less a a = false
  trans : ∀ a ∈ items, ∀ b ∈ items, ∀ c ∈ items, less a b → less b c → less a c
  incomparable : ∀ a ∈ items, ∀ b ∈ items, ∀ c ∈ items, less a b = false → less b c = false →
    less a c = false

/-- What `sort.Slice` promises: nothing about the order unless the function is one. -/
def SortSlice {α : Type} (less : α → α → Bool) (input output : List α) : Prop :=
  output.Perm input ∧ (StrictWeakOrder less input → output.Pairwise fun a b => less b a = false)

/-- What `Ranked` may return, for any order of the map and any sort. -/
def Ranked (ranking : List Snapshot) : Prop :=
  ∃ common uncommon, ranking = common ++ uncommon ∧
    SortSlice p.less (p.candidates true) common ∧
    SortSlice p.less (p.candidates false) uncommon

def grade (s : Snapshot) : Nat ×ₗ (Nat ×ₗ Nat) :=
  toLex (s.height.toNat, toLex (p.numPeers s, s.format.toNat))

/-- Of two candidates with one height, the one with fewer peers has no greater format. -/
def Consistent (items : List Snapshot) : Prop :=
  ∀ a ∈ items, ∀ b ∈ items, a.height = b.height → p.numPeers a < p.numPeers b → a.format ≤ b.format

variable {p} {items : List Snapshot}

theorem less_iff {a b : Snapshot} : p.less a b = true ↔ b.height < a.height ∨
    (a.height = b.height ∧ (p.numPeers b < p.numPeers a ∨ b.format < a.format)) := by
  simp only [less, UInt64.lt_iff_toNat_lt, UInt32.lt_iff_toNat_lt, ← UInt64.toNat_inj]
  split_ifs <;> simp <;> omega

theorem Consistent.less_eq (consistent : p.Consistent items) {a b : Snapshot}
    (first : a ∈ items) (second : b ∈ items) : p.less a b = decide (p.grade b < p.grade a) := by
  have bound := consistent a first b second
  rw [Bool.eq_iff_iff, less_iff, decide_eq_true_iff, grade, grade, Prod.Lex.toLex_lt_toLex,
    Prod.Lex.toLex_lt_toLex]
  simp only [UInt64.lt_iff_toNat_lt, UInt32.lt_iff_toNat_lt, UInt32.le_iff_toNat_le,
    ← UInt64.toNat_inj] at bound ⊢
  omega

theorem strict_weak_iff : StrictWeakOrder p.less items ↔ p.Consistent items := by
  constructor
  · intro order a first b second height fewer
    by_contra above
    -- the greater format and the greater number of peers win against each other
    have cycle := order.trans a first b second a first
      (less_iff.mpr (.inr ⟨height, .inr (UInt32.not_le.mp above)⟩))
      (less_iff.mpr (.inr ⟨height.symm, .inl fewer⟩))
    rw [order.irrefl a first] at cycle
    cases cycle
  · intro consistent
    constructor
    · intro a first
      simp [consistent.less_eq first first]
    · intro a first b second c third
      simp only [consistent.less_eq, first, second, third, decide_eq_true_eq]
      exact fun forth next => next.trans forth
    · intro a first b second c third
      simp only [consistent.less_eq, first, second, third, decide_eq_false_iff_not, not_lt]
      exact le_trans

theorem Consistent.sorted (consistent : p.Consistent items) {output : List Snapshot}
    (sorts : SortSlice p.less items output) :
    (output.map p.grade).Pairwise (· ≥ ·) := by
  rw [pairwise_map]
  refine (sorts.2 (strict_weak_iff.mpr consistent)).imp_of_mem fun first second after => ?_
  rw [consistent.less_eq (sorts.1.subset second) (sorts.1.subset first)] at after
  simpa using after

theorem Consistent.sorted_unique (consistent : p.Consistent items)
    {output other : List Snapshot} (sorts : SortSlice p.less items output)
    (otherSorts : SortSlice p.less items other) :
    output.map p.grade = other.map p.grade :=
  ((sorts.1.trans otherSorts.1.symm).map _).eq_of_pairwise
    (fun _ _ _ _ above below => le_antisymm below above) (consistent.sorted sorts)
    (consistent.sorted otherSorts)

structure WellRanked (p : SnapshotPool) : Prop where
  order : ∀ common, StrictWeakOrder p.less (p.candidates common)
  unique : ∀ first second, p.Ranked first → p.Ranked second → first.map p.grade = second.map p.grade
  sorted : ∀ ranking, p.Ranked ranking → ∃ common uncommon, ranking = common ++ uncommon ∧
    (∀ s ∈ common, p.medianPeers < p.numPeers s) ∧
    (∀ s ∈ uncommon, p.numPeers s ≤ p.medianPeers) ∧
    (common.map p.grade).Pairwise (· ≥ ·) ∧
    (uncommon.map p.grade).Pairwise (· ≥ ·)

/-- The ranking is well defined exactly if on neither side of the median two snapshots of one
height have their peers and their formats in opposite order. -/
theorem well_ranked_iff (p : SnapshotPool) :
    p.WellRanked ↔ ∀ common, p.Consistent (p.candidates common) := by
  constructor
  · exact fun ranked common => strict_weak_iff.mp (ranked.order common)
  intro consistent
  refine ⟨fun common => strict_weak_iff.mpr (consistent common), ?_, ?_⟩
  · rintro _ _ ⟨common, uncommon, rfl, above, below⟩ ⟨others, rest, rfl, alsoAbove, alsoBelow⟩
    rw [map_append, map_append, (consistent true).sorted_unique above alsoAbove,
      (consistent false).sorted_unique below alsoBelow]
  · rintro _ ⟨common, uncommon, rfl, above, below⟩
    refine ⟨common, uncommon, rfl, fun s member => ?_, fun s member => ?_,
      (consistent true).sorted above, (consistent false).sorted below⟩
    · simpa using (mem_filter.mp (above.1.subset member)).2
    · simpa using (mem_filter.mp (below.1.subset member)).2

/-- The metadata is the number of peers. -/
def opposed : SnapshotPool where
  snapshots := [⟨1, 2, 1, [], [1]⟩, ⟨1, 1, 1, [], [2]⟩, ⟨2, 1, 1, [], [5]⟩, ⟨3, 1, 1, [], [5]⟩]
  numPeers s := (s.metadata.getLastD 0).toNat

/-- At height 1 more peers and a greater format each win. -/
theorem opposed_not_well_ranked : ¬opposed.WellRanked := by
  intro ranked
  have formats := strict_weak_iff.mp (ranked.order false) ⟨1, 2, 1, [], [1]⟩ (by decide)
    ⟨1, 1, 1, [], [2]⟩ (by decide) rfl (by decide)
  exact absurd formats (by decide)

end SnapshotPool

end Tendermint.StateSync
