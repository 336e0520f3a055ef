import Tendermint.Types.ValidatorSet

/-!
Reaping from the two mempools. The list of v0 is read from the front. The priority
queue of v1 is popped and what was popped is pushed back on every way out;
container/heap is taken as documented, and the order of that pool is the order in
which the queue yields its transactions. Sizes and gas are added in `int64`. The
transactions lie in memory, so their sizes stay exact; the gas is what the
application answered.
-/

namespace Tendermint.Mempool

open Types List

structure PooledTx where
  tx : Bytes
  gasWanted : Int
  priority : Int
  timestamp : Time
  deriving DecidableEq

/-- The size of the transactions as fields of the data of a block. -/
def computeProtoSizeForTxs (txs : List Bytes) : Int :=
  (txs.map fun tx => 1 + (tx.length : Int) + (Wire.putUvarint tx.length).length).sum

namespace CListMempool

def reapLoop (maxBytes maxGas : Int) : List PooledTx → List Bytes → Int → Int → List Bytes
  | [], txs, _, _ => txs
  | memTx :: rest, txs, totalGas, runningSize =>
    let dataSize := computeProtoSizeForTxs [memTx.tx]
    if -1 < maxBytes ∧ maxBytes < int64 (runningSize + dataSize) then
      (txs ++ [memTx.tx]).dropLast
    else
      let newTotalGas := int64 (totalGas + memTx.gasWanted)
      if -1 < maxGas ∧ maxGas < newTotalGas then (txs ++ [memTx.tx]).dropLast
      else reapLoop maxBytes maxGas rest (txs ++ [memTx.tx]) newTotalGas
        (int64 (runningSize + dataSize))

def reapMaxBytesMaxGas (pool : List PooledTx) (maxBytes maxGas : Int) : List Bytes :=
  reapLoop maxBytes maxGas pool [] 0 0

def reapMaxTxsLoop (max : Int) : List PooledTx → List Bytes → List Bytes
  | [], txs => txs
  | memTx :: rest, txs =>
    if txs.length ≤ max then reapMaxTxsLoop max rest (txs ++ [memTx.tx]) else txs

def reapMaxTxs (pool : List PooledTx) (max : Int) : List Bytes :=
  reapMaxTxsLoop (if max < 0 then pool.length else max) pool []

end CListMempool

def PooledTx.less (first second : PooledTx) : Bool :=
  if first.priority = second.priority then first.timestamp < second.timestamp
  else second.priority < first.priority

/-- container/heap on the queue, which `Pop` only gets when it is not empty. -/
structure HeapPackage where
  Valid : List PooledTx → Prop
  pop : PooledTx → List PooledTx → PooledTx × List PooledTx
  push : List PooledTx → PooledTx → List PooledTx
  pop_perm : ∀ first rest, ((pop first rest).1 :: (pop first rest).2).Perm (first :: rest)
  push_perm : ∀ queue wtx, (push queue wtx).Perm (wtx :: queue)
  pop_valid : ∀ first rest, Valid (first :: rest) → Valid (pop first rest).2
  pop_least : ∀ first rest, Valid (first :: rest) →
    ∀ other ∈ (pop first rest).2, ¬ other.less (pop first rest).1

namespace TxMempool

variable (heap : HeapPackage)

def popAll : Nat → List PooledTx → List PooledTx
  | 0, _ => []
  | _ + 1, [] => []
  | fuel + 1, first :: rest =>
    (heap.pop first rest).1 :: popAll fuel (heap.pop first rest).2

def order (queue : List PooledTx) : List PooledTx := popAll heap queue.length queue

def requeue (wTxs queue : List PooledTx) : List PooledTx := wTxs.foldl heap.push queue

def reapLoop (maxBytes maxGas : Int) :
    Nat → List PooledTx → List PooledTx → List Bytes → Int → Int → List Bytes × List PooledTx
  | 0, queue, wTxs, txs, _, _ => (txs, requeue heap wTxs queue)
  | _ + 1, [], wTxs, txs, _, _ => (txs, requeue heap wTxs [])
  | fuel + 1, first :: rest, wTxs, txs, totalGas, totalSize =>
    let wtx := (heap.pop first rest).1
    let queue := (heap.pop first rest).2
    let size := computeProtoSizeForTxs [wtx.tx]
    if -1 < maxBytes ∧ maxBytes < int64 (totalSize + size) then
      ((txs ++ [wtx.tx]).dropLast, requeue heap (wTxs ++ [wtx]) queue)
    else
      let gas := int64 (totalGas + wtx.gasWanted)
      if -1 < maxGas ∧ maxGas < gas then
        ((txs ++ [wtx.tx]).dropLast, requeue heap (wTxs ++ [wtx]) queue)
      else if 50 ≤ (txs ++ [wtx.tx]).length then
        ((txs ++ [wtx.tx]).take 50, requeue heap (wTxs ++ [wtx]) queue)
      else reapLoop maxBytes maxGas fuel queue (wTxs ++ [wtx]) (txs ++ [wtx.tx]) gas
        (int64 (totalSize + size))

def reapMaxBytesMaxGas (queue : List PooledTx) (maxBytes maxGas : Int) :
    List Bytes × List PooledTx :=
  reapLoop heap maxBytes maxGas queue.length queue [] [] 0 0

def reapMaxTxsLoop (max : Int) :
    Nat → List PooledTx → List PooledTx → List Bytes → List Bytes × List PooledTx
  | 0, queue, wTxs, txs => (txs, requeue heap wTxs queue)
  | _ + 1, [], wTxs, txs => (txs, requeue heap wTxs [])
  | fuel + 1, first :: rest, wTxs, txs =>
    if txs.length < max then
      reapMaxTxsLoop max fuel (heap.pop first rest).2 (wTxs ++ [(heap.pop first rest).1])
        (txs ++ [(heap.pop first rest).1.tx])
    else (txs, requeue heap wTxs (first :: rest))

def reapMaxTxs (queue : List PooledTx) (max : Int) : List Bytes × List PooledTx :=
  reapMaxTxsLoop heap (if max < 0 then queue.length else max) queue.length queue [] []

end TxMempool

/-! ### The order and the contents of the priority pool -/

namespace TxMempool

variable {heap : HeapPackage}

theorem requeue_perm (wTxs queue : List PooledTx) :
    (requeue heap wTxs queue).Perm (wTxs ++ queue) := by
  induction wTxs generalizing queue with
  | nil => exact .refl _
  | cons wtx rest ih =>
    exact (ih _).trans (((heap.push_perm queue wtx).append_left rest).trans perm_middle)

theorem pop_length (first : PooledTx) (rest : List PooledTx) :
    (heap.pop first rest).2.length = rest.length := by
  simpa using (heap.pop_perm first rest).length_eq

theorem popped_perm (wTxs : List PooledTx) (first : PooledTx) (rest : List PooledTx) :
    (wTxs ++ [(heap.pop first rest).1] ++ (heap.pop first rest).2).Perm
      (wTxs ++ first :: rest) := by
  rw [append_assoc]
  exact (heap.pop_perm first rest).append_left wTxs

theorem pop_all_perm {fuel : Nat} (queue : List PooledTx) (enough : queue.length ≤ fuel) :
    (popAll heap fuel queue).Perm queue := by
  induction fuel generalizing queue with
  | zero => rw [length_eq_zero_iff.mp (Nat.le_zero.mp enough), popAll]
  | succ fuel ih =>
  cases queue with
  | nil => exact .refl _
  | cons first rest =>
  have fewer : (heap.pop first rest).2.length ≤ fuel := by
    rw [pop_length]
    simpa using enough
  exact ((ih _ fewer).cons _).trans (heap.pop_perm first rest)

theorem order_perm (queue : List PooledTx) : (order heap queue).Perm queue :=
  pop_all_perm queue le_rfl

theorem pop_all_sorted (fuel : Nat) {queue : List PooledTx} (enough : queue.length ≤ fuel)
    (valid : heap.Valid queue) :
    (popAll heap fuel queue).Pairwise fun first second => ¬ second.less first := by
  induction fuel generalizing queue with
  | zero => exact .nil
  | succ fuel ih =>
  cases queue with
  | nil => exact .nil
  | cons first rest =>
  have fewer : (heap.pop first rest).2.length ≤ fuel := by
    rw [pop_length]
    simpa using enough
  refine .cons (fun other member => ?_) (ih fewer (heap.pop_valid first rest valid))
  exact heap.pop_least first rest valid other ((pop_all_perm _ fewer).mem_iff.mp member)

/-- A valid queue yields its transactions by falling priority, and by rising time among
those of one priority. -/
theorem order_sorted {queue : List PooledTx} (valid : heap.Valid queue) :
    (order heap queue).Pairwise fun first second => ¬ second.less first :=
  pop_all_sorted _ le_rfl valid

theorem requeue_popped (wTxs : List PooledTx) (first : PooledTx) (rest : List PooledTx) :
    (requeue heap (wTxs ++ [(heap.pop first rest).1]) (heap.pop first rest).2).Perm
      (wTxs ++ first :: rest) :=
  (requeue_perm _ _).trans (popped_perm wTxs first rest)

section

variable (maxBytes maxGas : Int) (fuel : Nat) (queue wTxs : List PooledTx) (txs : List Bytes)
  (totalGas totalSize : Int)

theorem reap_loop_perm :
    (reapLoop heap maxBytes maxGas fuel queue wTxs txs totalGas totalSize).2.Perm
      (wTxs ++ queue) := by
  induction fuel generalizing queue wTxs txs totalGas totalSize with
  | zero => exact requeue_perm wTxs queue
  | succ fuel ih =>
  cases queue with
  | nil => exact requeue_perm wTxs []
  | cons first rest =>
  rw [reapLoop]
  dsimp only
  split_ifs
  · exact requeue_popped wTxs first rest
  · exact requeue_popped wTxs first rest
  · exact requeue_popped wTxs first rest
  · exact (ih _ _ _ _ _).trans (popped_perm wTxs first rest)

theorem reap_loop_eq (few : txs.length < 50) :
    (reapLoop heap maxBytes maxGas fuel queue wTxs txs totalGas totalSize).1 =
      CListMempool.reapLoop maxBytes maxGas ((popAll heap fuel queue).take (50 - txs.length)) txs
        totalGas totalSize := by
  induction fuel generalizing queue wTxs txs totalGas totalSize with
  | zero =>
    rw [popAll, take_nil]
    rfl
  | succ fuel ih =>
  cases queue with
  | nil =>
    rw [popAll, take_nil]
    rfl
  | cons first rest =>
  obtain ⟨room, left⟩ : ∃ room, 50 - txs.length = room + 1 := ⟨49 - txs.length, by omega⟩
  rw [reapLoop, popAll, left, take_succ_cons, CListMempool.reapLoop]
  dsimp only
  split_ifs with large costly full
  · rfl
  · rfl
  · rw [length_append, length_singleton] at full
    rw [show room = 0 by omega, take_zero, CListMempool.reapLoop,
      take_of_length_le (by rw [length_append, length_singleton]; omega)]
  · rw [length_append, length_singleton] at full
    rw [ih _ _ _ _ _ (by rw [length_append, length_singleton]; omega),
      length_append, length_singleton, show 50 - (txs.length + 1) = room by omega]

end

theorem reap_max_txs_loop_spec (heap : HeapPackage) (max : Int) (fuel : Nat)
    (queue wTxs : List PooledTx)
    (txs : List Bytes) :
    (reapMaxTxsLoop heap max fuel queue wTxs txs).1 =
      txs ++ ((popAll heap fuel queue).take (max - txs.length).toNat).map PooledTx.tx ∧
    (reapMaxTxsLoop heap max fuel queue wTxs txs).2.Perm (wTxs ++ queue) := by
  induction fuel generalizing queue wTxs txs with
  | zero => exact ⟨by simp [reapMaxTxsLoop, popAll], requeue_perm wTxs queue⟩
  | succ fuel ih =>
  cases queue with
  | nil => exact ⟨by simp [reapMaxTxsLoop, popAll], requeue_perm wTxs []⟩
  | cons first rest =>
  rw [reapMaxTxsLoop, popAll]
  split_ifs with room
  · obtain ⟨reaped, same⟩ := ih (heap.pop first rest).2 (wTxs ++ [(heap.pop first rest).1])
      (txs ++ [(heap.pop first rest).1.tx])
    refine ⟨?_, same.trans (popped_perm wTxs first rest)⟩
    rw [reaped, length_append, length_singleton,
      show (max - txs.length).toNat = (max - (txs.length + 1 : Nat)).toNat + 1 by omega,
      take_succ_cons, map_cons, append_assoc, singleton_append]
  · refine ⟨?_, requeue_perm wTxs _⟩
    rw [show (max - txs.length).toNat = 0 by omega, take_zero, map_nil, append_nil]

end TxMempool

/-! ### The number of transactions -/

def firstTxs (pool : List PooledTx) (max : Int) : List Bytes :=
  ((if max < 0 then pool else pool.take max.toNat)).map PooledTx.tx

theorem CListMempool.reap_max_txs_loop_eq (max : Int) (pool : List PooledTx) (txs : List Bytes) :
    reapMaxTxsLoop max pool txs =
      txs ++ (pool.take (max + 1 - txs.length).toNat).map PooledTx.tx := by
  induction pool generalizing txs with
  | nil => simp [reapMaxTxsLoop]
  | cons memTx rest ih =>
  rw [reapMaxTxsLoop]
  split_ifs with room
  · rw [ih, length_append, length_singleton,
      show (max + 1 - txs.length).toNat = (max + 1 - (txs.length + 1 : Nat)).toNat + 1 by omega,
      take_succ_cons, map_cons, append_assoc, singleton_append]
  · rw [show (max + 1 - txs.length).toNat = 0 by omega, take_zero, map_nil,
      append_nil]

def sizeOf (items : List PooledTx) : Int := computeProtoSizeForTxs (items.map PooledTx.tx)

def gasOf (items : List PooledTx) : Int := (items.map PooledTx.gasWanted).sum

/-- The transactions keep the limits, with their gas as it is read. -/
def Within (maxBytes maxGas : Int) (reading : Int → Int) (items : List PooledTx) : Prop :=
  (0 ≤ maxBytes → sizeOf items ≤ maxBytes) ∧ (0 ≤ maxGas → reading (gasOf items) ≤ maxGas)

/-- What is reaped is a first part of the pool that keeps the limits and is followed by
nothing or by a transaction that breaks one. -/
def Reaps (maxBytes maxGas : Int) (items : List PooledTx) (reaped : List Bytes) : Prop :=
  ∃ k ≤ items.length, reaped = (items.take k).map PooledTx.tx ∧
    Within maxBytes maxGas id (items.take k) ∧
    (k < items.length → ¬ Within maxBytes maxGas id (items.take (k + 1)))

/-- The greatest sum of the gas of the first transactions, each sum as it is read. -/
def peak (reading : Int → Int) (items : List PooledTx) : Nat → Int
  | 0 => 0
  | k + 1 => max (peak reading items k) (reading (gasOf (items.take (k + 1))))

/-- Up to every transaction, the sums of gas in `int64` reach as high as the exact ones. -/
def Steady (items : List PooledTx) : Prop :=
  ∀ k ≤ items.length, peak int64 items k = peak id items k

theorem size_append (first second : List PooledTx) :
    sizeOf (first ++ second) = sizeOf first + sizeOf second := by
  simp [sizeOf, computeProtoSizeForTxs]

theorem size_nonneg (items : List PooledTx) : 0 ≤ sizeOf items := by
  refine sum_nonneg fun size member => ?_
  obtain ⟨tx, _, rfl⟩ := mem_map.mp member
  omega

theorem size_prefix_le {first second : List PooledTx} (part : first <+: second) :
    sizeOf first ≤ sizeOf second := by
  obtain ⟨rest, rfl⟩ := part
  rw [size_append]
  exact le_add_of_nonneg_right (size_nonneg rest)

variable {k : Nat}

theorem size_take_lt {items : List PooledTx} (inside : k < items.length) :
    sizeOf (items.take k) < sizeOf (items.take (k + 1)) := by
  rw [take_succ_eq_append_getElem inside, size_append]
  have positive : 0 < sizeOf [items[k]] := by
    simp only [sizeOf, computeProtoSizeForTxs, map_cons, map_nil, sum_singleton]
    omega
  omega

theorem int64_add (first second : Int) : int64 (int64 first + second) = int64 (first + second) :=
  Int.bmod_add_bmod

theorem peak_le_iff {reading : Int → Int} {items : List PooledTx} {bound : Int} (k : Nat)
    (nonneg : 0 ≤ bound) :
    peak reading items k ≤ bound ↔ ∀ i < k, reading (gasOf (items.take (i + 1))) ≤ bound := by
  induction k with
  | zero => simp [peak, nonneg]
  | succ k ih =>
    rw [peak, max_le_iff, ih, Nat.forall_lt_succ_right]

theorem peak_nonneg (reading : Int → Int) (items : List PooledTx) (k : Nat) :
    0 ≤ peak reading items k := by
  induction k with
  | zero => exact le_rfl
  | succ k ih => exact ih.trans (le_max_left _ _)

theorem size_exact {done : List PooledTx} {item : PooledTx} {rest : List PooledTx}
    (memory : sizeOf (done ++ item :: rest) < 2 ^ 63) :
    int64 (sizeOf done + computeProtoSizeForTxs [item.tx]) = sizeOf (done ++ [item]) := by
  have grown : sizeOf (done ++ [item]) = sizeOf done + computeProtoSizeForTxs [item.tx] :=
    size_append done [item]
  rw [append_cons, size_append] at memory
  have first := size_nonneg (done ++ [item])
  have second := size_nonneg rest
  rw [← grown]
  exact int64_exact _ (by unfold minInt64; omega) (by unfold maxInt64; omega)

theorem gas_exact (done : List PooledTx) (item : PooledTx) :
    int64 (int64 (gasOf done) + item.gasWanted) = int64 (gasOf (done ++ [item])) := by
  rw [int64_add, gasOf, gasOf, map_append, sum_append, map_singleton, sum_singleton]

theorem CListMempool.reap_loop_spec (maxBytes maxGas : Int) (items done : List PooledTx)
    (memory : sizeOf (done ++ items) < 2 ^ 63) :
    ∃ k ≤ items.length,
      reapLoop maxBytes maxGas items (done.map PooledTx.tx) (int64 (gasOf done)) (sizeOf done) =
        (done ++ items.take k).map PooledTx.tx ∧
      (∀ i < k, Within maxBytes maxGas int64 (done ++ items.take (i + 1))) ∧
      (k < items.length → ¬ Within maxBytes maxGas int64 (done ++ items.take (k + 1))) := by
  induction items generalizing done with
  | nil => exact ⟨0, le_rfl, by simp [reapLoop], by simp, by simp⟩
  | cons item rest ih =>
  have step : ∀ i, done ++ (item :: rest).take (i + 1) = done ++ [item] ++ rest.take i :=
    fun i => by rw [take_succ_cons, append_cons]
  have dropped : (done.map PooledTx.tx ++ [item.tx]).dropLast = (done ++ []).map PooledTx.tx := by
    simp
  rw [reapLoop]
  dsimp only
  rw [size_exact memory, gas_exact]
  split_ifs with large costly
  · refine ⟨0, Nat.zero_le _, dropped, by simp, fun _ within => ?_⟩
    rw [step, take_zero, append_nil] at within
    exact absurd (within.1 (by omega)) (by omega)
  · refine ⟨0, Nat.zero_le _, dropped, by simp, fun _ within => ?_⟩
    rw [step, take_zero, append_nil] at within
    exact absurd (within.2 (by omega)) (by omega)
  · obtain ⟨k, inside, reaped, kept, stopped⟩ := ih (done ++ [item])
      (by rwa [append_assoc, singleton_append])
    rw [map_append, map_singleton] at reaped
    refine ⟨k + 1, Nat.succ_le_succ inside, ?_, fun i before => ?_, fun more => ?_⟩
    · rw [step, reaped]
    · rw [step]
      cases i with
      | zero =>
        rw [take_zero, append_nil]
        exact ⟨fun _ => by omega, fun _ => by omega⟩
      | succ i => exact kept i (by omega)
    · rw [step]
      exact stopped (by simpa using more)

variable {maxBytes maxGas : Int} {items : List PooledTx}

theorem reap_eq_take (maxBytes maxGas : Int) (memory : sizeOf items < 2 ^ 63)
    (inside : k ≤ items.length) (kept : ∀ i < k, Within maxBytes maxGas int64 (items.take (i + 1)))
    (stopped : k < items.length → ¬ Within maxBytes maxGas int64 (items.take (k + 1))) :
    CListMempool.reapMaxBytesMaxGas items maxBytes maxGas = (items.take k).map PooledTx.tx := by
  obtain ⟨n, within, reaped, before, after⟩ :=
    CListMempool.reap_loop_spec maxBytes maxGas items [] memory
  have same : n = k := by
    rcases Nat.lt_trichotomy n k with less | same | more
    · exact absurd (kept n less) (after (by omega))
    · exact same
    · exact absurd (before k more) (stopped (by omega))
  rw [CListMempool.reapMaxBytesMaxGas, ← same]
  exact reaped

theorem reaps_take_iff (inside : k ≤ items.length) :
    Reaps maxBytes maxGas items ((items.take k).map PooledTx.tx) ↔
      Within maxBytes maxGas id (items.take k) ∧
      (k < items.length → ¬ Within maxBytes maxGas id (items.take (k + 1))) := by
  constructor
  · rintro ⟨n, within, same, right⟩
    have lengths := congrArg List.length same
    simp only [length_map, length_take, min_eq_left inside, min_eq_left within] at lengths
    exact lengths ▸ right
  · exact fun right => ⟨k, inside, rfl, right⟩

theorem kept_iff (reading : Int → Int) (k : Nat) :
    (∀ i < k, Within maxBytes maxGas reading (items.take (i + 1))) ↔
      (0 ≤ maxBytes → sizeOf (items.take k) ≤ maxBytes) ∧
      (0 ≤ maxGas → peak reading items k ≤ maxGas) := by
  constructor
  · intro kept
    refine ⟨fun nonneg => ?_, fun nonneg => ?_⟩
    · cases k with
      | zero => exact nonneg
      | succ k => exact (kept k k.lt_succ_self).1 nonneg
    · exact (peak_le_iff k nonneg).mpr fun i before => (kept i before).2 nonneg
  · rintro ⟨size, gas⟩ i before
    refine ⟨fun nonneg => ?_, fun nonneg => ?_⟩
    · exact (size_prefix_le (take_prefix_take_left before)).trans (size nonneg)
    · exact (peak_le_iff k nonneg).mp (gas nonneg) i before

theorem gas_le_peak (k : Nat) : gasOf (items.take k) ≤ peak id items k := by
  cases k with
  | zero => exact le_rfl
  | succ k => exact le_max_right _ _

theorem peak_int64_lt (k : Nat) : peak int64 items k < 2 ^ 63 := by
  induction k with
  | zero => exact (by decide : (0 : Int) < 2 ^ 63)
  | succ k ih => exact max_lt ih (Int.bmod_lt (by decide))

theorem Steady.reaps (steady : Steady items) (memory : sizeOf items < 2 ^ 63) :
    Reaps maxBytes maxGas items (CListMempool.reapMaxBytesMaxGas items maxBytes maxGas) := by
  obtain ⟨k, inside, reaped, kept, stopped⟩ :=
    CListMempool.reap_loop_spec maxBytes maxGas items [] memory
  obtain ⟨size, gas⟩ := (kept_iff int64 k).mp kept
  rw [steady k inside] at gas
  refine ⟨k, inside, reaped, ⟨size, fun nonneg => (gas_le_peak k).trans (gas nonneg)⟩,
    fun more within => stopped more ⟨within.1, fun nonneg => ?_⟩⟩
  calc int64 (gasOf (items.take (k + 1)))
      ≤ peak int64 items (k + 1) := le_max_right _ _
    _ = max (peak id items k) (gasOf (items.take (k + 1))) := steady (k + 1) more
    _ ≤ maxGas := max_le (gas nonneg) (within.2 nonneg)

theorem steady_of_reaps (memory : sizeOf items < 2 ^ 63)
    (right : ∀ maxBytes maxGas, InInt64 maxBytes → InInt64 maxGas →
      Reaps maxBytes maxGas items (CListMempool.reapMaxBytesMaxGas items maxBytes maxGas)) :
    Steady items := by
  intro k
  induction k with
  | zero => exact fun _ => rfl
  | succ k ih =>
  intro inside
  have before := ih (by omega)
  have low : peak int64 items k ≤ peak int64 items (k + 1) := le_max_left _ _
  have high : peak id items k ≤ peak id items (k + 1) := le_max_left _ _
  have bound : peak int64 items (k + 1) < 2 ^ 63 := peak_int64_lt (k + 1)
  have whole := size_prefix_le <| take_prefix (k + 1) items
  by_contra differ
  rcases lt_or_gt_of_ne differ with lower | higher
  · -- the limit on gas is the peak in int64, that on bytes cuts after this transaction
    have reaped := reap_eq_take (sizeOf (items.take (k + 1))) (peak int64 items (k + 1)) memory
      inside ((kept_iff int64 (k + 1)).mpr ⟨fun _ => le_rfl, fun _ => le_rfl⟩)
      (fun more within => absurd (within.1 (size_nonneg _)) (size_take_lt more).not_ge)
    have kept := right (sizeOf (items.take (k + 1))) (peak int64 items (k + 1))
      ⟨by have := size_nonneg (items.take (k + 1)); omega, by omega⟩
      ⟨by have := peak_nonneg int64 items (k + 1); omega, bound⟩
    rw [reaped, reaps_take_iff inside] at kept
    refine lower.not_ge (max_le (before ▸ low) ?_)
    exact kept.1.2 (peak_nonneg int64 items (k + 1))
  · -- the limit on gas is the exact peak, which this transaction keeps
    have nonneg := peak_nonneg id items (k + 1)
    have reaped := reap_eq_take (-1) (peak id items (k + 1)) memory (Nat.le_of_succ_le inside)
      ((kept_iff int64 k).mpr ⟨fun absent => absurd absent (by decide), fun _ => before ▸ high⟩)
      (fun _ within => higher.not_ge (max_le (before ▸ high) (within.2 nonneg)))
    have kept := right (-1) (peak id items (k + 1)) ⟨by decide, by decide⟩ ⟨by omega, by omega⟩
    rw [reaped, reaps_take_iff (Nat.le_of_succ_le inside)] at kept
    exact kept.2 inside ⟨fun absent => absurd absent (by decide), fun _ => le_max_right _ _⟩

/-- The transactions of a pool: they lie in memory, so their total size is far from the
bounds of `int64`. -/
structure Content where
  txs : List PooledTx
  memory : sizeOf txs < 2 ^ 63

theorem size_perm {first second : List PooledTx} (perm : first.Perm second) :
    sizeOf first = sizeOf second := ((perm.map _).map _).sum_eq

def listPackage : HeapPackage where
  Valid := List.Pairwise fun first second => second.less first = false
  pop first rest := (first, rest)
  push queue wtx := queue ++ [wtx]
  pop_perm _ _ := .refl _
  push_perm queue wtx := perm_append_singleton wtx queue
  pop_valid _ _ valid := (pairwise_cons.mp valid).2
  pop_least _ _ valid other member := by simpa using (pairwise_cons.mp valid).1 other member

def steadyContent : Content where
  txs := [⟨[1], 3, 0, 0⟩, ⟨[2], 4, 0, 1⟩, ⟨[3], 5, 0, 2⟩]
  memory := by decide +kernel

end Tendermint.Mempool
