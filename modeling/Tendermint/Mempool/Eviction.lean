import Tendermint.Types.ValidatorSet

/-!
The capacity of the priority mempool. A transaction that finds the pool full by number
or by bytes evicts the first transactions in rising priority until its bytes have
room. `key` stands for sha256, and sort.Slice for some order of rising priority. Both
maps of the store are their keys: a transaction is marked as removed when its key is
deleted, so none of those stored is marked. The cache and the indexes by height, time
and gossip are left out.
-/

namespace Tendermint.Mempool

open Types List

structure WrappedTx where
  tx : Bytes
  priority : Int
  sender : String
  deriving DecidableEq

def WrappedTx.size (wtx : WrappedTx) : Int := wtx.tx.length

/-- An outcome of sort.Slice, which is not stable. -/
structure Sorting where
  sort : List WrappedTx → List WrappedTx
  perm : ∀ queue, (sort queue).Perm queue
  rising : ∀ queue, (sort queue).Pairwise fun first second => first.priority ≤ second.priority

structure PriorityPool (κ : Type) where
  /-- `Size` and `MaxTxsBytes` of the configuration. -/
  maxSize : Int
  maxTxsBytes : Int
  hashTxs : Finset κ
  senderTxs : Finset String
  priorityIndex : List WrappedTx
  sizeBytes : Int

structure CheckTxResponse where
  code : Nat
  priority : Int
  sender : String

/-- What a callback leaves, with the evicted transactions and whether it inserted its own. -/
structure Outcome (κ : Type) where
  pool : PriorityPool κ
  evicted : List WrappedTx
  inserted : Bool

def evictLoop (priority txSize cap : Int) : List WrappedTx → List WrappedTx → Int → List WrappedTx
  | [], _, _ => []
  | wtx :: rest, toEvict, currSize =>
    if wtx.priority < priority then
      if currSize - wtx.size + txSize ≤ cap then toEvict ++ [wtx]
      else evictLoop priority txSize cap rest (toEvict ++ [wtx]) (currSize - wtx.size)
    else []

def getEvictableTxs (sorting : Sorting) (queue : List WrappedTx)
    (priority txSize totalSize cap : Int) : List WrappedTx :=
  evictLoop priority txSize cap (sorting.sort queue) [] totalSize

namespace PriorityPool

variable {κ : Type} [DecidableEq κ] (key : Bytes → κ)

def size (pool : PriorityPool κ) : Int := pool.hashTxs.card

def canAddTx (pool : PriorityPool κ) (wtx : WrappedTx) : Bool :=
  !(pool.maxSize ≤ pool.size || pool.maxTxsBytes < wtx.size + pool.sizeBytes)

def insertTx (pool : PriorityPool κ) (wtx : WrappedTx) : PriorityPool κ :=
  { pool with
    hashTxs := insert (key wtx.tx) pool.hashTxs
    senderTxs := if wtx.sender = "" then pool.senderTxs else insert wtx.sender pool.senderTxs
    priorityIndex := pool.priorityIndex ++ [wtx]
    sizeBytes := pool.sizeBytes + wtx.size }

def removeTx (pool : PriorityPool κ) (wtx : WrappedTx) : PriorityPool κ :=
  { pool with
    hashTxs := pool.hashTxs.erase (key wtx.tx)
    senderTxs := if wtx.sender = "" then pool.senderTxs else pool.senderTxs.erase wtx.sender
    priorityIndex := pool.priorityIndex.erase wtx
    sizeBytes := pool.sizeBytes - wtx.size }

def initTxCallback (sorting : Sorting) (postCheck : Option String) (pool : PriorityPool κ)
    (tx : Bytes) (response : CheckTxResponse) : Outcome κ :=
  let wtx : WrappedTx := ⟨tx, response.priority, response.sender⟩
  if postCheck.isSome ∨ response.code ≠ 0 then ⟨pool, [], false⟩
  else if response.sender ≠ "" ∧ response.sender ∈ pool.senderTxs then ⟨pool, [], false⟩
  else if pool.canAddTx wtx then ⟨pool.insertTx key wtx, [], true⟩
  else
    match getEvictableTxs sorting pool.priorityIndex response.priority wtx.size pool.sizeBytes
      pool.maxTxsBytes with
    | [] => ⟨pool, [], false⟩
    | first :: rest =>
      ⟨((first :: rest).foldl (removeTx key) pool).insertTx key wtx, first :: rest, true⟩

end PriorityPool

/-! ### What is asked of a callback -/

def totalSize (txs : List WrappedTx) : Int := (txs.map WrappedTx.size).sum

/-- The pool keeps its capacity, only transactions of lower priority go, none goes for
nothing, and those that go are the fewest of the lowest priorities that give the bytes. -/
structure Fair {κ : Type} (sorting : Sorting) (pool : PriorityPool κ) (tx : Bytes) (priority : Int)
    (outcome : Outcome κ) : Prop where
  count : outcome.pool.size ≤ pool.maxSize
  bytes : outcome.pool.sizeBytes ≤ pool.maxTxsBytes
  lower : ∀ wtx ∈ outcome.evicted, wtx.priority < priority
  atomic : outcome.inserted = false → outcome.evicted = [] ∧ outcome.pool = pool
  lowest : outcome.evicted <+: sorting.sort pool.priorityIndex
  fewest : ∀ k, 0 < k → k < outcome.evicted.length →
    pool.maxTxsBytes < pool.sizeBytes -
      totalSize ((sorting.sort pool.priorityIndex).take k) + tx.length

/-- A pool within its capacity. What it holds was within the limit on bytes when it was
admitted. -/
structure BoundedPool (κ : Type) extends PriorityPool κ where
  count : toPriorityPool.size ≤ maxSize
  bytes : sizeBytes ≤ maxTxsBytes
  admitted : ∀ wtx ∈ priorityIndex, wtx.size ≤ maxTxsBytes ∧ InInt64 wtx.priority

section Proofs

variable {κ : Type} {key : Bytes → κ} {sorting : Sorting} {tx : Bytes} {priority : Int}

theorem total_size_cons (first : WrappedTx) (rest : List WrappedTx) :
    totalSize (first :: rest) = first.size + totalSize rest := sum_cons

theorem evict_loop_spec (priority txSize cap : Int) (sorted toEvict : List WrappedTx)
    (currSize : Int) :
    evictLoop priority txSize cap sorted toEvict currSize = [] ∨
    ∃ k < sorted.length, evictLoop priority txSize cap sorted toEvict currSize =
        toEvict ++ sorted.take (k + 1) ∧
      (∀ wtx ∈ sorted.take (k + 1), wtx.priority < priority) ∧
      currSize - totalSize (sorted.take (k + 1)) + txSize ≤ cap ∧
      ∀ i < k, cap < currSize - totalSize (sorted.take (i + 1)) + txSize := by
  induction sorted generalizing toEvict currSize with
  | nil => exact .inl rfl
  | cons wtx rest ih =>
  rw [evictLoop]
  split_ifs with lower room
  · refine .inr ⟨0, by simp, by simp, by simpa using lower, ?_, by simp⟩
    simpa [totalSize] using room
  · refine (ih (toEvict ++ [wtx]) (currSize - wtx.size)).imp_right ?_
    rintro ⟨k, inside, evicted, all, enough, fewer⟩
    refine ⟨k + 1, by simpa using inside, ?_, ?_, ?_, fun i before => ?_⟩
    · rw [evicted, take_succ_cons, append_assoc, singleton_append]
    · intro other member
      rw [take_succ_cons] at member
      rcases mem_cons.mp member with rfl | member
      · exact lower
      · exact all other member
    · rw [take_succ_cons, total_size_cons]
      omega
    · rw [take_succ_cons, total_size_cons]
      cases i with
      | zero =>
        rw [take_zero, totalSize, map_nil, sum_nil]
        omega
      | succ i =>
        have least := fewer i (by omega)
        omega
  · exact .inl rfl

theorem BoundedPool.refused (pool : BoundedPool κ) :
    Fair sorting pool.toPriorityPool tx priority ⟨pool.toPriorityPool, [], false⟩ where
  count := pool.count
  bytes := pool.bytes
  lower _ member := by cases member
  atomic _ := ⟨rfl, rfl⟩
  lowest := nil_prefix
  fewest _ _ fewer := by cases fewer

variable [DecidableEq κ]

theorem remove_all (key : Bytes → κ) (evicted : List WrappedTx) (pool : PriorityPool κ) :
    (evicted.foldl (PriorityPool.removeTx key) pool).sizeBytes =
      pool.sizeBytes - totalSize evicted ∧
    (evicted.foldl (PriorityPool.removeTx key) pool).hashTxs ⊆ pool.hashTxs := by
  induction evicted generalizing pool with
  | nil => exact ⟨(Int.sub_zero _).symm, subset_rfl⟩
  | cons wtx rest ih =>
  obtain ⟨bytes, keys⟩ := ih (pool.removeTx key wtx)
  refine ⟨?_, keys.trans (Finset.erase_subset _ _)⟩
  rw [foldl_cons, bytes, total_size_cons, PriorityPool.removeTx]
  dsimp only
  omega

/-- Where the number of transactions is at its limit, the first one that would go is
stored, or nothing has a higher priority. -/
def PriorityPool.Stored (key : Bytes → κ) (sorting : Sorting) (pool : PriorityPool κ) : Prop :=
  pool.size < pool.maxSize ∨ ∀ first, (sorting.sort pool.priorityIndex).head? = some first →
    key first.tx ∈ pool.hashTxs ∨ maxInt64 ≤ first.priority

theorem evicted_count {pool : PriorityPool κ} (within : pool.size ≤ pool.maxSize)
    {first : WrappedTx} (rest : List WrappedTx)
    (room : pool.size < pool.maxSize ∨ key first.tx ∈ pool.hashTxs) :
    (((first :: rest).foldl (PriorityPool.removeTx key) pool).hashTxs.card : Int) + 1 ≤
      pool.maxSize := by
  have fewer := Finset.card_le_card (remove_all key rest (pool.removeTx key first)).2
  have erased : (pool.removeTx key first).hashTxs = pool.hashTxs.erase (key first.tx) := rfl
  rw [erased] at fewer
  rw [foldl_cons]
  unfold PriorityPool.size at within room
  rcases room with below | stored
  · have less := Finset.card_erase_le (s := pool.hashTxs) (a := key first.tx)
    omega
  · have less := Finset.card_erase_add_one stored
    omega

theorem BoundedPool.callback_fair (pool : BoundedPool κ) (postCheck : Option String)
    (response : CheckTxResponse) (typed : InInt64 response.priority)
    (stored : pool.Stored key sorting) :
    Fair sorting pool.toPriorityPool tx response.priority
      (pool.initTxCallback key sorting postCheck tx response) := by
  unfold PriorityPool.initTxCallback
  dsimp only
  split_ifs with bad taken free
  · exact pool.refused
  · exact pool.refused
  · rw [PriorityPool.canAddTx, Bool.not_eq_true', Bool.or_eq_false_iff, decide_eq_false_iff_not,
      decide_eq_false_iff_not] at free
    constructor
    · have grown := Finset.card_insert_le (key tx) pool.hashTxs
      unfold PriorityPool.size PriorityPool.insertTx
      unfold PriorityPool.size at free
      dsimp only
      omega
    · unfold PriorityPool.insertTx
      dsimp only
      omega
    · intro wtx member
      cases member
    · intro refused
      cases refused
    · exact nil_prefix
    · intro k positive fewer
      cases fewer
  · cases found : getEvictableTxs sorting pool.priorityIndex response.priority
        (WrappedTx.size ⟨tx, response.priority, response.sender⟩) pool.sizeBytes
        pool.maxTxsBytes with
    | nil => exact pool.refused
    | cons first rest =>
      rcases evict_loop_spec response.priority tx.length pool.maxTxsBytes
        (sorting.sort pool.priorityIndex) [] pool.sizeBytes with none | ⟨k, inside, evicted, lower,
          enough, fewer⟩
      · cases found.symm.trans none
      replace evicted := found.symm.trans evicted
      rw [nil_append] at evicted
      have below : ∀ wtx ∈ first :: rest, wtx.priority < response.priority := evicted ▸ lower
      have part : first :: rest <+: sorting.sort pool.priorityIndex :=
        evicted ▸ take_prefix _ _
      have head : (sorting.sort pool.priorityIndex).head? = some first := by
        have heads := congrArg List.head? evicted
        rw [head?_cons, head?_take, if_neg (Nat.succ_ne_zero k)] at heads
        exact heads.symm
      have room : pool.size < pool.maxSize ∨ key first.tx ∈ pool.hashTxs := by
        refine stored.imp_right fun kept => (kept first head).resolve_right fun greatest => ?_
        have less := below first mem_cons_self
        have high := typed.2
        unfold maxInt64 at greatest
        omega
      constructor
      · have grown := Finset.card_insert_le (key tx)
          ((first :: rest).foldl (PriorityPool.removeTx key) pool.toPriorityPool).hashTxs
        have count := evicted_count pool.count rest room
        unfold PriorityPool.size PriorityPool.insertTx
        dsimp only
        omega
      · have bytes := (remove_all key (first :: rest) pool.toPriorityPool).1
        unfold PriorityPool.insertTx
        dsimp only
        rw [bytes, evicted]
        exact enough
      · exact below
      · intro refused
        cases refused
      · exact part
      · intro i positive before
        have length := congrArg List.length evicted
        rw [length_take] at length
        obtain ⟨i, rfl⟩ := Nat.exists_eq_succ_of_ne_zero positive.ne'
        exact fewer i (by dsimp only at before; omega)

/-- Every callback is fair exactly if the first transaction that would go is stored, where
that matters. -/
theorem eviction_fair_iff (key : Bytes → κ) (sorting : Sorting) (pool : BoundedPool κ) :
    (∀ postCheck tx response, tx.length ≤ pool.maxTxsBytes → InInt64 response.priority →
      Fair sorting pool.toPriorityPool tx response.priority
        (pool.initTxCallback key sorting postCheck tx response)) ↔
    pool.Stored key sorting := by
  refine ⟨fun fair => or_iff_not_imp_left.mpr fun full first head => ?_,
    fun stored postCheck tx response _ typed => pool.callback_fair postCheck response typed stored⟩
  by_contra missing
  rw [not_or, not_le] at missing
  obtain ⟨stray, low⟩ := missing
  have member := (sorting.perm _).mem_iff.mp (mem_of_mem_head? head)
  obtain ⟨small, typed⟩ := pool.admitted first member
  have next : InInt64 (first.priority + 1) := by
    unfold InInt64 maxInt64 at *
    omega
  -- the same transaction comes again with a higher priority, and takes the place of its stray copy
  have count := (fair none first.tx ⟨0, first.priority + 1, ""⟩ small next).count
  have evicted : getEvictableTxs sorting pool.priorityIndex (first.priority + 1) first.size
      pool.sizeBytes pool.maxTxsBytes = [first] := by
    obtain ⟨rest, order⟩ := head?_eq_some_iff.mp head
    rw [getEvictableTxs, order, evictLoop, if_pos (by omega), if_pos]
    · rfl
    · have := pool.bytes
      omega
  have outcome : (pool.initTxCallback key sorting none first.tx ⟨0, first.priority + 1, ""⟩).pool =
      (pool.removeTx key first).insertTx key ⟨first.tx, first.priority + 1, ""⟩ := by
    unfold PriorityPool.initTxCallback
    dsimp only
    rw [if_neg (by simp), if_neg (by simp),
      if_neg (by simp [PriorityPool.canAddTx, not_lt.mp full])]
    rw [show WrappedTx.size ⟨first.tx, first.priority + 1, ""⟩ = first.size from rfl, evicted]
    rfl
  rw [outcome, PriorityPool.size, PriorityPool.insertTx, PriorityPool.removeTx,
    Finset.erase_eq_of_notMem stray, Finset.card_insert_of_notMem stray] at count
  unfold PriorityPool.size at full
  omega

end Proofs

/-! ### A stray copy -/

def insertionSorting : Sorting where
  sort := List.insertionSort fun first second => first.priority ≤ second.priority
  perm := perm_insertionSort _
  rising queue := by
    have : Std.Total fun first second : WrappedTx => first.priority ≤ second.priority :=
      ⟨fun _ _ => le_total _ _⟩
    have : IsTrans WrappedTx fun first second => first.priority ≤ second.priority :=
      ⟨fun _ _ _ => le_trans⟩
    exact pairwise_insertionSort _ queue

def emptyPool : PriorityPool Bytes := ⟨2, 100, ∅, ∅, [], 0⟩

def afterCallbacks (calls : List (UInt8 × Int)) : PriorityPool Bytes :=
  calls.foldl (fun pool call => (pool.initTxCallback id insertionSorting none [call.1]
    ⟨0, call.2, ""⟩).pool) emptyPool

def fullPool : BoundedPool Bytes where
  toPriorityPool := afterCallbacks [(1, 1), (2, 5)]
  count := by decide +kernel
  bytes := by decide +kernel
  admitted := by unfold InInt64; decide +kernel

theorem full_pool_evicts_lowest :
    (fullPool.initTxCallback id insertionSorting none [3] ⟨0, 3, ""⟩).evicted = [⟨[1], 1, ""⟩] ∧
    Fair insertionSorting fullPool.toPriorityPool [3] 3
      (fullPool.initTxCallback id insertionSorting none [3] ⟨0, 3, ""⟩) := by
  have stored : fullPool.Stored id insertionSorting := by
    refine .inr fun first head => .inl ?_
    have lowest : (insertionSorting.sort fullPool.priorityIndex).head? = some ⟨[1], 1, ""⟩ := by
      decide +kernel
    cases lowest.symm.trans head
    decide +kernel
  exact ⟨by decide +kernel, (eviction_fair_iff id insertionSorting fullPool).mpr stored none [3]
    ⟨0, 3, ""⟩ (by decide +kernel) ⟨by decide, by decide⟩⟩

/-- Without a cache a transaction can be inserted twice. Its first copy is evicted with its
key, the second one makes room for nothing, and the pool exceeds its size. -/
theorem stray_copy_makes_no_room :
    (afterCallbacks [(1, 1), (1, 1), (2, 5), (3, 3)]).size = 2 ∧
    (afterCallbacks [(1, 1), (1, 1), (2, 5), (3, 3), (4, 4)]).size = 3 := by
  decide +kernel

end Tendermint.Mempool
