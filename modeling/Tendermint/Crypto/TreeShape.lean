import Tendermint.Lib.PairedTree
import Tendermint.Types.Canonical
import Tendermint.Crypto.Merkle

/-!
crypto/merkle: the iterative root, and how many aunts the place of a leaf asks for.
The iterative root is computed in place: `rp` and `wp` are the read and write
positions within the first `size` nodes. What is proved of it needs nothing of
the hash functions, so they are parameters.
-/

namespace Tendermint.Merkle

open List
open Types (Bytes Panics)

theorem split_point_spec (length : Nat) (many : 1 < length) :
    ∃ height, getSplitPoint length = 2 ^ height ∧ 2 ^ height < length ∧
      length ≤ 2 ^ (height + 1) := by
  have below : 2 ^ Nat.log2 length ≤ length := Nat.log2_self_le (by omega)
  have above : length < 2 ^ (Nat.log2 length + 1) := Nat.lt_log2_self
  unfold getSplitPoint
  by_cases exactly : 2 ^ Nat.log2 length = length
  · obtain ⟨height, next⟩ : ∃ height, Nat.log2 length = height + 1 := by
      cases powers : Nat.log2 length with
      | zero =>
        rw [powers] at exactly
        omega
      | succ height => exact ⟨height, rfl⟩
    rw [next, Nat.pow_succ] at exactly
    have positive : 0 < 2 ^ height := Nat.two_pow_pos height
    refine ⟨height, ?_, by omega, by rw [Nat.pow_succ]; omega⟩
    simp only [next, Nat.pow_succ]
    rw [if_pos exactly]
    omega
  · exact ⟨Nat.log2 length, by simp only [exactly, if_false], by omega, by omega⟩

theorem split_point_halving : PairedTree.Halving getSplitPoint where
  bounds length many := split_point_bounds many
  doubled length many := by
    obtain ⟨height, split, below, above⟩ := split_point_spec length (by omega)
    obtain ⟨upper, upperSplit, upperBelow, upperAbove⟩ :=
      split_point_spec ((length + 1) / 2) (by omega)
    -- Both heights are the logarithm of the length, one of them a level up.
    have rise : 2 ^ (upper + 1) < length := by
      rw [Nat.pow_succ]
      omega
    have bound : length ≤ 2 ^ (upper + 1 + 1) := by
      rw [Nat.pow_succ]
      omega
    have same : height = upper + 1 := by
      have first : height < upper + 1 + 1 :=
        (Nat.pow_lt_pow_iff_right (by decide)).mp (Nat.lt_of_lt_of_le below bound)
      have second : upper + 1 < height + 1 :=
        (Nat.pow_lt_pow_iff_right (by decide)).mp (Nat.lt_of_lt_of_le rise above)
      omega
    rw [split, upperSplit, same, Nat.pow_succ, Nat.mul_comm]

namespace NodeHashes

variable (nodes : NodeHashes)

def load (items : List Bytes) (i : Nat) : Panics Bytes :=
  match items[i]? with
  | some item => .ok item
  | none => .error "index out of range"

def store (items : List Bytes) (i : Nat) (item : Bytes) : Panics (List Bytes) :=
  if i < items.length then .ok (items.set i item) else .error "index out of range"

/-- The loop over one level; it returns the nodes and the size of the next level. -/
def level (size rp wp : Nat) (items : List Bytes) : Panics (List Bytes × Nat) :=
  if rp < size then
    if rp + 1 < size then do
      let left ← load items rp
      let right ← load items (rp + 1)
      let items ← store items wp (nodes.innerHash left right)
      level size (rp + 2) (wp + 1) items
    else do
      let last ← load items rp
      let items ← store items wp last
      level size (rp + 1) (wp + 1) items
  else .ok (items, wp)
termination_by size - rp

def levels : Nat → Nat → List Bytes → Panics Bytes
  | _, 0, _ => .ok nodes.emptyHash
  | _, 1, items => load items 0
  | 0, _ + 2, _ => .error "the levels do not end"
  | fuel + 1, size + 2, items => do
    let (items, size) ← nodes.level (size + 2) 0 0 items
    levels fuel size items

def hashFromByteSlicesIterative (input : List Bytes) : Panics Bytes :=
  nodes.levels input.length input.length (input.map nodes.leafHash)

theorem load_of_lt (items : List Bytes) (i : Nat) (bound : i < items.length) :
    load items i = .ok items[i] := by
  rw [load, getElem?_eq_getElem bound]

theorem store_of_lt (items : List Bytes) (i : Nat) (item : Bytes) (bound : i < items.length) :
    store items i item = .ok (items.set i item) := by
  rw [store, if_pos bound]

theorem unread_set (items : List Bytes) (size i rp : Nat) (item : Bytes) (behind : i < rp) :
    ((items.set i item).take size).drop rp = (items.take size).drop rp := by
  rw [take_set, drop_set_of_lt behind]

theorem written_set (items : List Bytes) (i : Nat) (item : Bytes) (bound : i < items.length) :
    (items.set i item).take (i + 1) = items.take i ++ [item] := by
  rw [take_add_one, take_set_of_le (Nat.le_refl i), getElem?_set_self bound]
  rfl

theorem unread_cons (items : List Bytes) {size rp : Nat} (inside : rp < size)
    (bound : rp < items.length) :
    (items.take size).drop rp = items[rp] :: (items.take size).drop (rp + 1) := by
  rw [drop_eq_getElem_cons (by rw [length_take]; omega), getElem_take]

theorem level_ok (size rp wp : Nat) (items : List Bytes) (order : wp ≤ rp) (inside : rp ≤ size)
    (fits : size ≤ items.length) :
    ∃ after, nodes.level size rp wp items = .ok (after, wp + (size - rp + 1) / 2) ∧
      after.length = items.length ∧
      after.take (wp + (size - rp + 1) / 2) = items.take wp ++
        PairedTree.pairs nodes.innerHash ((items.take size).drop rp) := by
  induction unread : size - rp using Nat.strongRecOn generalizing rp wp items with
  | ind remaining ih =>
    rw [level]
    by_cases more : rp < size
    · rw [if_pos more, load_of_lt items rp (by omega)]
      by_cases two : rp + 1 < size
      · obtain ⟨after, run, length, taken⟩ := ih (size - (rp + 2)) (by omega) (rp + 2) (wp + 1)
          (items.set wp (nodes.innerHash items[rp] items[rp + 1])) (by omega) (by omega)
          (by rw [length_set]; exact fits) rfl
        have count : wp + 1 + (size - (rp + 2) + 1) / 2 = wp + (remaining + 1) / 2 := by omega
        rw [if_pos two, load_of_lt items (rp + 1) (by omega)]
        refine ⟨after, ?_, by rw [length, length_set], ?_⟩
        · rw [← count, ← run]
          simp only [bind_eq, store_of_lt items wp _ (by omega : wp < items.length)]
        · rw [← count, taken, written_set items wp _ (by omega),
            unread_set items size wp (rp + 2) _ (by omega),
            unread_cons items more (by omega),
            unread_cons items two (by omega), append_assoc]
          rfl
      · obtain ⟨after, run, length, taken⟩ := ih (size - (rp + 1)) (by omega) (rp + 1) (wp + 1)
          (items.set wp items[rp]) (by omega) (by omega) (by rw [length_set]; exact fits) rfl
        have count : wp + 1 + (size - (rp + 1) + 1) / 2 = wp + (remaining + 1) / 2 := by omega
        have none : (items.take size).drop (rp + 1) = [] :=
          drop_eq_nil_of_le (by rw [length_take]; omega)
        rw [if_neg two]
        refine ⟨after, ?_, by rw [length, length_set], ?_⟩
        · rw [← count, ← run]
          simp only [bind_eq, store_of_lt items wp _ (by omega : wp < items.length)]
        · rw [← count, taken, written_set items wp _ (by omega),
            unread_set items size wp (rp + 1) _ (by omega),
            unread_cons items more (by omega), none]
          simp [PairedTree.pairs]
    · have all : (items.take size).drop rp = [] :=
        drop_eq_nil_of_le (by rw [length_take]; omega)
      have count : (remaining + 1) / 2 = 0 := by omega
      rw [if_neg more, count, all]
      exact ⟨items, rfl, rfl, by simp [PairedTree.pairs]⟩

theorem hash_within_fold (fuel : Nat) (items : List Bytes) :
    nodes.hashWithin fuel items =
      PairedTree.fold nodes.innerHash getSplitPoint nodes.emptyHash fuel
        (items.map nodes.leafHash) := by
  fun_induction nodes.hashWithin fuel items with
  | case1 => rw [map_nil, PairedTree.fold]
  | case2 => rw [map_cons, map_nil, PairedTree.fold]
  | case3 => rw [map_cons, map_cons, PairedTree.fold]
  | case4 fuel items empty single k left right =>
    have many : 1 < items.length := by
      rcases items with _ | ⟨item, _ | ⟨_, _⟩⟩
      · exact absurd rfl empty
      · exact absurd rfl (single item)
      · simp
    rw [PairedTree.fold_split _ _ _ _ _ (by rw [length_map]; exact many), length_map,
      ← map_take, ← map_drop, left, right]

theorem levels_one (fuel : Nat) (items : List Bytes) (fits : 1 ≤ items.length) :
    nodes.levels fuel 1 items =
      .ok (PairedTree.fold nodes.innerHash getSplitPoint nodes.emptyHash 1 (items.take 1)) := by
  rw [levels, load_of_lt items 0 fits, take_one, head?_eq_getElem?, getElem?_eq_getElem fits]
  rfl

theorem levels_ok (fuel size : Nat) (items : List Bytes) (enough : size ≤ fuel + 1)
    (fits : size ≤ items.length) :
    nodes.levels fuel size items =
      .ok (PairedTree.fold nodes.innerHash getSplitPoint nodes.emptyHash size
        (items.take size)) := by
  induction fuel generalizing size items with
  | zero =>
    rcases size with _ | _ | size
    · simp [levels, PairedTree.fold]
    · exact nodes.levels_one 0 items fits
    · omega
  | succ fuel ih =>
    rcases size with _ | _ | size
    · simp [levels, PairedTree.fold]
    · exact nodes.levels_one (fuel + 1) items fits
    obtain ⟨after, run, length, taken⟩ :=
      nodes.level_ok (size + 2) 0 0 items (Nat.le_refl 0) (Nat.zero_le _) fits
    simp only [Nat.sub_zero, Nat.zero_add, take_zero, nil_append, drop_zero] at run taken
    rw [levels, run]
    simp only [bind_eq]
    rw [ih _ after (by omega) (by omega), taken,
      PairedTree.fold_pairs _ _ split_point_halving _ (size + 2)]
    · rw [length_take]
      omega
    · rw [PairedTree.pairs_length, length_take]
      omega

end NodeHashes

/-- For every hash of leaves and of inner nodes, the iterative root never indexes
out of range, ends, and is the recursive one; at the hashes made from
`tmhash.Sum` the latter is the root of the tree. -/
theorem iterative_root_eq_recursive (nodes : NodeHashes) (items : List Bytes) :
    nodes.hashFromByteSlicesIterative items = .ok (nodes.hashFromByteSlices items) ∧
      ∀ hashing : Hashing,
        hashing.nodes.hashFromByteSlices items = hashFromByteSlices hashing items := by
  constructor
  · have top := nodes.levels_ok items.length items.length (items.map nodes.leafHash)
      (Nat.le_succ _) (by rw [length_map])
    have all : (items.map nodes.leafHash).take items.length = items.map nodes.leafHash :=
      take_of_length_le (by rw [length_map])
    rw [NodeHashes.hashFromByteSlicesIterative, top, all, NodeHashes.hashFromByteSlices,
      nodes.hash_within_fold]
  · exact fun hashing => rfl

def depth (index total : Nat) : Nat :=
  if many : 1 < total then
    if index < getSplitPoint total then depth index (getSplitPoint total) + 1
    else depth (index - getSplitPoint total) (total - getSplitPoint total) + 1
  else 0
termination_by total
decreasing_by
  all_goals
    have bounds := split_point_bounds many
    omega

namespace Proof

/-- The proof is for a leaf of the tree and has an aunt for each level above it. -/
def WellFormed (proof : Proof) : Prop :=
  0 ≤ proof.index ∧ proof.index < proof.total ∧
    proof.aunts.length = depth proof.index.toNat proof.total.toNat

theorem computed_iff (hashing : Hashing) (leafHash : Bytes) (aunts : List Bytes)
    (index total : Nat) :
    (computeHashFromAunts hashing leafHash aunts index total).isSome = true ↔
      index < total ∧ aunts.length = depth index total := by
  induction aunts generalizing index total with
  | nil =>
    rw [computeHashFromAunts, depth, length_nil]
    by_cases sole : total = 1
    · simp [sole]
    · by_cases many : 1 < total
      · by_cases inLeft : index < getSplitPoint total <;> simp [sole, many, inLeft]
      · simp [sole, many]
        omega
  | cons top lower ih =>
    rw [computeHashFromAunts, depth, length_cons]
    by_cases many : 1 < total
    · have bounds := split_point_bounds many
      by_cases inside : index < total
      · by_cases inLeft : index < getSplitPoint total
        · simp [Nat.not_le.mpr many, Nat.not_le.mpr inside, many, inside, inLeft, ih]
        · have rest : index - getSplitPoint total < total - getSplitPoint total := by omega
          simp [Nat.not_le.mpr many, Nat.not_le.mpr inside, many, inside, inLeft, ih, rest]
      · simp [inside]
    · simp [many]

theorem root_computed_iff (hashing : Hashing) (proof : Proof) :
    (proof.computeRootHash hashing).isSome = true ↔ proof.WellFormed := by
  unfold computeRootHash WellFormed
  by_cases negative : proof.total < 0 ∨ proof.index < 0
  · rw [if_pos negative]
    simp only [Option.isSome_none, Bool.false_eq_true, false_iff]
    omega
  · rw [if_neg negative, computed_iff, length_reverse]
    omega

theorem verified_iff (hashing : Hashing) (proof : Proof) (rootHash leaf : Bytes) :
    proof.verify hashing rootHash leaf = none ↔
      0 ≤ proof.total ∧ 0 ≤ proof.index ∧ proof.leafHash = hashing.leafHash leaf ∧
        (proof.computeRootHash hashing).getD [] = rootHash := by
  unfold verify
  by_cases noTotal : proof.total < 0
  · simp [noTotal, Int.not_le.mpr noTotal]
  by_cases noIndex : proof.index < 0
  · simp [noTotal, noIndex, Int.not_le.mpr noIndex]
  have total : 0 ≤ proof.total := by omega
  have index : 0 ≤ proof.index := by omega
  by_cases right : proof.leafHash = hashing.leafHash leaf
  · by_cases same : (proof.computeRootHash hashing).getD [] = rootHash <;>
      simp [noTotal, noIndex, total, index, right, same]
  · simp [noTotal, noIndex, right]

end Proof

/-- A proof that verifies is well formed, and its root was computed, exactly if a
malformed proof for the right leaf does not meet an empty root hash: the nil that
stands for a failed computation compares equal to that one. -/
theorem malformed_proof_rejected_iff (hashing : Hashing) (proof : Proof)
    (rootHash leaf : Bytes) :
    (proof.verify hashing rootHash leaf = none →
        proof.WellFormed ∧ (proof.computeRootHash hashing).isSome = true) ↔
      (rootHash = [] → 0 ≤ proof.total → 0 ≤ proof.index →
        proof.leafHash = hashing.leafHash leaf → proof.WellFormed) := by
  rw [Proof.verified_iff, Proof.root_computed_iff, and_self]
  cases computed : proof.computeRootHash hashing with
  | none =>
    have malformed : ¬ proof.WellFormed := by
      rw [← Proof.root_computed_iff hashing, computed]
      simp
    constructor
    · rintro rejected rfl total index right
      exact rejected ⟨total, index, right, rfl⟩
    · rintro condition ⟨total, index, right, same⟩
      exact condition same.symm total index right
  | some root =>
    have formed : proof.WellFormed := by
      rw [← Proof.root_computed_iff hashing, computed]
      rfl
    exact ⟨fun _ _ _ _ _ => formed, fun _ _ => formed⟩

def behindLast : Proof := ⟨2, 5, pairHash.leafHash [5], []⟩

theorem empty_root_accepts_malformed :
    behindLast.verify pairHash [] [5] = none ∧ ¬ behindLast.WellFormed ∧
      behindLast.computeRootHash pairHash = none := by
  constructor
  · decide
  constructor
  · rintro ⟨_, inside, _⟩
    exact absurd inside (by decide)
  · decide

end Tendermint.Merkle
