import Tendermint.Types.Basic

/-!
crypto/merkle: the RFC 6962 tree over byte slices and its inclusion proofs, for
any hash function `tmhash.Sum`. `computeHashFromAunts` takes the aunts with the
one nearest to the root first, which is the end the source takes them from.
The proof operators and the encodings are left out.
-/

namespace Tendermint.Merkle

open List
open Types (Bytes)

structure Hashing where
  sum : Bytes → Bytes

namespace Hashing

def emptyHash (hashing : Hashing) : Bytes := hashing.sum []

def leafHash (hashing : Hashing) (leaf : Bytes) : Bytes := hashing.sum (0 :: leaf)

def innerHash (hashing : Hashing) (left right : Bytes) : Bytes :=
  hashing.sum (1 :: (left ++ right))

/-- The size of a SHA-256 digest, which is all that is used of `tmhash.Sum`. -/
def Sized (hashing : Hashing) : Prop := ∀ input, (hashing.sum input).length = Types.hashSize

end Hashing

def getSplitPoint (length : Nat) : Nat :=
  let k := 2 ^ Nat.log2 length
  if k = length then k / 2 else k

/-- `emptyHash`, `leafHash` and `innerHash`. -/
structure NodeHashes where
  emptyHash : Bytes
  leafHash : Bytes → Bytes
  innerHash : Bytes → Bytes → Bytes

namespace NodeHashes

variable (nodes : NodeHashes)

/-- The tree is split at least once for each unit of `fuel`; `items.length`
splits reach every leaf. -/
def hashWithin : Nat → List Bytes → Bytes
  | _, [] => nodes.emptyHash
  | _, [item] => nodes.leafHash item
  | 0, _ :: _ :: _ => nodes.emptyHash
  | fuel + 1, items =>
    let k := getSplitPoint items.length
    nodes.innerHash (hashWithin fuel (items.take k)) (hashWithin fuel (items.drop k))

def hashFromByteSlices (items : List Bytes) : Bytes := nodes.hashWithin items.length items

end NodeHashes

def Hashing.nodes (hashing : Hashing) : NodeHashes :=
  ⟨hashing.emptyHash, hashing.leafHash, hashing.innerHash⟩

def hashWithin (hashing : Hashing) (fuel : Nat) (items : List Bytes) : Bytes :=
  hashing.nodes.hashWithin fuel items

def hashFromByteSlices (hashing : Hashing) (items : List Bytes) : Bytes :=
  hashing.nodes.hashFromByteSlices items

structure Proof where
  total : Int
  index : Int
  leafHash : Bytes
  aunts : List Bytes
  deriving DecidableEq, Repr

namespace Proof

/-- A nil result of the source is `none`. -/
def computeHashFromAunts (hashing : Hashing) (leafHash : Bytes) :
    List Bytes → Nat → Nat → Option Bytes
  | [], index, total => if index < total ∧ total = 1 then some leafHash else none
  | top :: lower, index, total =>
    if total ≤ index ∨ total ≤ 1 then none
    else
      let numLeft := getSplitPoint total
      if index < numLeft then
        (computeHashFromAunts hashing leafHash lower index numLeft).map
          fun left => hashing.innerHash left top
      else
        (computeHashFromAunts hashing leafHash lower (index - numLeft) (total - numLeft)).map
          fun right => hashing.innerHash top right

def computeRootHash (hashing : Hashing) (proof : Proof) : Option Bytes :=
  if proof.total < 0 ∨ proof.index < 0 then none
  else computeHashFromAunts hashing proof.leafHash proof.aunts.reverse proof.index.toNat
    proof.total.toNat

inductive VerifyError where
  | negativeTotal
  | negativeIndex
  | invalidLeafHash (wanted got : Bytes)
  | invalidRootHash (wanted got : Bytes)
  deriving DecidableEq, Repr

def verify (hashing : Hashing) (proof : Proof) (rootHash leaf : Bytes) : Option VerifyError :=
  if proof.total < 0 then some .negativeTotal
  else if proof.index < 0 then some .negativeIndex
  else
    let leafHash := hashing.leafHash leaf
    if proof.leafHash ≠ leafHash then some (.invalidLeafHash leafHash proof.leafHash)
    else
      -- A nil hash compares equal to an empty one.
      let computedHash := (proof.computeRootHash hashing).getD []
      if computedHash ≠ rootHash then some (.invalidRootHash rootHash computedHash) else none

end Proof

def trailsWithin (hashing : Hashing) : Nat → List Bytes → Bytes × List (Bytes × List Bytes)
  | _, [] => (hashing.emptyHash, [])
  | _, [item] => (hashing.leafHash item, [(hashing.leafHash item, [])])
  | 0, _ :: _ :: _ => (hashing.emptyHash, [])
  | fuel + 1, items =>
    let k := getSplitPoint items.length
    let (leftRoot, lefts) := trailsWithin hashing fuel (items.take k)
    let (rightRoot, rights) := trailsWithin hashing fuel (items.drop k)
    (hashing.innerHash leftRoot rightRoot,
      lefts.map (fun trail => (trail.1, trail.2 ++ [rightRoot])) ++
        rights.map (fun trail => (trail.1, trail.2 ++ [leftRoot])))

def proofsFromByteSlices (hashing : Hashing) (items : List Bytes) : Bytes × List Proof :=
  let (root, trails) := trailsWithin hashing items.length items
  (root, trails.zipIdx.map fun (trail, i) => ⟨items.length, i, trail.1, trail.2⟩)

theorem split_point_bounds {length : Nat} (many : 1 < length) :
    0 < getSplitPoint length ∧ getSplitPoint length < length := by
  have below : 2 ^ Nat.log2 length ≤ length := Nat.log2_self_le (by omega)
  have positive : 0 < 2 ^ Nat.log2 length := Nat.two_pow_pos _
  unfold getSplitPoint
  simp only
  split <;> omega

variable {items : List Bytes} {hashing : Hashing}

theorem hash_within_split (hashing : Hashing) (fuel : Nat) (many : 1 < items.length) :
    hashWithin hashing (fuel + 1) items = hashing.innerHash
      (hashWithin hashing fuel (items.take (getSplitPoint items.length)))
      (hashWithin hashing fuel (items.drop (getSplitPoint items.length))) := by
  match items, many with
  | _ :: _ :: _, _ => rfl

theorem hash_within_length (sized : hashing.Sized) (fuel : Nat) (items : List Bytes) :
    (hashWithin hashing fuel items).length = Types.hashSize := by
  unfold hashWithin
  fun_cases NodeHashes.hashWithin hashing.nodes fuel items
  all_goals exact sized _

theorem hash_from_byte_slices_length (sized : hashing.Sized) (items : List Bytes) :
    (hashFromByteSlices hashing items).length = Types.hashSize :=
  hash_within_length sized items.length items

def hashedWithin (hashing : Hashing) : Nat → List Bytes → List Bytes
  | _, [] => [[]]
  | _, [item] => [0 :: item]
  | 0, _ :: _ :: _ => []
  | fuel + 1, items =>
    let k := getSplitPoint items.length
    (1 :: (hashWithin hashing fuel (items.take k) ++ hashWithin hashing fuel (items.drop k))) ::
      (hashedWithin hashing fuel (items.take k) ++ hashedWithin hashing fuel (items.drop k))

/-- No other string has the hash of one that was hashed for the tree. -/
def Hashing.Binding (hashing : Hashing) (items : List Bytes) : Prop :=
  ∀ input ∈ hashedWithin hashing items.length items, ∀ other,
    hashing.sum other = hashing.sum input → other = input

/-- At the nodes of the tree `leafHash` and `innerHash` are injective, the latter
in the two halves as they are hashed together. -/
def Hashing.NodeBinding (hashing : Hashing) (items : List Bytes) : Prop :=
  ∀ input ∈ hashedWithin hashing items.length items, ∀ other, other.head? = input.head? →
    hashing.sum other = hashing.sum input → other = input

theorem Hashing.Binding.nodes (binding : hashing.Binding items) : hashing.NodeBinding items :=
  fun input member other _ same => binding input member other same

theorem hashed_within_split (hashing : Hashing) (fuel : Nat) (many : 1 < items.length) :
    hashedWithin hashing (fuel + 1) items =
      (1 :: (hashWithin hashing fuel (items.take (getSplitPoint items.length)) ++
        hashWithin hashing fuel (items.drop (getSplitPoint items.length)))) ::
      (hashedWithin hashing fuel (items.take (getSplitPoint items.length)) ++
        hashedWithin hashing fuel (items.drop (getSplitPoint items.length))) := by
  match items, many with
  | _ :: _ :: _, _ => rfl

/-- No string hashed for the one tree collides with another one hashed for the
other tree. -/
def Hashing.Apart (hashing : Hashing) (items others : List Bytes) : Prop :=
  ∀ input ∈ hashedWithin hashing items.length items,
    ∀ other ∈ hashedWithin hashing others.length others,
      hashing.sum input = hashing.sum other → input = other

instance (hashing : Hashing) (items others : List Bytes) : Decidable (hashing.Apart items others) :=
  inferInstanceAs (Decidable (∀ input ∈ _, ∀ other ∈ _, _ → _))

theorem root_hashed (hashing : Hashing) {fuel : Nat} (enough : items.length ≤ fuel) :
    ∃ top ∈ hashedWithin hashing fuel items, hashing.sum top = hashWithin hashing fuel items ∧
      (items = [] ∧ top = [] ∨ (∃ item, items = [item] ∧ top = 0 :: item) ∨
        1 < items.length ∧ top.head? = some 1) := by
  match items, enough with
  | [], _ => exact ⟨[], by simp [hashedWithin], by cases fuel <;> rfl, by simp⟩
  | [item], _ => exact ⟨0 :: item, by simp [hashedWithin], by cases fuel <;> rfl, by simp⟩
  | first :: second :: rest, enough =>
    obtain ⟨below, rfl⟩ : ∃ below, fuel = below + 1 :=
      ⟨fuel - 1, by simp only [length_cons] at enough; omega⟩
    have many : 1 < (first :: second :: rest).length := by simp
    exact ⟨_, mem_cons_self, rfl, Or.inr (Or.inr ⟨many, rfl⟩)⟩

-- The strings hashed at the two tops are equal, so the trees have the same form
-- at the top; below it the induction goes into both halves.
theorem hash_within_injective (sized : hashing.Sized) {fuel otherFuel : Nat} {others : List Bytes}
    (enough : items.length ≤ fuel) (otherEnough : others.length ≤ otherFuel)
    (apart : ∀ input ∈ hashedWithin hashing fuel items,
      ∀ other ∈ hashedWithin hashing otherFuel others,
        hashing.sum input = hashing.sum other → input = other)
    (same : hashWithin hashing fuel items = hashWithin hashing otherFuel others) :
    items = others := by
  induction fuel generalizing otherFuel items others with
  | zero =>
    have empty : items = [] := length_eq_zero_iff.mp (Nat.le_zero.mp enough)
    obtain ⟨top, member, root, form⟩ := root_hashed hashing otherEnough
    have none : [] = top := apart [] (by simp [empty, hashedWithin]) top member
      (by rw [root, ← same, empty]; rfl)
    rcases form with ⟨rfl, _⟩ | ⟨item, _, rfl⟩ | ⟨_, head⟩
    · exact empty
    · cases none
    · rw [← none] at head
      cases head
  | succ fuel ih =>
    obtain ⟨top, member, root, form⟩ := root_hashed hashing enough
    obtain ⟨other, otherMember, otherRoot, otherForm⟩ :=
      root_hashed hashing otherEnough
    have equal : top = other :=
      apart top member other otherMember (root.trans (same.trans otherRoot.symm))
    rcases form with ⟨rfl, rfl⟩ | ⟨item, rfl, rfl⟩ | ⟨many, head⟩ <;>
      rcases otherForm with ⟨rfl, rfl⟩ | ⟨otherItem, rfl, rfl⟩ | ⟨otherMany, otherHead⟩
    · rfl
    · cases equal
    · rw [← equal] at otherHead
      cases otherHead
    · cases equal
    · cases equal
      rfl
    · rw [← equal] at otherHead
      cases otherHead
    · rw [equal] at head
      cases head
    · rw [equal] at head
      cases head
    · obtain ⟨below, rfl⟩ : ∃ below, otherFuel = below + 1 := ⟨otherFuel - 1, by omega⟩
      have bounds := split_point_bounds many
      have otherBounds := split_point_bounds otherMany
      rw [hash_within_split hashing fuel many, hash_within_split hashing below otherMany] at same
      rw [hashed_within_split hashing fuel many,
        hashed_within_split hashing below otherMany] at apart
      have halves := append_inj
        (List.cons.inj (apart _ mem_cons_self _ mem_cons_self same)).2
        ((hash_within_length sized fuel _).trans (hash_within_length sized below _).symm)
      have left := @ih (items.take (getSplitPoint items.length)) below
        (others.take (getSplitPoint others.length)) (by rw [length_take]; omega)
        (by rw [length_take]; omega)
        (fun input inside given otherInside => apart input
          (mem_cons_of_mem _ (mem_append_left _ inside)) given
          (mem_cons_of_mem _ (mem_append_left _ otherInside))) halves.1
      have right := @ih (items.drop (getSplitPoint items.length)) below
        (others.drop (getSplitPoint others.length)) (by rw [length_drop]; omega)
        (by rw [length_drop]; omega)
        (fun input inside given otherInside => apart input
          (mem_cons_of_mem _ (mem_append_right _ inside)) given
          (mem_cons_of_mem _ (mem_append_right _ otherInside))) halves.2
      rw [← take_append_drop (getSplitPoint items.length) items, left, right, take_append_drop]

section

variable (hashing : Hashing)

variable {items : List Bytes} {leaf : Bytes} {index : Nat}

theorem hash_from_byte_slices_injective (sized : hashing.Sized) {others : List Bytes}
    (apart : hashing.Apart items others)
    (same : hashFromByteSlices hashing items = hashFromByteSlices hashing others) :
    items = others :=
  hash_within_injective sized (Nat.le_refl _) (Nat.le_refl _) apart same

theorem computed_hash_length (sized : hashing.Sized) {aunts : List Bytes} {total : Nat}
    {root : Bytes}
    (computed : Proof.computeHashFromAunts hashing (hashing.leafHash leaf) aunts index total =
      some root) :
    root.length = Types.hashSize := by
  cases aunts with
  | nil =>
    unfold Proof.computeHashFromAunts at computed
    split at computed
    · cases computed
      exact sized _
    · cases computed
  | cons top lower =>
    unfold Proof.computeHashFromAunts at computed
    simp only at computed
    split at computed
    · cases computed
    split at computed
    · obtain ⟨_, _, rfl⟩ := Option.map_eq_some_iff.mp computed
      exact sized _
    · obtain ⟨_, _, rfl⟩ := Option.map_eq_some_iff.mp computed
      exact sized _

/-- Aunts of any origin that lead to the root of the tree, for a position of the
tree, prove the item at that position. The topmost aunt and the hash below it
are the two halves of the string hashed at the top, cut at the size of a hash. -/
theorem aunts_sound (sized : hashing.Sized) {aunts : List Bytes} {fuel : Nat}
    (enough : items.length ≤ fuel)
    (binding : ∀ input ∈ hashedWithin hashing fuel items, ∀ other, other.head? = input.head? →
      hashing.sum other = hashing.sum input → other = input)
    (computed : Proof.computeHashFromAunts hashing (hashing.leafHash leaf) aunts index
      items.length = some (hashWithin hashing fuel items)) :
    items[index]? = some leaf := by
  induction aunts generalizing index fuel items with
  | nil =>
    unfold Proof.computeHashFromAunts at computed
    split at computed
    case isFalse => cases computed
    case isTrue sole =>
      match items, sole with
      | [item], sole =>
        have first : index = 0 := by simpa using sole.1
        simp only [hashWithin, NodeHashes.hashWithin, Option.some.injEq] at computed
        have same := binding (0 :: item) (by simp [hashedWithin]) (0 :: leaf) rfl computed
        cases same
        rw [first]
        rfl
  | cons top lower ih =>
    unfold Proof.computeHashFromAunts at computed
    simp only at computed
    split at computed
    case isTrue => cases computed
    case isFalse range =>
    have many : 1 < items.length := by omega
    obtain ⟨below, rfl⟩ : ∃ below, fuel = below + 1 := ⟨fuel - 1, by omega⟩
    have bounds := split_point_bounds many
    rw [hashed_within_split hashing below many] at binding
    rw [hash_within_split hashing below many] at computed
    have atTop := binding _ mem_cons_self
    have leftLength := hash_within_length sized below (items.take (getSplitPoint items.length))
    have rightLength := hash_within_length sized below (items.drop (getSplitPoint items.length))
    split at computed
    case isTrue inLeft =>
      obtain ⟨left, lower_eq, same⟩ := Option.map_eq_some_iff.mp computed
      have size := computed_hash_length hashing sized lower_eq
      have whole := atTop (1 :: (left ++ top)) rfl same
      have halves := append_inj (List.cons.inj whole).2 (size.trans leftLength.symm)
      have taken : (items.take (getSplitPoint items.length)).length =
          getSplitPoint items.length := by
        rw [length_take]
        omega
      rw [halves.1] at lower_eq
      have found := @ih (items.take (getSplitPoint items.length)) index below (by omega)
        (fun input member => binding input
          (mem_cons_of_mem _ (mem_append_left _ member))) (by rw [taken]; exact lower_eq)
      rw [getElem?_take_of_lt inLeft] at found
      exact found
    case isFalse inRight =>
      obtain ⟨right, lower_eq, same⟩ := Option.map_eq_some_iff.mp computed
      have size := computed_hash_length hashing sized lower_eq
      have whole := atTop (1 :: (top ++ right)) rfl same
      have halves := append_inj' (List.cons.inj whole).2 (size.trans rightLength.symm)
      rw [halves.2] at lower_eq
      have found := @ih (items.drop (getSplitPoint items.length))
        (index - getSplitPoint items.length) below (by rw [length_drop]; omega)
        (fun input member => binding input
          (mem_cons_of_mem _ (mem_append_right _ member))) (by
            rw [length_drop]
            exact lower_eq)
      rw [getElem?_drop] at found
      rw [← found]
      congr 1
      omega

theorem trails_root (fuel : Nat) (items : List Bytes) :
    (trailsWithin hashing fuel items).1 = hashWithin hashing fuel items := by
  induction fuel generalizing items with
  | zero =>
    match items with
    | [] => rfl
    | [_] => rfl
    | _ :: _ :: _ => rfl
  | succ fuel ih =>
    match items with
    | [] => rfl
    | [_] => rfl
    | first :: second :: rest =>
      rw [hash_within_split hashing fuel (by simp)]
      simp only [trailsWithin, ih]

theorem verify_computed {proof : Proof} {root : Bytes} (nonempty : root ≠ [])
    (verified : proof.verify hashing root leaf = none) :
    0 ≤ proof.index ∧ Proof.computeHashFromAunts hashing (hashing.leafHash leaf)
      proof.aunts.reverse proof.index.toNat proof.total.toNat = some root := by
  unfold Proof.verify at verified
  split at verified
  · cases verified
  split at verified
  · cases verified
  dsimp only at verified
  split at verified
  · cases verified
  rename_i leafHash
  split at verified
  · cases verified
  rename_i rootHash
  unfold Proof.computeRootHash at rootHash
  rw [if_neg (by omega), not_not.mp leafHash, not_not] at rootHash
  refine ⟨by omega, ?_⟩
  cases computed : Proof.computeHashFromAunts hashing (hashing.leafHash leaf) proof.aunts.reverse
      proof.index.toNat proof.total.toNat with
  | none =>
    rw [computed] at rootHash
    exact absurd rootHash.symm nonempty
  | some hash => rw [← rootHash, computed, Option.getD_some]

theorem hash_within_nonempty (sized : hashing.Sized) (fuel : Nat) (items : List Bytes) :
    hashWithin hashing fuel items ≠ [] := by
  intro empty
  have size := hash_within_length sized fuel items
  rw [empty] at size
  cases size

theorem verify_sound (sized : hashing.Sized) (items : List Bytes)
    (binding : hashing.NodeBinding items) (proof : Proof) (leaf : Bytes)
    (total : proof.total = items.length)
    (verified : proof.verify hashing (hashFromByteSlices hashing items) leaf = none) :
    0 ≤ proof.index ∧ items[proof.index.toNat]? = some leaf := by
  obtain ⟨nonneg, computed⟩ :=
    verify_computed hashing (hash_within_nonempty hashing sized _ _) verified
  rw [total, Int.toNat_natCast] at computed
  exact ⟨nonneg, aunts_sound hashing sized (Nat.le_refl _) binding computed⟩

theorem trails_within_split (fuel : Nat) (many : 1 < items.length) :
    (trailsWithin hashing (fuel + 1) items).2 =
      (trailsWithin hashing fuel (items.take (getSplitPoint items.length))).2.map (fun trail =>
        (trail.1,
          trail.2 ++ [hashWithin hashing fuel (items.drop (getSplitPoint items.length))])) ++
      (trailsWithin hashing fuel (items.drop (getSplitPoint items.length))).2.map fun trail =>
        (trail.1,
          trail.2 ++ [hashWithin hashing fuel (items.take (getSplitPoint items.length))]) := by
  match items, many with
  | _ :: _ :: _, _ => simp only [trailsWithin, trails_root]

theorem trails_length (fuel : Nat) (items : List Bytes) (enough : items.length ≤ fuel) :
    (trailsWithin hashing fuel items).2.length = items.length := by
  induction fuel generalizing items with
  | zero => match items with
    | [] => rfl
  | succ fuel ih =>
  rcases Nat.lt_or_ge 1 items.length with many | few
  · have bounds := split_point_bounds many
    have lefts := ih (items.take (getSplitPoint items.length)) (by
      rw [length_take]
      omega)
    have rights := ih (items.drop (getSplitPoint items.length)) (by
      rw [length_drop]
      omega)
    rw [trails_within_split hashing fuel many, length_append, length_map,
      length_map, lefts, rights, length_take, length_drop]
    omega
  · match items, few with
    | [], _ => rfl
    | [_], _ => rfl

theorem trails_complete (fuel : Nat) (enough : items.length ≤ fuel) {item : Bytes}
    (here : items[index]? = some item) :
    ∃ aunts, (trailsWithin hashing fuel items).2[index]? = some (hashing.leafHash item, aunts) ∧
      Proof.computeHashFromAunts hashing (hashing.leafHash item) aunts.reverse index
        items.length = some (hashWithin hashing fuel items) := by
  induction fuel generalizing items index with
  | zero => match items with
    | [] => cases here
  | succ fuel ih =>
  have inside := (List.getElem?_eq_some_iff.mp here).1
  rcases Nat.lt_or_ge 1 items.length with many | few
  · have bounds := split_point_bounds many
    have taken : (items.take (getSplitPoint items.length)).length =
        getSplitPoint items.length := by
      rw [length_take]
      omega
    have lefts := trails_length hashing fuel (items.take (getSplitPoint items.length)) (by omega)
    rw [trails_within_split hashing fuel many, hash_within_split hashing fuel many]
    by_cases inLeft : index < getSplitPoint items.length
    · obtain ⟨aunts, found, computed⟩ :=
        @ih (items.take (getSplitPoint items.length)) index (by omega)
          (by rw [getElem?_take_of_lt inLeft, here])
      refine ⟨aunts ++ [hashWithin hashing fuel (items.drop (getSplitPoint items.length))], ?_, ?_⟩
      · rw [getElem?_append_left (by rw [length_map]; omega), getElem?_map, found]
        rfl
      · rw [taken] at computed
        simp [Proof.computeHashFromAunts, inLeft, computed, Nat.not_le.mpr inside,
          Nat.not_le.mpr many]
    · obtain ⟨aunts, found, computed⟩ :=
        @ih (items.drop (getSplitPoint items.length)) (index - getSplitPoint items.length)
          (by rw [length_drop]; omega)
          (by rw [getElem?_drop, ← here]; congr 1; omega)
      refine ⟨aunts ++ [hashWithin hashing fuel (items.take (getSplitPoint items.length))], ?_, ?_⟩
      · rw [getElem?_append_right (by rw [length_map]; omega), getElem?_map,
          length_map, lefts, taken, found]
        rfl
      · rw [length_drop] at computed
        simp [Proof.computeHashFromAunts, inLeft, computed, Nat.not_le.mpr inside,
          Nat.not_le.mpr many]
  · match items, few with
    | [only], _ =>
      have first : index = 0 := by simpa using inside
      subst first
      cases here
      exact ⟨[], rfl, rfl⟩

theorem proofs_complete (items : List Bytes) (index : Nat) (item : Bytes)
    (here : items[index]? = some item) :
    ∃ proof, (proofsFromByteSlices hashing items).2[index]? = some proof ∧
      proof.index = index ∧ proof.total = items.length ∧
      proof.verify hashing (hashFromByteSlices hashing items) item = none := by
  obtain ⟨aunts, found, computed⟩ :=
    trails_complete hashing items.length (Nat.le_refl _) here
  refine ⟨⟨items.length, index, hashing.leafHash item, aunts⟩, ?_, rfl, rfl, ?_⟩
  · simp [proofsFromByteSlices, found]
  · have total : ¬ (items.length : Int) < 0 := by omega
    have position : ¬ (index : Int) < 0 := by omega
    have root : hashFromByteSlices hashing items = hashWithin hashing items.length items := rfl
    simp [Proof.verify, Proof.computeRootHash, total, position, computed, root]

end

/-- Merkle proofs are complete, and for the nodes at which the hash is injective
they are sound: whatever the aunts, a proof for the right total that verifies
proves the item at its index. -/
theorem merkle_proofs_complete_and_sound (hashing : Hashing) (sized : hashing.Sized)
    (items : List Bytes) :
    (proofsFromByteSlices hashing items).1 = hashFromByteSlices hashing items ∧
    (proofsFromByteSlices hashing items).2.length = items.length ∧
    (∀ (index : Nat) (item : Bytes), items[index]? = some item →
      ∃ proof : Proof, (proofsFromByteSlices hashing items).2[index]? = some proof ∧
        proof.index = index ∧ proof.total = items.length ∧
        proof.verify hashing (hashFromByteSlices hashing items) item = none) ∧
    (hashing.NodeBinding items → ∀ (proof : Proof) (leaf : Bytes), proof.total = items.length →
      proof.verify hashing (hashFromByteSlices hashing items) leaf = none →
      0 ≤ proof.index ∧ items[proof.index.toNat]? = some leaf) := by
  have root : (proofsFromByteSlices hashing items).1 = hashFromByteSlices hashing items :=
    trails_root hashing items.length items
  refine ⟨root, ?_, proofs_complete hashing items, ?_⟩
  · rw [proofsFromByteSlices, length_map, length_zipIdx]
    exact trails_length hashing items.length items (Nat.le_refl _)
  · intro binding proof leaf total verified
    exact verify_sound hashing sized items binding proof leaf total verified

def pairHash : Hashing where
  sum input := List.replicate 32 (if input = [0, 5] then 1 else if input = [0, 6] then 2
    else if input = 1 :: (List.replicate 32 1 ++ List.replicate 32 2) then 3 else 0)

theorem pair_hash_sized : pairHash.Sized := fun _ => length_replicate

theorem pair_hash_binding : pairHash.NodeBinding [[5], [6]] := by
  have nodes : hashedWithin pairHash 2 [[5], [6]] =
      [1 :: (List.replicate 32 1 ++ List.replicate 32 2), [0, 5], [0, 6]] := by decide +kernel
  intro input member other _ same
  have value := (replicate_right_inj (by decide)).mp same
  change input ∈ hashedWithin pairHash 2 [[5], [6]] at member
  simp only [nodes, mem_cons, not_mem_nil, or_false] at member
  rcases member with rfl | rfl | rfl <;> split_ifs at value <;> simp_all

theorem pair_proofs_complete_and_sound :
    pairHash.NodeBinding [[5], [6]] ∧ ∀ (proof : Proof) (leaf : Bytes), proof.total = 2 →
      proof.verify pairHash (hashFromByteSlices pairHash [[5], [6]]) leaf = none →
      0 ≤ proof.index ∧ [[5], [6]][proof.index.toNat]? = some leaf :=
  ⟨pair_hash_binding, (merkle_proofs_complete_and_sound pairHash pair_hash_sized
    [[5], [6]]).2.2.2 pair_hash_binding⟩

end Tendermint.Merkle
