import Mathlib

/-! Two ways of folding a list up a binary tree. From the top the list is cut in
two, each part is folded and the results are joined; from the bottom neighbours
are joined level by level, and a last element without a neighbour is carried over.
The two agree wherever the cut of a level is twice the cut of the level above it. -/

namespace PairedTree

open List

variable {Node : Type*} (join : Node → Node → Node)

def pairs : List Node → List Node
  | left :: right :: rest => join left right :: pairs rest
  | short => short

/-- The fold from the top; `fuel` bounds the height. -/
def fold (cut : Nat → Nat) (none : Node) : Nat → List Node → Node
  | _, [] => none
  | _, [node] => node
  | 0, _ :: _ :: _ => none
  | fuel + 1, nodes =>
    let k := cut nodes.length
    join (fold cut none fuel (nodes.take k)) (fold cut none fuel (nodes.drop k))

/-- A cut leaves something on both sides, and pairing halves it. -/
structure Halving (cut : Nat → Nat) : Prop where
  bounds : ∀ length, 1 < length → 0 < cut length ∧ cut length < length
  doubled : ∀ length, 2 < length → cut length = 2 * cut ((length + 1) / 2)

@[simp]
theorem pairs_length (nodes : List Node) :
    (pairs join nodes).length = (nodes.length + 1) / 2 := by
  fun_induction pairs join nodes with
  | case1 left right rest ih =>
    simp only [length_cons, ih]
    omega
  | case2 short single =>
    match short, single with
    | [], _ => simp
    | [_], _ => simp
    | left :: right :: rest, single => exact absurd rfl (single left right rest)

theorem pairs_take (half : Nat) (nodes : List Node) :
    pairs join (nodes.take (2 * half)) = (pairs join nodes).take half := by
  induction half generalizing nodes with
  | zero => simp [pairs]
  | succ half ih =>
  match nodes with
  | [] => simp [pairs]
  | [node] => simp [pairs, Nat.mul_succ]
  | left :: right :: rest =>
    simp only [Nat.mul_succ, take_succ_cons, pairs]
    exact congrArg _ (ih rest)

theorem pairs_drop (half : Nat) (nodes : List Node) :
    pairs join (nodes.drop (2 * half)) = (pairs join nodes).drop half := by
  induction half generalizing nodes with
  | zero => simp
  | succ half ih =>
  match nodes with
  | [] => simp [pairs]
  | [node] => simp [pairs, Nat.mul_succ]
  | left :: right :: rest =>
    simp only [Nat.mul_succ, drop_succ_cons, pairs]
    exact ih rest

theorem fold_split (cut : Nat → Nat) (none : Node) (fuel : Nat) (nodes : List Node)
    (many : 1 < nodes.length) :
    fold join cut none (fuel + 1) nodes =
      join (fold join cut none fuel (nodes.take (cut nodes.length)))
        (fold join cut none fuel (nodes.drop (cut nodes.length))) := by
  match nodes, many with
  | _ :: _ :: _, _ => rfl

/-- Joining neighbours first leaves the fold from the top as it is. -/
theorem fold_pairs (cut : Nat → Nat) (halving : Halving cut) (none : Node) (fuel fewer : Nat)
    (nodes : List Node) (enough : nodes.length ≤ fuel)
    (enoughPairs : (pairs join nodes).length ≤ fewer) :
    fold join cut none fewer (pairs join nodes) = fold join cut none fuel nodes := by
  induction fuel generalizing fewer nodes with
  | zero =>
    have empty : nodes = [] := length_eq_zero_iff.mp (Nat.le_zero.mp enough)
    rw [empty]
    simp [pairs, fold]
  | succ fuel ih =>
    match nodes, enough, enoughPairs with
    | [], _, _ => simp [pairs, fold]
    | [node], _, _ => simp [pairs, fold]
    | [left, right], _, _ =>
      have bounds := halving.bounds 2 (by decide)
      have middle : cut 2 = 1 := by omega
      simp [pairs, fold, middle]
    | first :: second :: third :: rest, enough, enoughPairs =>
      -- Both cuts fall at the same place, since pairing halves the one below.
      generalize same : first :: second :: third :: rest = nodes at enough enoughPairs ⊢
      have many : 2 < nodes.length := by simp [← same]
      have bounds := halving.bounds nodes.length (by omega)
      have doubled := halving.doubled nodes.length many
      rw [pairs_length] at enoughPairs
      obtain ⟨below, rfl⟩ : ∃ below, fewer = below + 1 := ⟨fewer - 1, by omega⟩
      rw [fold_split join cut none fuel nodes (by omega),
        fold_split join cut none below _ (by rw [pairs_length]; omega), pairs_length,
        ← pairs_take, ← pairs_drop, ← doubled]
      congr 1
      · apply ih
        · rw [length_take]
          omega
        · rw [pairs_length, length_take]
          omega
      · apply ih
        · rw [length_drop]
          omega
        · rw [pairs_length, length_drop]
          omega

end PairedTree
