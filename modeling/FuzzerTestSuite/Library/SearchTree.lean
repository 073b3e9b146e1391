import Mathlib.Data.Tree.Basic
import Mathlib.Order.Lattice

/-! Binary search trees.

In a tree whose values increase from left to right, the search that goes down one path finds exactly
the values of the tree (`find_iff`). -/
namespace Library.SearchTree
variable {α : Type}

/-- The values from left to right. -/
def inorder : BinaryTree α → List α
  | .nil => []
  | .node v l r => inorder l ++ v :: inorder r

/-- The search for a value. -/
def find [LT α] [DecidableLT α] (x : α) : BinaryTree α → Bool
  | .nil => false
  | .node v l r => if v < x then find x r else if x < v then find x l else true

theorem find_iff [LinearOrder α] {x : α} {t : BinaryTree α} (h : (inorder t).Pairwise (· < ·)) :
    find x t = true ↔ x ∈ inorder t := by
  induction t with
  | nil => exact iff_of_false Bool.false_ne_true List.not_mem_nil
  | node v l r ihl ihr =>
    rw [inorder, List.pairwise_append, List.pairwise_cons] at h
    obtain ⟨hl, ⟨hv, hr⟩, hlr⟩ := h
    rw [find, inorder, List.mem_append, List.mem_cons]
    rcases lt_trichotomy v x with hlt | rfl | hgt
    · rw [if_pos hlt, ihr hr]
      refine ⟨fun hx => .inr (.inr hx), fun hx => ?_⟩
      rcases hx with hx | rfl | hx
      · exact absurd (hlr x hx v List.mem_cons_self) (lt_asymm hlt)
      · exact absurd hlt (lt_irrefl _)
      · exact hx
    · rw [if_neg (lt_irrefl _), if_neg (lt_irrefl _)]
      exact iff_of_true rfl (.inr (.inl rfl))
    · rw [if_neg (lt_asymm hgt), if_pos hgt, ihl hl]
      refine ⟨.inl, fun hx => ?_⟩
      rcases hx with hx | rfl | hx
      · exact hx
      · exact absurd hgt (lt_irrefl _)
      · exact absurd (hv x hx) (lt_asymm hgt)

theorem length_inorder (t : BinaryTree α) : (inorder t).length = t.numNodes := by
  induction t with
  | nil => rfl
  | node v l r ihl ihr =>
    rw [inorder, List.length_append, List.length_cons, ihl, ihr, BinaryTree.numNodes, Nat.add_assoc]

end Library.SearchTree
