import Mathlib

/-!
# Ordered trees and heaps

A binary tree is ordered if every label of a left subtree comes before the label above it, and every
label of a right subtree after it; it is a heap if no label is above a smaller one. The two
conditions are stated by recursion on the tree, with the labels of a subtree read from its inorder
traversal, which rotations do not change.

## Main results

* `SearchTree.ordered_iff` — a tree is ordered iff its traversal is.
-/

universe u

namespace SearchTree

open BinaryTree

variable {α : Type u}

/-- The labels of a tree from left to right. -/
def inorder : BinaryTree α → List α
  | .nil => []
  | .node a l r => inorder l ++ a :: inorder r

@[simp] lemma inorder_nil : inorder (.nil : BinaryTree α) = [] := rfl

@[simp] lemma inorder_node (a : α) (l r : BinaryTree α) :
    inorder (.node a l r) = inorder l ++ a :: inorder r := rfl

/-- **Ordered**: what is left of a label comes before it, what is right of it after it. -/
def Ordered (lt : α → α → Prop) : BinaryTree α → Prop
  | .nil => True
  | .node a l r =>
    (∀ b ∈ inorder l, lt b a) ∧ (∀ b ∈ inorder r, lt a b) ∧ Ordered lt l ∧ Ordered lt r

/-- **A heap**: a label is below or level with every label under it. -/
def HeapOrdered (le : α → α → Prop) : BinaryTree α → Prop
  | .nil => True
  | .node a l r =>
    (∀ b ∈ inorder l, le a b) ∧ (∀ b ∈ inorder r, le a b) ∧ HeapOrdered le l ∧ HeapOrdered le r

lemma ordered_iff {lt : α → α → Prop} [IsTrans α lt] {t : BinaryTree α} :
    Ordered lt t ↔ (inorder t).Pairwise lt := by
  induction t with
  | nil => simp [Ordered]
  | node a l r ihl ihr =>
    simp only [Ordered, ihl, ihr, inorder_node, List.pairwise_append, List.pairwise_cons]
    constructor
    · rintro ⟨hla, har, hl, hr⟩
      refine ⟨hl, ⟨har, hr⟩, fun b hb c hc => ?_⟩
      rcases List.mem_cons.mp hc with rfl | hc
      · exact hla b hb
      · exact IsTrans.trans _ _ _ (hla b hb) (har c hc)
    · rintro ⟨hl, ⟨har, hr⟩, hlr⟩
      exact ⟨fun b hb => hlr b hb a (by simp), har, hl, hr⟩

/-- The left child becomes the root. -/
def rotateRight : BinaryTree α → Option (BinaryTree α)
  | .node a (.node b bl br) r => some (.node b bl (.node a br r))
  | _ => none

/-- The right child becomes the root. -/
def rotateLeft : BinaryTree α → Option (BinaryTree α)
  | .node a l (.node b bl br) => some (.node b (.node a l bl) br)
  | _ => none

end SearchTree
