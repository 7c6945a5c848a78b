import Mathlib.Data.Tree.Basic
import Mathlib.Tactic.Common

/-!
# Search trees in order

A binary tree read from left to right, and the two partial trees of a search that goes down
from the root. The left one holds what the search has left behind on its left, each entry
with its own left subtree and the last one first, and the right one mirrors it.
-/

namespace Trace4J.Library.SearchTree
variable {α : Type*}

def inorder : BinaryTree α → List α
  | .nil => []
  | .node a l r => inorder l ++ a :: inorder r

abbrev Spine (α : Type*) := List (α × BinaryTree α)

def underLeft : Spine α → BinaryTree α → BinaryTree α
  | [], t => t
  | (a, l) :: spine, t => underLeft spine (.node a l t)

def underRight : Spine α → BinaryTree α → BinaryTree α
  | [], t => t
  | (a, r) :: spine, t => underRight spine (.node a t r)

def leftElems : Spine α → List α
  | [] => []
  | (a, l) :: spine => leftElems spine ++ (inorder l ++ [a])

def rightElems : Spine α → List α
  | [] => []
  | (a, r) :: spine => a :: inorder r ++ rightElems spine

@[simp]
theorem inorder_nil : inorder (.nil : BinaryTree α) = [] := rfl

@[simp]
theorem inorder_node (a : α) (l r : BinaryTree α) :
    inorder (.node a l r) = inorder l ++ a :: inorder r := rfl

theorem forall_inorder_nil {P : α → Prop} : ∀ a ∈ inorder (.nil : BinaryTree α), P a := nofun

theorem inorder_eq_nil {t : BinaryTree α} (h : inorder t = []) : t = .nil := by
  cases t with
  | nil => rfl
  | node a l r => simp at h

theorem inorder_underLeft (spine : Spine α) (t : BinaryTree α) :
    inorder (underLeft spine t) = leftElems spine ++ inorder t := by
  induction spine generalizing t with
  | nil => rfl
  | cons entry spine ih => simp [underLeft, leftElems, ih]

theorem inorder_underRight (spine : Spine α) (t : BinaryTree α) :
    inorder (underRight spine t) = inorder t ++ rightElems spine := by
  induction spine generalizing t with
  | nil => simp [underRight, rightElems]
  | cons entry spine ih => simp [underRight, rightElems, ih]

/-- A list of the elements in order is sorted if every node stands between its subtrees. -/
theorem pairwise_node {R : α → α → Prop} {a : α} {l r : BinaryTree α}
    (h : (inorder (.node a l r)).Pairwise R) :
    (inorder l).Pairwise R ∧ (inorder r).Pairwise R ∧ (∀ b ∈ inorder l, R b a) ∧
      (∀ b ∈ inorder r, R a b) ∧ ∀ b ∈ inorder l, ∀ c ∈ inorder r, R b c := by
  rw [inorder_node, List.pairwise_append, List.pairwise_cons] at h
  obtain ⟨hl, ⟨hroot, hr⟩, hcross⟩ := h
  refine ⟨hl, hr, ?_, hroot, ?_⟩
  · intro b hb
    exact hcross b hb a List.mem_cons_self
  · intro b hb c hc
    exact hcross b hb c (List.mem_cons_of_mem _ hc)

end Trace4J.Library.SearchTree
