import Mathlib

/-!
# Search trees with heap order and subtree maxima

Binary trees whose values carry a key, a priority and a cached maximum of the
subtree.  The shape of a tree is what rotations, splits and merges change, and
the in-order list of its values is what they keep.  So the search order is a
property of the in-order list (`searchTree_iff_pairwise`), while the heap order
and the cached maximum are stated at every node (`Everywhere`).

The cache is rewritten when a subtree changes.  Facts about the other parts of
a value are therefore stated through a projection that forgets the cache, and
`HeapOrdered` and `SearchTree` only see the projections they are given.
-/

namespace BinaryTree

variable {α β κ : Type*}

/-! ## The in-order list -/

/-- The values of a tree from left to right. -/
def inorder : BinaryTree α → List α
  | .nil => []
  | .node a l r => l.inorder ++ a :: r.inorder

@[simp] theorem inorder_nil : (.nil : BinaryTree α).inorder = [] := rfl

@[simp] theorem inorder_node (a : α) (l r : BinaryTree α) :
    (BinaryTree.node a l r).inorder = l.inorder ++ a :: r.inorder := rfl

theorem length_inorder : ∀ t : BinaryTree α, t.inorder.length = t.numNodes
  | .nil => rfl
  | .node a l r => by
      simp only [inorder_node, List.length_append, List.length_cons, numNodes,
        length_inorder l, length_inorder r]
      omega

/-! ## Properties of every node -/

/-- `P` holds at every node, of the value there and its two subtrees. -/
def Everywhere (P : α → BinaryTree α → BinaryTree α → Prop) : BinaryTree α → Prop
  | .nil => True
  | .node a l r => P a l r ∧ l.Everywhere P ∧ r.Everywhere P

variable {a : α} {prio : α → κ}

@[simp] theorem everywhere_nil : (.nil : BinaryTree α).Everywhere P := trivial

@[simp] theorem everywhere_node :
    (BinaryTree.node a l r).Everywhere P ↔ P a l r ∧ l.Everywhere P ∧ r.Everywhere P := Iff.rfl

theorem Everywhere.imp (h : ∀ a l r, P a l r → Q a l r) :
    ∀ {t : BinaryTree α}, t.Everywhere P → t.Everywhere Q
  | .nil, _ => trivial
  | .node a l r, ht => ⟨h a l r ht.1, Everywhere.imp h ht.2.1, Everywhere.imp h ht.2.2⟩

/-- A property of values alone holds everywhere when it holds along the in-order
list. -/
theorem everywhere_value_iff {p : α → Prop} (t : BinaryTree α) :
    t.Everywhere (fun a _ _ => p a) ↔ ∀ a ∈ t.inorder, p a := by
  induction t with
  | nil => simp
  | node a l r ihl ihr =>
    rw [everywhere_node, ihl, ihr]
    constructor
    · rintro ⟨ha, hl, hr⟩ b hb
      rcases List.mem_append.mp hb with hb | hb
      · exact hl b hb
      · rcases List.mem_cons.mp hb with rfl | hb
        · exact ha
        · exact hr b hb
    · intro h
      exact ⟨h a (by simp), fun b hb => h b (by simp [hb]), fun b hb => h b (by simp [hb])⟩

/-! ## Search order -/

/-- Keys grow from left to right: at every node the left subtree is below the
node and the right subtree above it. -/
def SearchTree [LT κ] (key : α → κ) (t : BinaryTree α) : Prop :=
  t.Everywhere fun a l r => (∀ b ∈ l.inorder, key b < key a) ∧ ∀ b ∈ r.inorder, key a < key b

/-- The search order is a property of the in-order list. -/
theorem searchTree_iff_pairwise [Preorder κ] (key : α → κ) (t : BinaryTree α) :
    t.SearchTree key ↔ (t.inorder.map key).Pairwise (· < ·) := by
  induction t with
  | nil => simp [SearchTree]
  | node a l r ihl ihr =>
    rw [SearchTree] at ihl ihr
    rw [SearchTree, everywhere_node, ihl, ihr, inorder_node, List.map_append, List.map_cons,
      List.pairwise_append, List.pairwise_cons]
    simp only [List.mem_map, List.mem_cons, forall_exists_index, and_imp,
      forall_apply_eq_imp_iff₂, forall_eq_or_imp]
    constructor
    · rintro ⟨⟨hl, hr⟩, hpl, hpr⟩
      exact ⟨hpl, ⟨hr, hpr⟩, fun b hb => ⟨hl b hb, fun c hc => (hl b hb).trans (hr c hc)⟩⟩
    · rintro ⟨hpl, ⟨hr, hpr⟩, h⟩
      exact ⟨⟨fun b hb => (h b hb).1, hr⟩, hpl, hpr⟩

/-! ## Heap order -/

/-- At every node the priority is at least that of every value below it. -/
def HeapOrdered [LE κ] (prio : α → κ) (t : BinaryTree α) : Prop :=
  t.Everywhere fun a l r => ∀ b ∈ l.inorder ++ r.inorder, prio b ≤ prio a

theorem heapOrdered_nil [LE κ] : (.nil : BinaryTree α).HeapOrdered prio := trivial

theorem heapOrdered_node [LE κ] : (BinaryTree.node a l r).HeapOrdered prio ↔
      (∀ b ∈ l.inorder ++ r.inorder, prio b ≤ prio a) ∧ l.HeapOrdered prio ∧
        r.HeapOrdered prio := Iff.rfl

/-! ## Cached maxima -/

/-- Every node caches the greatest `val` of its subtree. -/
def CachesMax [Preorder κ] (cache val : α → κ) (t : BinaryTree α) : Prop :=
  t.Everywhere fun a l r =>
    IsGreatest {k | ∃ b ∈ (BinaryTree.node a l r).inorder, val b = k} (cache a)

end BinaryTree
