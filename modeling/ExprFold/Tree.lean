/-!
# Labelled trees

A tree whose nodes carry a label and may have a left and a right child, each present or absent on
its own. Nothing ties the label to the children: a tree that came from outside may hold an operator
with one operand or a number with two, and it is for the reader of the tree to object.

`Tree.recOn'` is the induction to use; `depth_node` and `size_node` give the two measures.
-/

namespace ExprFold

inductive Tree (α : Type) where
  | node (label : α) (left right : Option (Tree α))
deriving Repr

namespace Tree

variable {α : Type}

/-- A tree without children. -/
abbrev leaf (a : α) : Tree α := node a none none

/-- A tree with both children. -/
abbrev branch (a : α) (l r : Tree α) : Tree α := node a (some l) (some r)

/-- Induction that assumes the statement of each child that is there. -/
@[elab_as_elim, induction_eliminator]
theorem recOn' {motive : Tree α → Prop}
    (node : ∀ a l r, (∀ t, l = some t → motive t) → (∀ t, r = some t → motive t) →
      motive (.node a l r)) : ∀ t, motive t
  | .node a l r => by
    refine node a l r ?_ ?_
    · cases l with
      | none => exact fun _ h => nomatch h
      | some l => rintro _ ⟨⟩; exact recOn' node l
    · cases r with
      | none => exact fun _ h => nomatch h
      | some r => rintro _ ⟨⟩; exact recOn' node r

def label : Tree α → α
  | node a _ _ => a

def left : Tree α → Option (Tree α)
  | node _ l _ => l

def right : Tree α → Option (Tree α)
  | node _ _ r => r

@[simp] theorem label_node (a : α) (l r) : (node a l r).label = a := rfl
@[simp] theorem left_node (a : α) (l r) : (node a l r).left = l := rfl
@[simp] theorem right_node (a : α) (l r) : (node a l r).right = r := rfl

def isLeaf (t : Tree α) : Bool := t.left.isNone && t.right.isNone

/-- The number of nodes. -/
def size : Tree α → Nat
  | node _ l r =>
    1 + (match l with | none => 0 | some l => l.size) +
      (match r with | none => 0 | some r => r.size)

/-- The length of the longest path from the root, the root alone counting 1. -/
def depth : Tree α → Nat
  | node _ l r =>
    1 + max (match l with | none => 0 | some l => l.depth)
      (match r with | none => 0 | some r => r.depth)

/-- The labels of all nodes, a node before its left subtree and that before its right. -/
def labels : Tree α → List α
  | node a l r =>
    a :: (match l with | none => [] | some l => l.labels) ++
      (match r with | none => [] | some r => r.labels)

/-- Equality of shape and of labels, the labels compared by their own `==`. -/
def beq [BEq α] : Tree α → Tree α → Bool
  | node a l r, node b l' r' =>
    a == b &&
      (match l, l' with | none, none => true | some l, some l' => l.beq l' | _, _ => false) &&
      (match r, r' with | none, none => true | some r, some r' => r.beq r' | _, _ => false)

instance [BEq α] : BEq (Tree α) := ⟨beq⟩

theorem beq_node [BEq α] (a b : α) (l r l' r' : Option (Tree α)) :
    (node a l r == node b l' r') = (a == b && l == l' && r == r') := by
  cases l <;> cases r <;> cases l' <;> cases r' <;> rfl

instance [BEq α] [LawfulBEq α] : LawfulBEq (Tree α) where
  rfl {t} := by
    induction t with
    | node a l r hl hr => cases l <;> cases r <;> simp_all [beq_node]
  eq_of_beq {t u} h := by
    induction t generalizing u with
    | node a l r hl hr =>
      obtain ⟨b, l', r'⟩ := u
      rw [beq_node] at h
      cases l <;> cases r <;> cases l' <;> cases r' <;> simp_all
      all_goals first
        | exact ⟨hl h.1.2, hr h.2⟩
        | exact hl h.2
        | exact hr h.2

instance [DecidableEq α] : DecidableEq (Tree α) := fun t u =>
  decidable_of_iff ((t == u) = true) beq_iff_eq

theorem size_node (a : α) (l r : Option (Tree α)) :
    (node a l r).size = 1 + l.elim 0 size + r.elim 0 size := by
  cases l <;> cases r <;> rfl

theorem depth_node (a : α) (l r : Option (Tree α)) :
    (node a l r).depth = 1 + max (l.elim 0 depth) (r.elim 0 depth) := by
  cases l <;> cases r <;> rfl

theorem labels_node (a : α) (l r : Option (Tree α)) :
    (node a l r).labels = a :: l.elim [] labels ++ r.elim [] labels := by
  cases l <;> cases r <;> rfl

@[simp] theorem depth_leaf (a : α) : (leaf a).depth = 1 := rfl

@[simp] theorem depth_branch (a : α) (l r : Tree α) :
    (branch a l r).depth = 1 + max l.depth r.depth := rfl

@[simp] theorem size_leaf (a : α) : (leaf a).size = 1 := rfl

@[simp] theorem size_branch (a : α) (l r : Tree α) :
    (branch a l r).size = 1 + l.size + r.size := rfl

theorem depth_pos (t : Tree α) : 0 < t.depth := by
  cases t; rw [depth_node]; omega

theorem length_labels (t : Tree α) : t.labels.length = t.size := by
  induction t with
  | node a l r hl hr =>
    rw [labels_node, size_node]
    cases l <;> cases r <;> simp_all <;> omega

end Tree

end ExprFold
