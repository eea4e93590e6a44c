import ExprFold.Tree

/-!
# Places in a tree

A path names the side to go to at each node from the root on, and `Tree.subtree?` is the subtree
that it leads to. The places of a tree are those of its children and the root
(`Tree.subtree?_branch_eq_some_iff`).
-/

namespace ExprFold.Tree

variable {α : Type}

/-- The two places for a child. -/
inductive Side where
  | left
  | right
deriving DecidableEq, Repr

abbrev Path := List Side

def child? (t : Tree α) : Side → Option (Tree α)
  | .left => t.left
  | .right => t.right

/-- The subtree that a path leads to. A path that leaves the tree leads to none. -/
def subtree? : Tree α → Path → Option (Tree α)
  | t, [] => some t
  | t, s :: p =>
    match t.child? s with
    | some c => c.subtree? p
    | none => none

/-- The second tree stands somewhere in the first. -/
def Contains (t n : Tree α) : Prop := ∃ p, t.subtree? p = some n

section
variable {a : α} {l r n : Tree α} {p : Path}

@[simp] theorem subtree?_nil (t : Tree α) : t.subtree? [] = some t := by
  cases t; rfl

@[simp] theorem subtree?_branch_left : (branch a l r).subtree? (.left :: p) = l.subtree? p := rfl

@[simp] theorem subtree?_branch_right : (branch a l r).subtree? (.right :: p) = r.subtree? p := rfl

theorem subtree?_leaf_eq_some_iff : (leaf a).subtree? p = some n ↔ p = [] ∧ n = leaf a := by
  cases p with
  | nil => simp [eq_comm]
  | cons s p => cases s <;> simp [subtree?, child?]

theorem subtree?_branch_eq_some_iff :
    (branch a l r).subtree? p = some n ↔
      (p = [] ∧ n = branch a l r) ∨
        (∃ q, p = .left :: q ∧ l.subtree? q = some n) ∨
          ∃ q, p = .right :: q ∧ r.subtree? q = some n := by
  cases p with
  | nil => simp [eq_comm]
  | cons s p => cases s <;> simp

theorem Contains.refl (t : Tree α) : t.Contains t := ⟨[], subtree?_nil t⟩

theorem Contains.left (h : l.Contains n) : (branch a l r).Contains n := by
  obtain ⟨p, hp⟩ := h
  exact ⟨.left :: p, hp⟩

theorem Contains.right (h : r.Contains n) : (branch a l r).Contains n := by
  obtain ⟨p, hp⟩ := h
  exact ⟨.right :: p, hp⟩

theorem contains_leaf_iff : (leaf a).Contains n ↔ n = leaf a := by
  constructor
  · rintro ⟨p, hp⟩
    exact (subtree?_leaf_eq_some_iff.1 hp).2
  · rintro rfl
    exact .refl _

/-- A tree stands in itself, or in one of its children. -/
theorem contains_branch_iff :
    (branch a l r).Contains n ↔ n = branch a l r ∨ l.Contains n ∨ r.Contains n := by
  constructor
  · rintro ⟨p, hp⟩
    rcases subtree?_branch_eq_some_iff.1 hp with ⟨-, hn⟩ | ⟨q, -, hq⟩ | ⟨q, -, hq⟩
    · exact .inl hn
    · exact .inr (.inl ⟨q, hq⟩)
    · exact .inr (.inr ⟨q, hq⟩)
  · rintro (rfl | h | h)
    · exact .refl _
    · exact h.left
    · exact h.right

end

end ExprFold.Tree
