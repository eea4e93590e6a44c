import ExprFold.Proofs.Places

/-!
# Trees read place by place

A tree can be read with each node before its subtrees (`Tree.preorder`) or behind them
(`Tree.postorder`), the left subtree coming before the right one. Both readings give every place just
once, with the subtree that stands there (`Tree.mem_preorder`, `Tree.mem_postorder`), and places can
be compared without the tree: `Tree.Before` is the first of the two orders, and `Tree.LiesLeft` and
`Tree.LiesBelow` tell two places apart by where their paths part.
-/

namespace ExprFold.Tree

variable {α : Type}

/-- Of two places, the first one is met first when a node comes before its left subtree and that
before its right. -/
def Before : Path → Path → Prop := List.Lex fun s t => s = .left ∧ t = .right

theorem Before.above {s : Side} {p : Path} : Before [] (s :: p) := .nil

theorem Before.across {p q : Path} : Before (.left :: p) (.right :: q) := .rel ⟨rfl, rfl⟩

theorem before_cons_iff {s : Side} {p q : Path} : Before (s :: p) (s :: q) ↔ Before p q := by
  constructor
  · rintro (_ | ⟨rfl, h⟩ | h)
    · cases h
    · exact h
  · exact .cons

theorem not_before_self (p : Path) : ¬Before p p := by
  induction p with
  | nil => nofun
  | cons s p ih => rwa [before_cons_iff]

/-- The first place lies in the left subtree of a node that has the second one in its right. -/
def LiesLeft (q p : Path) : Prop :=
  ∃ fork q' p', q = fork ++ .left :: q' ∧ p = fork ++ .right :: p'

/-- The first place lies below the second one. -/
def LiesBelow (q p : Path) : Prop := p <+: q ∧ q ≠ p

section
variable {s : Side} {p q : Path}

theorem not_liesLeft_root : ¬LiesLeft q [] := by simp [LiesLeft]

theorem not_root_liesLeft : ¬LiesLeft [] p := by simp [LiesLeft]

theorem liesLeft_across : LiesLeft (.left :: q) (.right :: p) := ⟨[], q, p, rfl, rfl⟩

theorem not_liesLeft_across : ¬LiesLeft (.right :: q) (.left :: p) := by
  rintro ⟨_ | ⟨s, fork⟩, q', p', hq, hp⟩
  · cases hq
  · cases hq; cases hp

theorem liesLeft_cons_iff : LiesLeft (s :: q) (s :: p) ↔ LiesLeft q p := by
  constructor
  · rintro ⟨_ | ⟨s', fork⟩, q', p', hq, hp⟩
    · cases hq; cases hp
    · cases hq; cases hp
      exact ⟨fork, q', p', rfl, rfl⟩
  · rintro ⟨fork, q', p', rfl, rfl⟩
    exact ⟨s :: fork, q', p', rfl, rfl⟩

instance decidableLiesLeft : ∀ q p : Path, Decidable (LiesLeft q p)
  | _, [] => isFalse not_liesLeft_root
  | [], _ => isFalse not_root_liesLeft
  | .left :: _, .right :: _ => isTrue liesLeft_across
  | .right :: _, .left :: _ => isFalse not_liesLeft_across
  | .left :: q, .left :: p | .right :: q, .right :: p =>
    have := decidableLiesLeft q p
    decidable_of_iff (LiesLeft q p) liesLeft_cons_iff.symm

instance (q p : Path) : Decidable (LiesBelow q p) :=
  inferInstanceAs (Decidable (p <+: q ∧ q ≠ p))

theorem liesBelow_root_iff : LiesBelow q [] ↔ q ≠ [] := by simp [LiesBelow]

theorem not_root_liesBelow : ¬LiesBelow [] p := by
  rintro ⟨hp, hne⟩
  exact hne (List.prefix_nil.1 hp).symm

theorem liesBelow_cons_iff : LiesBelow (s :: q) (s :: p) ↔ LiesBelow q p := by
  simp [LiesBelow, List.cons_prefix_cons]

theorem not_liesBelow_across {s' : Side} (hs : s' ≠ s) : ¬LiesBelow (s' :: q) (s :: p) := by
  rintro ⟨hp, -⟩
  exact hs (List.cons_prefix_cons.1 hp).1.symm

end

/-! ## Readings -/

/-- A place of a child, seen from the node above. -/
def fromAbove (s : Side) (place : Path × Tree α) : Path × Tree α := (s :: place.1, place.2)

/-- All places, a node before its left subtree and that before its right. -/
def preorder : Tree α → List (Path × Tree α)
  | .node a l r =>
    ([], .node a l r) ::
      (match l with | none => [] | some l => l.preorder.map (fromAbove .left)) ++
      (match r with | none => [] | some r => r.preorder.map (fromAbove .right))

/-- All places, the left subtree of a node before its right and that before the node. -/
def postorder : Tree α → List (Path × Tree α)
  | .node a l r =>
    (match l with | none => [] | some l => l.postorder.map (fromAbove .left)) ++
      (match r with | none => [] | some r => r.postorder.map (fromAbove .right)) ++
      [([], .node a l r)]

/-- The places of a child, if it is there, in the order of a reading. -/
def readBelow (read : Tree α → List (Path × Tree α)) (s : Side) (child : Option (Tree α)) :
    List (Path × Tree α) :=
  child.elim [] fun c => (read c).map (fromAbove s)

section
variable {a : α} {l r child : Option (Tree α)} {t n : Tree α} {s : Side} {p : Path}
  {read : Tree α → List (Path × Tree α)}

theorem preorder_node :
    (node a l r).preorder =
      ([], node a l r) :: (readBelow preorder .left l ++ readBelow preorder .right r) := by
  cases l <;> cases r <;> rfl

theorem postorder_node :
    (node a l r).postorder =
      readBelow postorder .left l ++ readBelow postorder .right r ++ [([], node a l r)] := by
  cases l <;> cases r <;> rfl

theorem mem_readBelow :
    (p, n) ∈ readBelow read s child ↔ ∃ q, p = s :: q ∧ ∃ c, child = some c ∧ (q, n) ∈ read c := by
  cases child with
  | none => simp [readBelow]
  | some c =>
    simp only [readBelow, Option.elim_some, List.mem_map, fromAbove]
    constructor
    · rintro ⟨⟨q, m⟩, hm, he⟩
      cases he
      exact ⟨q, rfl, c, rfl, hm⟩
    · rintro ⟨q, rfl, c', hc, hm⟩
      cases hc
      exact ⟨_, hm, rfl⟩

/-- The places of a node: its own, those of its left child and those of its right. -/
theorem subtree?_node_eq_some_iff :
    (node a l r).subtree? p = some n ↔
      (p = [] ∧ n = node a l r) ∨
        (∃ q, p = .left :: q ∧ ∃ c, l = some c ∧ c.subtree? q = some n) ∨
          ∃ q, p = .right :: q ∧ ∃ c, r = some c ∧ c.subtree? q = some n := by
  cases p with
  | nil => simp [eq_comm]
  | cons s q => cases s <;> cases l <;> cases r <;> simp [subtree?, child?]

/-- A reading that gives all places of a child gives those that the child has in the node. -/
theorem mem_readBelow_iff
    (h : ∀ c, child = some c → ∀ {q : Path}, (q, n) ∈ read c ↔ c.subtree? q = some n) :
    (p, n) ∈ readBelow read s child ↔
      ∃ q, p = s :: q ∧ ∃ c, child = some c ∧ c.subtree? q = some n := by
  rw [mem_readBelow]
  exact exists_congr fun q => and_congr_right fun _ => exists_congr fun c =>
    and_congr_right fun hc => h c hc

theorem mem_preorder : (p, n) ∈ t.preorder ↔ t.subtree? p = some n := by
  induction t using Tree.recOn' generalizing p with
  | node a l r ihl ihr =>
    rw [preorder_node, subtree?_node_eq_some_iff, List.mem_cons, List.mem_append,
      mem_readBelow_iff ihl, mem_readBelow_iff ihr, Prod.mk.injEq]

theorem mem_postorder : (p, n) ∈ t.postorder ↔ t.subtree? p = some n := by
  induction t using Tree.recOn' generalizing p with
  | node a l r ihl ihr =>
    rw [postorder_node, subtree?_node_eq_some_iff, List.mem_append, List.mem_append,
      mem_readBelow_iff ihl, mem_readBelow_iff ihr, List.mem_singleton, Prod.mk.injEq, or_comm]

theorem map_label_preorder (t : Tree α) : t.preorder.map (·.2.label) = t.labels := by
  induction t using Tree.recOn' with
  | node a l r ihl ihr =>
    have hbelow (s : Side) (c : Option (Tree α))
        (ih : ∀ t, c = some t → t.preorder.map (·.2.label) = t.labels) :
        (readBelow preorder s c).map (·.2.label) = c.elim [] labels := by
      cases c with
      | none => rfl
      | some t =>
        rw [Option.elim_some, ← ih t rfl]
        simp [readBelow, fromAbove]
    rw [preorder_node, labels_node, List.map_cons, List.map_append, hbelow .left l ihl,
      hbelow .right r ihr]
    rfl

theorem pairwise_readBelow
    (h : ∀ c, child = some c → (read c).Pairwise fun x y => Before x.1 y.1) :
    (readBelow read s child).Pairwise fun x y => Before x.1 y.1 := by
  cases child with
  | none => exact .nil
  | some c => exact List.pairwise_map.2 ((h c rfl).imp before_cons_iff.2)

theorem pairwise_preorder (t : Tree α) : t.preorder.Pairwise fun x y => Before x.1 y.1 := by
  induction t using Tree.recOn' with
  | node a l r ihl ihr =>
    rw [preorder_node, List.pairwise_cons, List.pairwise_append]
    refine ⟨?_, pairwise_readBelow ihl, pairwise_readBelow ihr, ?_⟩
    · rintro ⟨p, n⟩ hp
      rcases List.mem_append.1 hp with hp | hp
      · obtain ⟨q, rfl, -⟩ := mem_readBelow.1 hp
        exact .above
      · obtain ⟨q, rfl, -⟩ := mem_readBelow.1 hp
        exact .above
    · rintro ⟨p, n⟩ hp ⟨q, m⟩ hq
      obtain ⟨p, rfl, -⟩ := mem_readBelow.1 hp
      obtain ⟨q, rfl, -⟩ := mem_readBelow.1 hq
      exact .across

end

end ExprFold.Tree
