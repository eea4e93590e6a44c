import ExprFold.Proofs.Names
import ExprFold.Proofs.Places
import Mathlib.Logic.ExistsUnique

/-!
# What folding leaves, place by place

Every node that folding leaves has one of three forms (`Residual.SettledAs`): a value, a variable,
or an operator that waits for one of its operands. It stands where the node stood that it was made
of, and it is what folding makes of that node's subtree on its own (`Folds.subtree?`,
`Folds.unlimited`): what lies around a subtree has no influence on it. So a node is worked out
exactly where no variable is left below. Main statement: `fold_settled`.
-/

namespace ExprFold

/-! ## The forms of a node -/

namespace Residual

/-- The node has the form that folding gives to nodes of a part: a value without a name, a variable
under its name, an operator that waits for one of its operands. -/
def SettledAs (n : Residual) : Role → Prop
  | .literal => ∃ x, n = .leaf ⟨.decimal, x, "", true⟩
  | .symbol => ∃ name, n = .leaf ⟨.var, 0, name, false⟩
  | .operator => ∃ o l r, n = .branch ⟨.op o, 0, "", false⟩ l r ∧
      (l.label.folded = false ∨ r.label.folded = false)

/-- Folding is done with the node. -/
structure Settled (n : Residual) : Prop where
  /-- The node has just one of the three forms. -/
  form : ∃! role, n.SettledAs role
  /-- It is marked as folded when it is a decimal leaf, and only then. -/
  folded_iff : n.label.folded = true ↔ n.label.kind = .decimal ∧ n.isLeaf = true
  /-- It is no operator over two folded operands. -/
  waits : ∀ a l r, n = .branch a l r → l.label.folded = false ∨ r.label.folded = false

/-- What folding leaves where a subexpression stood. -/
structure LeftOf (n : Residual) (s : Expr) : Prop where
  /-- It is what folding leaves of the subexpression on its own, without a limit. -/
  fold : (Engine.fold {} s).result = .ok n
  /-- It has been worked out when the subexpression has no variable, and only then. -/
  folded_iff : n.label.folded = true ↔ s.IsClosed
  /-- A variable goes by the name that it had. -/
  var : ∀ name, n = var name → s = .leaf .var name

variable {n : Residual}

/-- The kind of a node tells its form. -/
theorem SettledAs.role_eq {role : Role} (h : n.SettledAs role) : n.label.kind.role = role := by
  cases role with
  | literal => obtain ⟨x, rfl⟩ := h; rfl
  | symbol => obtain ⟨name, rfl⟩ := h; rfl
  | operator => obtain ⟨o, l, r, rfl, -⟩ := h; rfl

theorem SettledAs.existsUnique (role : Role) (h : n.SettledAs role) :
    ∃! role, n.SettledAs role :=
  ⟨role, h, fun _ h' => h'.role_eq.symm.trans h.role_eq⟩

theorem settled_folded (x : Float) : (folded x).Settled where
  form := SettledAs.existsUnique .literal ⟨x, rfl⟩
  folded_iff := iff_of_true rfl ⟨rfl, rfl⟩
  waits _ _ _ h := nomatch h

theorem settled_var (name : String) : (var name).Settled where
  form := SettledAs.existsUnique .symbol ⟨name, rfl⟩
  folded_iff := iff_of_false nofun fun h => nomatch h.1
  waits _ _ _ h := nomatch h

theorem settled_operator {o : Op} {l r : Residual}
    (h : l.label.folded = false ∨ r.label.folded = false) : (operator (.op o) l r).Settled where
  form := SettledAs.existsUnique .operator ⟨o, l, r, rfl, h⟩
  folded_iff := iff_of_false nofun fun h => nomatch h.1
  waits _ _ _ he := by cases he; exact h

end Residual

/-! ## From one place to another -/

namespace Folds

variable {limit : Limit} {d : Nat} {t : Expr} {u : Residual}

theorem settled (h : Folds limit d t u) : u.Settled := by
  cases h with
  | number _ _ _ | folded _ _ _ _ => exact Residual.settled_folded _
  | var _ => exact Residual.settled_var _
  | kept _ _ _ hw => exact Residual.settled_operator hw

/-- Without a limit the depth of the root does not matter. -/
theorem unlimited (h : Folds limit d t u) (d' : Nat) : Folds none d' t u := by
  induction h generalizing d' with
  | number _ hk hx => exact .number rfl hk hx
  | var _ => exact .var rfl
  | folded _ _ _ hv ihl ihr => exact .folded rfl (ihl _) (ihr _) hv
  | kept _ _ _ hw ihl ihr => exact .kept rfl (ihl _) (ihr _) hw

/-- What stands at a place of the residual expression is left of what stood at this place. -/
theorem subtree? (h : Folds limit d t u) {p : Tree.Path} {n : Residual}
    (hn : u.subtree? p = some n) :
    ∃ s, t.subtree? p = some s ∧ Folds limit (d + p.length) s n := by
  induction h generalizing p with
  | number hd hk hx =>
    obtain ⟨rfl, rfl⟩ := Tree.subtree?_leaf_eq_some_iff.1 hn
    exact ⟨_, Tree.subtree?_nil _, .number hd hk hx⟩
  | var hd =>
    obtain ⟨rfl, rfl⟩ := Tree.subtree?_leaf_eq_some_iff.1 hn
    exact ⟨_, Tree.subtree?_nil _, .var hd⟩
  | folded hd hl hr hv _ _ =>
    -- nothing is left below the node
    obtain ⟨rfl, rfl⟩ := Tree.subtree?_leaf_eq_some_iff.1 hn
    exact ⟨_, Tree.subtree?_nil _, .folded hd hl hr hv⟩
  | kept hd hl hr hw ihl ihr =>
    rcases Tree.subtree?_branch_eq_some_iff.1 hn with
      ⟨rfl, rfl⟩ | ⟨q, rfl, hq⟩ | ⟨q, rfl, hq⟩
    · exact ⟨_, Tree.subtree?_nil _, .kept hd hl hr hw⟩
    · obtain ⟨s, hs, hf⟩ := ihl hq
      exact ⟨s, hs, by rwa [List.length_cons, Nat.add_comm q.length, ← Nat.add_assoc]⟩
    · obtain ⟨s, hs, hf⟩ := ihr hq
      exact ⟨s, hs, by rwa [List.length_cons, Nat.add_comm q.length, ← Nat.add_assoc]⟩

theorem eq_var (h : Folds limit d t u) {name : String} (hu : u = .var name) :
    t = .leaf .var name := by
  cases h with
  | number _ _ _ | folded _ _ _ _ | kept _ _ _ _ => cases hu
  | var _ => cases hu; rfl

theorem leftOf (h : Folds limit d t u) : u.LeftOf t where
  fold := Engine.result_fold_eq_ok_iff.2 (h.unlimited 1)
  folded_iff := h.folded_iff_isClosed
  var _ hu := h.eq_var hu

/-- A residual expression is nowhere deeper than the expression. -/
theorem depth_le_depth (h : Folds limit d t u) : u.depth ≤ t.depth := by
  induction h with
  | number _ _ _ | var _ => exact Nat.le_refl _
  | folded _ _ _ _ _ _ => exact Tree.depth_pos _
  | kept _ _ _ _ ihl ihr =>
    rw [Residual.operator, Tree.depth_branch, Tree.depth_branch]
    omega

theorem size_le_size (h : Folds limit d t u) : u.size ≤ t.size := by
  induction h with
  | number _ _ _ | var _ => exact Nat.le_refl _
  | folded _ _ _ _ _ _ => rw [Residual.folded, Tree.size_leaf, Tree.size_branch]; omega
  | kept _ _ _ _ ihl ihr =>
    rw [Residual.operator, Tree.size_branch, Tree.size_branch]
    omega

end Folds

/-- **What folding leaves is settled everywhere, and each place on its own.** Every node has just
one of the three forms, and no operator over two folded operands is left. It stands at a place of
the expression, is what folding leaves of the subexpression there without a limit, and is folded
exactly when that one has no variable. In particular the whole has been worked out exactly when the
expression has no variable, which is when no name is left; and it is neither deeper nor larger than
the expression. -/
theorem fold_settled (engine : Engine) (t : Expr) (u : Residual)
    (h : (engine.fold t).result = .ok u) :
    (∀ p (n : Residual), u.subtree? p = some n →
      n.Settled ∧ ∃ s, t.subtree? p = some s ∧ n.LeftOf s) ∧
    (u.isConstant = true ↔ t.IsClosed) ∧ (t.IsClosed ↔ u.variableNames = []) ∧
    u.depth ≤ t.depth ∧ u.size ≤ t.size := by
  have hu := Engine.result_fold_eq_ok_iff.1 h
  refine ⟨?_, hu.folded_iff_isClosed, ?_, hu.depth_le_depth, hu.size_le_size⟩
  · intro p n hn
    obtain ⟨s, hs, hf⟩ := hu.subtree? hn
    exact ⟨hf.settled, s, hs, hf.leftOf⟩
  · rw [Residual.variableNames_eq_nil_iff, hu.occurrences_eq, Expr.isClosed_iff]

/-- A difference is worked out on the right of a variable, under a limit that the whole just keeps,
and it is what folding leaves of it alone. -/
theorem fold_settled_right :
    let t : Expr := .binary (.op .div) (.var "x")
      (.binary (.op .sub) (.integer "7") (.integer "2"))
    ∃ u, ∃ n : Residual, (Engine.fold ⟨some 3⟩ t).result = .ok u ∧ u.subtree? [.right] = some n ∧
      n.Settled ∧ n.label.folded = true ∧
      n.LeftOf (.binary (.op .sub) (.integer "7") (.integer "2")) := by
  refine ⟨_, _, rfl, rfl, ?_⟩
  obtain ⟨hn, s, hs, hleft⟩ := (fold_settled ⟨some 3⟩ (.binary (.op .div) (.var "x")
    (.binary (.op .sub) (.integer "7") (.integer "2"))) _ rfl).1 [.right] _ rfl
  cases hs
  exact ⟨hn, rfl, hleft⟩

end ExprFold
