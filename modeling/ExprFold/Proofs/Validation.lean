import ExprFold.Proofs.BoundEvaluation
import ExprFold.Proofs.Demand
import ExprFold.Proofs.Places

/-!
# Evaluation checks the whole tree

A residual expression from outside may have any shape, and evaluation is all that looks at it. A
value comes out only if every node is in order, every variable has a value and no divisor is zero,
and then it is what the operators make of the leaves (`Residual.evaluate_eq_ok_iff`). On a tree whose
nodes are in order, a variable or a divisor can be at fault and nothing else
(`Residual.WellFormed.evaluate_cases`). Main statement: `evaluate_validates`.
-/

namespace ExprFold

/-- What an operator makes of two numbers, a divisor of zero included. -/
def Op.eval : Op → Float → Float → Float
  | add, x, y => x + y
  | sub, x, y => x - y
  | mul, x, y => x * y
  | div, x, y => x / y

theorem Op.apply_eq_ok_iff {o : Op} {x y v : Float} :
    o.apply x y = .ok v ↔ (o = .div → (y == 0) = false) ∧ o.eval x y = v := by
  cases o with
  | add | sub | mul => simp [apply, eval]
  | div => cases hy : y == 0 <;> simp [apply, eval, hy]

namespace Residual

/-! ## Nodes in order -/

/-- The node is a folded decimal leaf, a variable leaf, or an operator over two operands. -/
inductive InOrder : Residual → Prop
  | folded {x : Float} {s : String} : InOrder (.leaf ⟨.decimal, x, s, true⟩)
  | var {x : Float} {s : String} : InOrder (.leaf ⟨.var, x, s, false⟩)
  | operator {o : Op} {x : Float} {s : String} {l r : Residual} :
      InOrder (.branch ⟨.op o, x, s, false⟩ l r)

theorem WellFormed.inOrder {u n : Residual} (h : u.WellFormed) (hn : u.Contains n) :
    n.InOrder := by
  induction h with
  | folded =>
    obtain rfl := Tree.contains_leaf_iff.1 hn
    exact .folded
  | var =>
    obtain rfl := Tree.contains_leaf_iff.1 hn
    exact .var
  | operator _ _ ihl ihr =>
    rcases Tree.contains_branch_iff.1 hn with rfl | hn | hn
    · exact .operator
    · exact ihl hn
    · exact ihr hn

/-- A tree is well-formed when every node of it is in order. -/
theorem wellFormed_iff {u : Residual} : u.WellFormed ↔ ∀ n : Residual, u.Contains n → n.InOrder := by
  refine ⟨fun h n hn => h.inOrder hn, fun h => ?_⟩
  induction u using Tree.recOn' with
  | node a l r ihl ihr =>
    cases h _ (.refl _) with
    | folded => exact .folded
    | var => exact .var
    | operator =>
      exact .operator (ihl _ rfl fun n hn => h n hn.left) (ihr _ rfl fun n hn => h n hn.right)

/-! ## The expression that a tree stands for -/

/-- The value of the expression that is read off a tree, given the values of its variables. Only the
kinds of the nodes count. -/
def worth (values : String → Float) : Residual → Float
  | .node ⟨kind, value, name, _⟩ left right =>
    match kind, left, right with
    | .var, _, _ => values name
    | .op o, some l, some r => o.eval (worth values l) (worth values r)
    | _, _, _ => value

/-- The expression is worth `v`, and nothing in it is divided by zero. -/
structure HasValue (values : String → Float) (u : Residual) (v : Float) : Prop where
  worth_eq : u.worth values = v
  divisor_ne : ∀ a l (r : Residual), u.Contains (.branch a l r) → a.kind = .op .div →
    (r.worth values == 0) = false

/-- Every variable leaf has its value from the bindings. -/
def Resolved (bindings : Bindings) (values : String → Float) (u : Residual) : Prop :=
  ∀ x name, u.Contains (.leaf ⟨.var, x, name, false⟩) → bindings name = some (values name)

section
variable {values : String → Float} {bindings : Bindings} {o : Op} {x v : Float} {s : String}
  {b : Bool} {l r u : Residual}

theorem hasValue_leaf_iff {a : Label} :
    HasValue values (.leaf a) v ↔ worth values (.leaf a) = v := by
  refine ⟨HasValue.worth_eq, fun h => ⟨h, ?_⟩⟩
  intro b l r hn _
  cases Tree.contains_leaf_iff.1 hn

theorem hasValue_operator_iff :
    HasValue values (.branch ⟨.op o, x, s, b⟩ l r) v ↔
      ∃ y z, HasValue values l y ∧ HasValue values r z ∧ o.apply y z = .ok v := by
  constructor
  · intro h
    refine ⟨_, _, ⟨rfl, fun a l' r' hn => h.divisor_ne a l' r' hn.left⟩,
      ⟨rfl, fun a l' r' hn => h.divisor_ne a l' r' hn.right⟩, Op.apply_eq_ok_iff.2 ⟨?_, h.worth_eq⟩⟩
    rintro rfl
    exact h.divisor_ne _ l r (.refl _) rfl
  · rintro ⟨y, z, hl, hr, hv⟩
    obtain rfl := hl.worth_eq
    obtain rfl := hr.worth_eq
    obtain ⟨hz, hv⟩ := Op.apply_eq_ok_iff.1 hv
    refine ⟨hv, ?_⟩
    intro a l' r' hn ha
    rcases Tree.contains_branch_iff.1 hn with hn | hn | hn
    · cases hn
      exact hz (Kind.op.inj ha)
    · exact hl.divisor_ne a l' r' hn ha
    · exact hr.divisor_ne a l' r' hn ha

theorem resolved_operator_iff :
    Resolved bindings values (.branch ⟨.op o, x, s, b⟩ l r) ↔
      Resolved bindings values l ∧ Resolved bindings values r := by
  constructor
  · intro h
    exact ⟨fun y name hn => h y name hn.left, fun y name hn => h y name hn.right⟩
  · rintro ⟨hl, hr⟩ y name hn
    rcases Tree.contains_branch_iff.1 hn with hn | hn | hn
    · cases hn
    · exact hl y name hn
    · exact hr y name hn

/-! ## Values -/

theorem Evaluates.wellFormed {d : Nat} (h : Evaluates none bindings d u v) : u.WellFormed := by
  induction h with
  | folded _ => exact .folded
  | var _ _ => exact .var
  | operator _ _ _ _ ihl ihr => exact .operator ihl ihr

theorem Evaluates.exists_resolved {d : Nat} (h : Evaluates none bindings d u v) :
    Resolved bindings (fun name => (bindings name).getD 0) u := by
  induction h with
  | folded _ =>
    intro y name hn
    cases Tree.contains_leaf_iff.1 hn
  | var _ hv =>
    intro y name hn
    cases Tree.contains_leaf_iff.1 hn
    simp [hv]
  | operator _ _ _ _ ihl ihr => exact resolved_operator_iff.2 ⟨ihl, ihr⟩

/-- Where the nodes are in order and the variables have values, evaluation finds the value of the
expression. -/
theorem WellFormed.evaluates_iff {d : Nat} (h : u.WellFormed) (hr : Resolved bindings values u) :
    Evaluates none bindings d u v ↔ HasValue values u v := by
  induction h generalizing d v with
  | folded =>
    rw [hasValue_leaf_iff]
    constructor
    · rintro (_ | _ | _)
      rfl
    · rintro rfl
      exact .folded rfl
  | var =>
    have hs := hr _ _ (.refl _)
    rw [hasValue_leaf_iff]
    constructor
    · rintro (_ | ⟨_, hv⟩ | _)
      exact Option.some.inj (hs.symm.trans hv)
    · rintro rfl
      exact .var rfl hs
  | operator _ _ ihl ihr =>
    obtain ⟨hl, hr⟩ := resolved_operator_iff.1 hr
    rw [hasValue_operator_iff]
    constructor
    · rintro (_ | _ | ⟨_, hy, hz, hv⟩)
      exact ⟨_, _, (ihl hl).1 hy, (ihr hr).1 hz, hv⟩
    · rintro ⟨y, z, hy, hz, hv⟩
      exact .operator rfl ((ihl hl).2 hy) ((ihr hr).2 hz) hv

theorem evaluate_eq_ok_iff :
    u.evaluate none bindings = .ok v ↔
      u.WellFormed ∧ ∃ values, Resolved bindings values u ∧ HasValue values u v := by
  rw [evaluate, evaluateAt_eq_ok_iff]
  constructor
  · intro h
    exact ⟨h.wellFormed, _, h.exists_resolved, (h.wellFormed.evaluates_iff h.exists_resolved).1 h⟩
  · rintro ⟨hu, values, hr, hv⟩
    exact (hu.evaluates_iff hr).2 hv

/-! ## Faults -/

theorem WellFormed.evaluate_cases (h : u.WellFormed) :
    (∃ v, u.evaluate none bindings = .ok v) ∨ u.evaluate none bindings = .error .divisionByZero ∨
      ∃ name, u.evaluate none bindings = .error (.invalidVariable name) := by
  have hasks : Asks none u.depth bindings u.occurrences (u.evaluate none bindings) :=
    h.asks (by omega)
  generalize u.evaluate none bindings = x at hasks ⊢
  cases hasks with
  | value _ => exact .inl ⟨_, rfl⟩
  | unbound _ => exact .inr (.inr ⟨_, rfl⟩)
  | fault hf =>
    obtain rfl := hf.eq_divisionByZero
    exact .inr (.inl rfl)

theorem evaluate_of_not_wellFormed (h : ¬u.WellFormed) :
    ∃ e, u.evaluate none bindings = .error e := by
  cases hv : u.evaluate none bindings with
  | ok v => exact absurd (evaluate_eq_ok_iff.1 hv).1 h
  | error e => exact ⟨e, rfl⟩

end

end Residual

/-- **Evaluation of a tree from any source validates the whole tree.** It gives a value exactly when
the tree is well-formed, every variable leaf has its value from the bindings, no divisor in the tree
is zero, and the value is that of the expression. On a well-formed tree it may fail for a divisor or
for a variable and for nothing else; and where any node is out of order it fails, whatever the
bindings are. -/
theorem evaluate_validates (u : Residual) (bindings : Bindings) :
    (∀ v, u.evaluate none bindings = .ok v ↔
      u.WellFormed ∧ ∃ values, u.Resolved bindings values ∧ u.HasValue values v) ∧
    (u.WellFormed →
      (∃ v, u.evaluate none bindings = .ok v) ∨
        u.evaluate none bindings = .error .divisionByZero ∨
        ∃ name, u.evaluate none bindings = .error (.invalidVariable name)) ∧
    ((∃ n : Residual, u.Contains n ∧ ¬n.InOrder) → ∃ e, u.evaluate none bindings = .error e) := by
  refine ⟨fun v => Residual.evaluate_eq_ok_iff, fun h => h.evaluate_cases, ?_⟩
  rintro ⟨n, hn, hbad⟩
  exact Residual.evaluate_of_not_wellFormed fun h => hbad (Residual.wellFormed_iff.1 h n hn)

/-- A number that is not marked as folded, deep on the right and multiplied by zero, is found under
all bindings; a quotient in order can fail for its divisor. -/
theorem evaluate_validates_number :
    let number : Residual := .leaf ⟨.integer, 7, "7", false⟩
    let u : Residual := .operator (.op .mul) (.folded 0)
      (.operator (.op .add) (.var "x") number)
    let w : Residual := .operator (.op .div) (.var "x") (.var "y")
    (u.Contains number ∧ ¬number.InOrder) ∧
      (∀ bindings, ∃ e, u.evaluate none bindings = .error e) ∧
      w.WellFormed ∧
      ((∃ v, w.evaluate none (.ofList [("x", 1), ("y", -0)]) = .ok v) ∨
        w.evaluate none (.ofList [("x", 1), ("y", -0)]) = .error .divisionByZero ∨
        ∃ name, w.evaluate none (.ofList [("x", 1), ("y", -0)]) =
          .error (.invalidVariable name)) := by
  intro number u w
  have hu : u.Contains number := ⟨[.right, .right], rfl⟩
  have hnumber : ¬Residual.InOrder (.leaf ⟨.integer, 7, "7", false⟩) := nofun
  have hw : w.WellFormed := .operator .var .var
  refine ⟨⟨hu, hnumber⟩, fun bindings => ?_, hw, (evaluate_validates w _).2.1 hw⟩
  exact (evaluate_validates u bindings).2.2 ⟨number, hu, hnumber⟩

end ExprFold
