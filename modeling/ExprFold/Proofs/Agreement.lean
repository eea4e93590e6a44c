import ExprFold.Proofs.Folding

/-!
# Evaluation against folding

Both walks check the same things in the same order, but at a variable evaluation stops and folding
goes on. `Agree` lists what the two can come to on one expression, and `Expr.evaluateAt_agree` shows
that there is nothing else, on trees of any shape and under any limit.
-/

namespace ExprFold

/-- The fault of a variable where nothing is bound. -/
abbrev Error.unbound (name : String) : Error := .invalidNode (.unbound name)

/-- What evaluation and folding of one expression come to, in this order. -/
inductive Agree : Except Error Float → Except Error Residual → Prop
  | value (x : Float) : Agree (.ok x) (.ok (.folded x))
  | fault (e : Error) : Agree (.error e) (.error e)
  /-- Evaluation stopped at the first variable of what folding left. -/
  | waits {name : String} {u : Residual} (hu : u.label.folded = false)
      (hn : u.occurrences.head? = some name) : Agree (.error (.unbound name)) (.ok u)
  /-- Folding went on behind the variable and met a fault there. -/
  | behind (name : String) (e : Error) : Agree (.error (.unbound name)) (.error e)

namespace Agree

variable {α : Type} {v : Except Error Float} {w : Except Error Residual}

/-- A check that both walks begin with. -/
theorem bind_left {c : Except Error α} {f : α → Except Error Float} {g : α → Except Error Residual}
    (h : ∀ a, c = .ok a → Agree (f a) (g a)) : Agree (c >>= f) (c >>= g) := by
  cases c with
  | error e => exact .fault e
  | ok a => exact h a rfl

/-- An operator over operands on which the walks agree. -/
theorem operator (o : Op) {v' : Except Error Float} {w' : Except Error Residual}
    (hl : Agree v w) (hr : Agree v' w') :
    Agree (do let x ← v; let y ← v'; o.apply x y)
      (do let l ← w; let r ← w'; (Expr.foldOperator o l r).result) := by
  cases hl with
  | fault e => exact .fault e
  | behind name e => exact .behind name e
  | value x =>
    cases hr with
    | fault e => exact .fault e
    | behind name e => exact .behind name e
    | value y =>
      simp only [ok_bind, Expr.result_foldOperator_folded]
      cases o.apply x y with
      | ok v => exact .value v
      | error e => exact .fault e
    | waits hu hn =>
      simp only [ok_bind, Expr.result_foldOperator_kept (.inr hu)]
      exact .waits rfl (by simpa using hn)
  | @waits name l hu hn =>
    -- evaluation is done; whatever folding finds on the right comes behind the variable
    cases hr with
    | fault e | behind _ e => exact .behind name e
    | value _ | waits _ _ =>
      simp only [ok_bind, error_bind, Expr.result_foldOperator_kept (.inl hu)]
      exact .waits rfl (by simp [hn])

/-! ### What agreement says about each outcome -/

theorem eq_ok_iff (h : Agree v w) {x : Float} : v = .ok x ↔ w = .ok (.folded x) := by
  cases h with
  | value y =>
    constructor
    · rintro ⟨⟩; rfl
    · rintro ⟨⟩; rfl
  | fault _ | behind _ _ => simp
  | waits hu _ =>
    constructor
    · intro hx; cases hx
    · rintro ⟨⟩; cases hu

theorem fold_fault (h : Agree v w) {e : Error} (he : v = .error e)
    (hne : ∀ name, e ≠ .unbound name) : w = .error e := by
  cases h with
  | value _ => cases he
  | fault _ => cases he; rfl
  | @waits name _ _ _ | behind name _ => cases he; exact absurd rfl (hne name)

theorem evaluate_fault (h : Agree v w) {e : Error} (he : w = .error e) :
    v = .error e ∨ ∃ name, v = .error (.unbound name) := by
  cases h with
  | value _ | waits _ _ => cases he
  | fault _ => cases he; exact .inl rfl
  | behind name _ => exact .inr ⟨name, rfl⟩

theorem evaluate_waits (h : Agree v w) {u : Residual} (hu : w = .ok u)
    (hc : u.label.folded = false) :
    ∃ name, u.variableNames.head? = some name ∧ v = .error (.unbound name) := by
  cases h with
  | value _ => cases hu; cases hc
  | fault _ | behind _ _ => cases hu
  | @waits name _ _ hn =>
    cases hu
    exact ⟨name, by rw [Residual.head?_variableNames, hn], rfl⟩

end Agree

/-- Evaluation and folding agree on every expression. -/
theorem Expr.evaluateAt_agree (limit : Limit) (d : Nat) (t : Expr) :
    Agree (t.evaluateAt limit d) (t.foldAt limit d).result := by
  induction t using Expr.shapeRec generalizing d with
  | number k read s l r hk =>
    rw [evaluateAt_number hk, result_foldAt_number hk]
    refine .bind_left fun _ _ => .bind_left fun _ _ => ?_
    cases read s with
    | ok x => exact .value x
    | error e => exact .fault e
  | var s l r =>
    rw [evaluateAt_var, result_foldAt_var]
    refine .bind_left fun _ _ => ?_
    cases rejectChildren .var l r with
    | ok _ => exact .waits rfl (by simp)
    | error e => exact .behind s e
  | noLeft o s r =>
    rw [evaluateAt_noLeft, result_foldAt_noLeft]
    exact .bind_left fun _ _ => .fault _
  | noRight o s l =>
    rw [evaluateAt_noRight, result_foldAt_noRight]
    exact .bind_left fun _ _ => .fault _
  | operator o s l r ihl ihr =>
    rw [evaluateAt_operator, result_foldAt_operator]
    exact .bind_left fun _ _ => .operator o (ihl (d + 1)) (ihr (d + 1))

theorem Engine.evaluate_agree (engine : Engine) (t : Expr) :
    Agree (engine.evaluate t) (engine.fold t).result := by
  rw [Engine.fold, Expr.result_fold]
  exact Expr.evaluateAt_agree engine.limit 1 t

/-- **Evaluation and folding agree** on every expression under the same limit. Evaluation gives a
value exactly where folding leaves a folded leaf with it; a fault of evaluation other than a
variable's is the fault of folding; a fault of folding is that of evaluation, unless evaluation
stopped at a variable; and where something waits, evaluation stopped at the first name of it. -/
theorem evaluate_fold_agree (engine : Engine) (t : Expr) :
    (∀ x, engine.evaluate t = .ok x ↔ (engine.fold t).result = .ok (.folded x)) ∧
    (∀ e, engine.evaluate t = .error e → (∀ name, e ≠ .unbound name) →
      (engine.fold t).result = .error e) ∧
    (∀ e, (engine.fold t).result = .error e →
      engine.evaluate t = .error e ∨ ∃ name, engine.evaluate t = .error (.unbound name)) ∧
    (∀ u, (engine.fold t).result = .ok u → u.isConstant = false →
      ∃ name, u.variableNames.head? = some name ∧
        engine.evaluate t = .error (.unbound name)) := by
  have h := engine.evaluate_agree t
  refine ⟨?_, ?_, ?_, ?_⟩
  · intro x
    exact h.eq_ok_iff
  · intro e he hne
    exact h.fold_fault he hne
  · intro e he
    exact h.evaluate_fault he
  · intro u hu hc
    exact h.evaluate_waits hu hc

/-- One expression for each way to fail: a zero divisor, which both walks report; a bad literal
behind a variable, which only folding gets to; and a variable behind a constant part. -/
theorem evaluate_fold_agree_faults :
    (Engine.fold ⟨some 3⟩ (.binary (.op .div) (.integer "1")
      (.binary (.op .mul) (.integer "0") (.integer "7")))).result = .error .divisionByZero ∧
    (Engine.evaluate {} (.binary (.op .add) (.var "x") (.integer "12x")) =
        .error (.invalidInteger "12x") ∨
      ∃ name, Engine.evaluate {} (.binary (.op .add) (.var "x") (.integer "12x")) =
        .error (.unbound name)) ∧
    ∃ u name, (Engine.fold {} (.binary (.op .mul) (.integer "2") (.var "y"))).result = .ok u ∧
      u.variableNames.head? = some name ∧
      Engine.evaluate {} (.binary (.op .mul) (.integer "2") (.var "y")) =
        .error (.unbound name) := by
  refine ⟨?_, ?_, ?_⟩
  · exact (evaluate_fold_agree ⟨some 3⟩ (.binary (.op .div) (.integer "1")
      (.binary (.op .mul) (.integer "0") (.integer "7")))).2.1 _ rfl (fun name h => nomatch h)
  · exact (evaluate_fold_agree {} (.binary (.op .add) (.var "x") (.integer "12x"))).2.2.1 _ rfl
  · obtain ⟨name, hn, he⟩ := (evaluate_fold_agree {}
      (.binary (.op .mul) (.integer "2") (.var "y"))).2.2.2 _ rfl rfl
    exact ⟨_, name, rfl, hn, he⟩

end ExprFold
