import ExprFold.Proofs.Folding

/-!
# Folding first and binding afterwards

An expression whose variables have values has a value of its own: `Expr.valueUnder` finds it on the
expression as it was written, in the order of evaluation. What folding leaves is worth just that
under every choice of bindings (`Folds.evaluateAt_eq`), so the work that folding does early never
changes an answer; nor does it refuse an expression that some bindings give a value
(`Expr.folds_of_valueUnder`).
-/

namespace ExprFold

namespace Expr

/-! ## The value under bindings -/

/-- Evaluation without a limit, a rule of its own settling each variable node. -/
def evaluateBy (rule : String → Option Expr → Option Expr → Except Error Float) :
    Expr → Except Error Float
  | .node ⟨kind, literal⟩ left right =>
    match kind with
    | .integer => do
      rejectChildren kind left right
      integerValue literal
    | .decimal => do
      rejectChildren kind left right
      decimalValue literal
    | .var => rule literal left right
    | .op o =>
      match left, right with
      | none, _ => .error .missingLeft
      | some _, none => .error .missingRight
      | some l, some r => do
        let x ← evaluateBy rule l
        let y ← evaluateBy rule r
        o.apply x y

/-- The value of an expression whose variables have values. A variable must be a leaf. -/
def valueUnder (bindings : Bindings) (t : Expr) : Except Error Float :=
  t.evaluateBy fun name left right => do
    rejectChildren .var left right
    bindings.value name

section
variable {rule : String → Option Expr → Option Expr → Except Error Float} {k : Kind}
  {read : String → Except Error Float} {o : Op} {s : String}

theorem evaluateBy_number {l r : Option Expr} (hk : Numeric k read) :
    evaluateBy rule (.node ⟨k, s⟩ l r) = (do
      rejectChildren k l r
      read s) := by
  cases hk <;> cases l <;> cases r <;> rfl

theorem evaluateBy_var {l r : Option Expr} :
    evaluateBy rule (.node ⟨.var, s⟩ l r) = rule s l r := by
  cases l <;> cases r <;> rfl

theorem evaluateBy_noLeft {r : Option Expr} :
    evaluateBy rule (.node ⟨.op o, s⟩ none r) = .error .missingLeft := by
  cases r <;> rfl

theorem evaluateBy_noRight {l : Expr} :
    evaluateBy rule (.node ⟨.op o, s⟩ (some l) none) = .error .missingRight := rfl

theorem evaluateBy_operator {l r : Expr} :
    evaluateBy rule (.node ⟨.op o, s⟩ (some l) (some r)) = (do
      let x ← evaluateBy rule l
      let y ← evaluateBy rule r
      o.apply x y) := rfl

end

/-- Evaluation is the same walk, with every variable refused. -/
theorem evaluateAt_none_eq {d : Nat} (t : Expr) :
    t.evaluateAt none d = t.evaluateBy fun name _ _ => .error (.invalidNode (.unbound name)) := by
  induction t using Expr.shapeRec generalizing d with
  | number k read s l r hk => rw [evaluateAt_number hk, evaluateBy_number hk]; rfl
  | var s l r => rw [evaluateAt_var, evaluateBy_var]; rfl
  | noLeft o s r => rw [evaluateAt_noLeft, evaluateBy_noLeft]; rfl
  | noRight o s l => rw [evaluateAt_noRight, evaluateBy_noRight]; rfl
  | operator o s l r ihl ihr =>
    rw [evaluateAt_operator, evaluateBy_operator, ihl, ihr]
    rfl

section
variable {bindings : Bindings} {k : Kind} {read : String → Except Error Float} {o : Op} {s : String}

theorem valueUnder_number {l r : Option Expr} (hk : Numeric k read) :
    valueUnder bindings (.node ⟨k, s⟩ l r) = (do
      rejectChildren k l r
      read s) := evaluateBy_number hk

theorem valueUnder_var {l r : Option Expr} :
    valueUnder bindings (.node ⟨.var, s⟩ l r) = (do
      rejectChildren .var l r
      bindings.value s) := evaluateBy_var

theorem valueUnder_operator {l r : Expr} :
    valueUnder bindings (.node ⟨.op o, s⟩ (some l) (some r)) = (do
      let x ← valueUnder bindings l
      let y ← valueUnder bindings r
      o.apply x y) := evaluateBy_operator

end

end Expr

/-! ## What folding leaves has the same value -/

theorem Residual.evaluateAt_folded_leaf {limit : Limit} {bindings : Bindings} {d : Nat} {x : Float}
    (hd : limit.check d = .ok ()) : (Residual.folded x).evaluateAt limit bindings d = .ok x := by
  rw [Residual.folded, Residual.evaluateAt_folded, hd]
  rfl

namespace Folds

variable {limit limit' : Limit} {d : Nat} {t : Expr} {u : Residual} {bindings : Bindings}

/-- Under a limit that allows what the limit of the folding allowed, the residual expression is
worth what the expression is worth. -/
theorem evaluateAt_eq (h : Folds limit d t u) (hle : limit'.Looser limit) :
    u.evaluateAt limit' bindings d = t.valueUnder bindings := by
  induction h with
  | number hd hk hx =>
    rw [Residual.evaluateAt_folded_leaf (hle _ hd), Expr.valueUnder_number hk]
    exact hx.symm
  | var hd =>
    rw [Residual.var, Residual.evaluateAt_var, hle _ hd, Expr.valueUnder_var]
    rfl
  | folded hd hl hr hv ihl ihr =>
    rw [Residual.evaluateAt_folded_leaf (hle _ hl.check_eq_ok)] at ihl
    rw [Residual.evaluateAt_folded_leaf (hle _ hr.check_eq_ok)] at ihr
    rw [Residual.evaluateAt_folded_leaf (hle _ hd), Expr.valueUnder_operator, ← ihl, ← ihr]
    exact hv.symm
  | kept hd _ _ _ ihl ihr =>
    rw [Residual.operator, Residual.evaluateAt_operator, hle _ hd, ihl, ihr,
      Expr.valueUnder_operator]
    rfl

/-- What was worked out early is the value under all bindings. -/
theorem valueUnder_eq {x : Float} (h : Folds limit d t (.folded x)) :
    t.valueUnder bindings = .ok x := by
  rw [← h.evaluateAt_eq (Limit.Looser.refl limit),
    Residual.evaluateAt_folded_leaf h.check_eq_ok]

/-- After folding, only a zero divisor and a variable without a value can be at fault. -/
theorem error_of_valueUnder (h : Folds limit d t u) {e : Error}
    (he : t.valueUnder bindings = .error e) :
    e = .divisionByZero ∨ ∃ name, e = .invalidVariable name := by
  induction h with
  | number hd hk hx => rw [valueUnder_eq (.number hd hk hx)] at he; cases he
  | @var _ s _ =>
    rw [Expr.valueUnder_var] at he
    change bindings.value s = _ at he
    unfold Bindings.value at he
    split at he
    · cases he
    · cases he; exact .inr ⟨s, rfl⟩
  | folded _ _ _ _ ihl ihr | kept _ _ _ _ ihl ihr =>
    rw [Expr.valueUnder_operator] at he
    simp only [bind_eq_error_iff] at he
    rcases he with he | ⟨x, _, he | ⟨y, _, he⟩⟩
    · exact ihl he
    · exact ihr he
    · exact .inl (Op.eq_divisionByZero_of_apply he)

end Folds

/-- Folding without a limit refuses no expression that has a value under some bindings. -/
theorem Expr.folds_of_valueUnder {bindings : Bindings} {d : Nat} {t : Expr} {v : Float}
    (h : t.valueUnder bindings = .ok v) : ∃ u, Folds none d t u := by
  induction t using Expr.shapeRec generalizing d v with
  | number k read s l r hk =>
    rw [valueUnder_number hk] at h
    simp only [bind_eq_ok_iff] at h
    obtain ⟨⟨⟩, hc, hv⟩ := h
    obtain ⟨rfl, rfl⟩ := rejectChildren_eq_ok_iff.1 hc
    exact ⟨_, .number rfl hk hv⟩
  | var s l r =>
    rw [valueUnder_var] at h
    simp only [bind_eq_ok_iff] at h
    obtain ⟨⟨⟩, hc, _⟩ := h
    obtain ⟨rfl, rfl⟩ := rejectChildren_eq_ok_iff.1 hc
    exact ⟨_, .var rfl⟩
  | noLeft o s r => rw [valueUnder, evaluateBy_noLeft] at h; cases h
  | noRight o s l => rw [valueUnder, evaluateBy_noRight] at h; cases h
  | operator o s l r ihl ihr =>
    rw [valueUnder_operator] at h
    simp only [bind_eq_ok_iff] at h
    obtain ⟨x, hx, y, hy, hv⟩ := h
    obtain ⟨l', hl⟩ := ihl (d := d + 1) hx
    obtain ⟨r', hr⟩ := ihr (d := d + 1) hy
    rcases hl.folded_or_waits hr with ⟨x', y', rfl, rfl⟩ | hw
    · -- both operands were worked out, to the values they have under the bindings
      obtain rfl : x' = x := by rw [hl.valueUnder_eq] at hx; cases hx; rfl
      obtain rfl : y' = y := by rw [hr.valueUnder_eq] at hy; cases hy; rfl
      exact ⟨_, .folded rfl hl hr hv⟩
    · exact ⟨_, .kept rfl hl hr hw⟩

/-- **Folding first and binding afterwards** is evaluation with the bindings at hand: under the
limit of the folding and under none, what is left has the value of the expression, the same double
or the same fault, and no fault but a zero divisor or a variable without a value can be left.
Folding without a limit succeeds as soon as some bindings give the expression a value. -/
theorem evaluateBound_fold (engine : Engine) (t : Expr) :
    (∀ u, (engine.fold t).result = .ok u → ∀ bindings : Bindings,
      engine.evaluateBound bindings u = t.valueUnder bindings ∧
      u.evaluate none bindings = t.valueUnder bindings ∧
      ∀ e, t.valueUnder bindings = .error e →
        e = .divisionByZero ∨ ∃ name, e = .invalidVariable name) ∧
    ((∃ bindings v, t.valueUnder bindings = .ok v) →
      ∃ u, (Engine.fold {} t).result = .ok u) := by
  refine ⟨?_, ?_⟩
  · intro u hu bindings
    have h := Engine.result_fold_eq_ok_iff.1 hu
    refine ⟨h.evaluateAt_eq (.refl _), h.evaluateAt_eq (Limit.none_looser _), ?_⟩
    intro e he
    exact h.error_of_valueUnder he
  · rintro ⟨bindings, v, hv⟩
    obtain ⟨u, hu⟩ := Expr.folds_of_valueUnder (d := 1) hv
    exact ⟨u, Engine.result_fold_eq_ok_iff.2 hu⟩

/-- A quotient whose divisor is a constant zero waits for its dividend: that one is at fault as long
as it has no value, and only then the divisor. -/
theorem evaluateBound_fold_quotient :
    let t : Expr := .binary (.op .div) (.var "x")
      (.binary (.op .mul) (.integer "0") (.integer "7"))
    (∃ u, (Engine.fold ⟨some 3⟩ t).result = .ok u ∧
      Engine.evaluateBound ⟨some 3⟩ Bindings.none u = .error (.invalidVariable "x") ∧
      u.evaluate none (.ofList [("x", 1)]) = .error .divisionByZero) ∧
    (Expr.var "x").valueUnder (.ofList [("x", 1)]) = .ok 1 ∧
    ∃ u, (Engine.fold {} (.var "x")).result = .ok u := by
  refine ⟨?_, rfl, (evaluateBound_fold ⟨some 3⟩ (.var "x")).2 ⟨.ofList [("x", 1)], 1, rfl⟩⟩
  have h := (evaluateBound_fold ⟨some 3⟩ (.binary (.op .div) (.var "x")
    (.binary (.op .mul) (.integer "0") (.integer "7")))).1 _ rfl
  exact ⟨_, rfl, (h Bindings.none).1.trans rfl, (h (.ofList [("x", 1)])).2.1.trans rfl⟩

end ExprFold
