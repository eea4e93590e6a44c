import ExprFold.Proofs.Binding

/-!
# Literals put in for variables

A variable can get its value early, as a literal in the expression, or late, from the bindings of
what folding leaves. `Expr.valueUnder_substitute` says that the value under bindings does not tell
the two apart. Folding may do more or fail earlier on an expression with literals in it, but as long
as a value comes out at the end, it is the same one (`Engine.fold_bind_eq_ok_iff`). Main statement:
`fold_substitute`.
-/

namespace ExprFold

/-- A number as it is written in a leaf, with the value that it is read as. -/
structure NumberLiteral where
  kind : Kind
  text : String
  value : Float
  read : String → Except Error Float
  numeric : Numeric kind read
  read_eq : read text = .ok value

def NumberLiteral.expr (x : NumberLiteral) : Expr := .leaf x.kind x.text

/-- The numbers to put in for variables. A name without one stays. -/
abbrev Substitution := String → Option NumberLiteral

/-- The values that the names of a substitution get. -/
def Substitution.values (s : Substitution) : Bindings := fun name => (s name).map (·.value)

/-- The first bindings, and the second ones for the names that the first do not bind. -/
def Bindings.orElse (first second : Bindings) : Bindings := fun name =>
  (first name).or (second name)

/-- Every variable of the expression has a number put in for it. -/
def Substitution.Covers (s : Substitution) (t : Expr) : Prop :=
  ∀ a ∈ t.labels, a.kind = .var → (s a.literal).isSome = true

instance (s : Substitution) (t : Expr) : Decidable (s.Covers t) :=
  inferInstanceAs (Decidable (∀ a ∈ t.labels, a.kind = .var → (s a.literal).isSome = true))

theorem Substitution.Covers.operands {s : Substitution} {a : Expr.Label} {l r : Expr}
    (h : s.Covers (.branch a l r)) : s.Covers l ∧ s.Covers r := by
  have hmem : ∀ b, b ∈ l.labels ∨ b ∈ r.labels → b ∈ (Tree.branch a l r).labels := by
    intro b hb
    rw [Tree.labels_node]
    simpa using Or.inr hb
  exact ⟨fun b hb => h b (hmem b (.inl hb)), fun b hb => h b (hmem b (.inr hb))⟩

namespace Expr

/-- Puts numbers in for the variables that are leaves. -/
def substitute (s : Substitution) : Expr → Expr
  | .node ⟨.var, name⟩ none none =>
    match s name with
    | some x => x.expr
    | none => .var name
  | .node a left right =>
    .node a (match left with | none => none | some l => some (substitute s l))
      (match right with | none => none | some r => some (substitute s r))

section
variable {s : Substitution}

theorem substitute_var (name : String) :
    substitute s (.leaf .var name) = ((s name).map (·.expr)).getD (.var name) := by
  rw [substitute]
  cases s name <;> rfl

theorem substitute_number {k : Kind} {read : String → Except Error Float} {text : String}
    {l r : Option Expr} (hk : Numeric k read) :
    substitute s (.node ⟨k, text⟩ l r) =
      .node ⟨k, text⟩ (l.map (substitute s)) (r.map (substitute s)) := by
  cases hk <;> cases l <;> cases r <;> rfl

theorem substitute_op {o : Op} {text : String} {l r : Option Expr} :
    substitute s (.node ⟨.op o, text⟩ l r) =
      .node ⟨.op o, text⟩ (l.map (substitute s)) (r.map (substitute s)) := by
  cases l <;> cases r <;> rfl

/-- A variable node with children is no variable to put a number in for. -/
theorem substitute_var_of_children {name : String} {l r : Option Expr}
    (h : l.isSome = true ∨ r.isSome = true) :
    substitute s (.node ⟨.var, name⟩ l r) =
      .node ⟨.var, name⟩ (l.map (substitute s)) (r.map (substitute s)) := by
  cases l <;> cases r <;> first | rfl | simp at h

end

theorem rejectChildren_map {k : Kind} {l r : Option Expr} {f : Expr → Expr} :
    rejectChildren k (l.map f) (r.map f) = rejectChildren k l r := by
  simp [rejectChildren]

theorem value_orElse_of_some {s : Substitution} {bindings : Bindings} {name : String}
    {x : NumberLiteral} (hx : s name = some x) :
    (s.values.orElse bindings).value name = .ok x.value := by
  rw [Bindings.value_eq_ok_iff]
  simp [Bindings.orElse, Substitution.values, hx]

theorem value_orElse_of_none {s : Substitution} {bindings : Bindings} {name : String}
    (hx : s name = none) :
    (s.values.orElse bindings).value name = bindings.value name := by
  simp [Bindings.value, Bindings.orElse, Substitution.values, hx]

/-- With numbers put in, an expression has under bindings the value that it has when these numbers
are bound first. -/
theorem valueUnder_substitute (s : Substitution) (bindings : Bindings) (t : Expr) :
    (t.substitute s).valueUnder bindings = t.valueUnder (s.values.orElse bindings) := by
  induction t using Expr.shapeRec with
  | number k read text l r hk =>
    rw [substitute_number hk, valueUnder_number hk, valueUnder_number hk, rejectChildren_map]
  | var name l r =>
    by_cases hc : l.isSome = true ∨ r.isSome = true
    · have hreject : rejectChildren .var l r = .error (.invalidNode (.leafWithChildren .var)) := by
        cases l <;> cases r <;> simp_all [rejectChildren]
      rw [substitute_var_of_children hc, valueUnder_var, valueUnder_var, rejectChildren_map,
        hreject]
      rfl
    · obtain ⟨rfl, rfl⟩ : l = none ∧ r = none := by cases l <;> cases r <;> simp_all
      rw [substitute_var, valueUnder_var]
      change _ = (s.values.orElse bindings).value name
      cases hx : s name with
      | some x =>
        rw [value_orElse_of_some hx]
        change x.expr.valueUnder bindings = _
        rw [NumberLiteral.expr, valueUnder_number x.numeric]
        exact x.read_eq
      | none =>
        rw [value_orElse_of_none hx]
        change (Expr.var name).valueUnder bindings = _
        rw [Expr.var, valueUnder_var]
        rfl
  | noLeft o text r => rw [substitute_op, valueUnder, valueUnder]; cases r <;> rfl
  | noRight o text l => rw [substitute_op, valueUnder, valueUnder]; rfl
  | operator o text l r ihl ihr =>
    rw [substitute_op, Option.map_some, Option.map_some, valueUnder_operator, valueUnder_operator,
      ihl, ihr]

end Expr

/-! ## Folding in between -/

/-- Folding first and binding afterwards gives a value exactly where the expression has it. -/
theorem Engine.fold_bind_eq_ok_iff {t : Expr} {bindings : Bindings} {v : Float} :
    ((Engine.fold {} t).result >>= Engine.evaluateBound {} bindings) = .ok v ↔
      t.valueUnder bindings = .ok v := by
  rw [bind_eq_ok_iff]
  constructor
  · rintro ⟨u, hu, hv⟩
    have h := Engine.result_fold_eq_ok_iff.1 hu
    rw [← h.evaluateAt_eq (Limit.Looser.refl none)]
    exact hv
  · intro hv
    obtain ⟨u, hu⟩ := Expr.folds_of_valueUnder (d := 1) hv
    refine ⟨u, Engine.result_fold_eq_ok_iff.2 hu, ?_⟩
    rw [← hv]
    exact hu.evaluateAt_eq (Limit.Looser.refl none)

/-- An expression that can be folded, with a number put in for each variable, is evaluated to what
it is worth when these numbers are bound. -/
theorem Folds.evaluateAt_substitute {s : Substitution} {d : Nat} {t : Expr} {u : Residual}
    (h : Folds none d t u) (hs : s.Covers t) :
    (t.substitute s).evaluateAt none d = t.valueUnder s.values := by
  induction h with
  | number _ hk hx =>
    rw [Expr.substitute_number hk, Expr.evaluateAt_number hk, Expr.valueUnder_number hk]
    rfl
  | @var d name _ =>
    obtain ⟨x, hx⟩ := Option.isSome_iff_exists.1 (hs ⟨.var, name⟩ (by simp [Tree.labels_node]) rfl)
    have hv : s.values.value name = .ok x.value :=
      Bindings.value_eq_ok_iff.2 (by simp [Substitution.values, hx])
    rw [Expr.substitute_var, hx, Expr.valueUnder_var]
    change x.expr.evaluateAt none d = s.values.value name
    rw [hv, NumberLiteral.expr, Expr.evaluateAt_number x.numeric]
    exact x.read_eq
  | folded _ _ _ _ ihl ihr | kept _ _ _ _ ihl ihr =>
    obtain ⟨hl, hr⟩ := hs.operands
    rw [Expr.substitute_op, Option.map_some, Option.map_some, Expr.evaluateAt_operator,
      Expr.valueUnder_operator, ihl hl, ihr hr]
    rfl

/-- **Numbers put in early and values bound late agree.** Whichever of the variables have a number
put in for them, folding and then binding the rest gives a value exactly where folding the
expression as it was and then binding those numbers first gives it. Where there is a number for
every variable and the expression can be folded, evaluation with the numbers put in is evaluation of
what is left with them bound, to the same double or the same fault. -/
theorem fold_substitute (t : Expr) (s : Substitution) :
    (∀ bindings v,
      ((Engine.fold {} (t.substitute s)).result >>= Engine.evaluateBound {} bindings) = .ok v ↔
        ((Engine.fold {} t).result >>= Engine.evaluateBound {} (s.values.orElse bindings)) =
          .ok v) ∧
    (s.Covers t → ∀ u, (Engine.fold {} t).result = .ok u →
      Engine.evaluate {} (t.substitute s) = Engine.evaluateBound {} s.values u) := by
  refine ⟨?_, ?_⟩
  · intro bindings v
    rw [Engine.fold_bind_eq_ok_iff, Engine.fold_bind_eq_ok_iff, Expr.valueUnder_substitute]
  · intro hs u hu
    have h := Engine.result_fold_eq_ok_iff.1 hu
    calc Engine.evaluate {} (t.substitute s)
        = t.valueUnder s.values := h.evaluateAt_substitute hs
      _ = Engine.evaluateBound {} s.values u := (h.evaluateAt_eq (Limit.Looser.refl none)).symm

/-- With zero put in for the divisor it is folding that meets the fault; with zero bound to it
later, folding leaves the quotient and its evaluation meets the same fault. -/
theorem fold_substitute_quotient :
    let zero : NumberLiteral := ⟨.integer, "0", 0, integerValue, .integer, rfl⟩
    let s : Substitution := fun name => [("x", zero)].lookup name
    let t : Expr := .binary (.op .div) (.integer "1") (.var "x")
    s.Covers t ∧ ∃ u, (Engine.fold {} t).result = .ok u ∧
      Engine.evaluate {} (t.substitute s) = Engine.evaluateBound {} s.values u ∧
      Engine.evaluateBound {} s.values u = .error .divisionByZero := by
  exact ⟨by decide, _, rfl, (fold_substitute _ _).2 (by decide) _ rfl, rfl⟩

end ExprFold
