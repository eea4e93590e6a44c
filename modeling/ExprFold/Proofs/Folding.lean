import ExprFold.Proofs.Walks

/-!
# What folding leaves

`Folds` gives folding as a relation, with one rule for each way in which a node can be settled, and
`result_foldAt_eq_ok_iff` says that folding succeeds exactly along these rules. What holds of every
residual expression that folding makes is shown by induction over them.
-/

namespace ExprFold

/-! ## Names in a residual expression -/

namespace Residual

/-- The names of all variable nodes, in the order of `variableNames` and with repetitions. -/
def occurrences (t : Residual) : List String := (t.labels.filter (·.kind == .var)).map (·.name)

theorem variableNames_eq (t : Residual) : t.variableNames = t.occurrences.eraseDups := rfl

@[simp] theorem occurrences_folded (x : Float) : (folded x).occurrences = [] := rfl

@[simp] theorem occurrences_var (name : String) : (var name).occurrences = [name] := rfl

theorem occurrences_branch (o : Op) (x : Float) (s : String) (b : Bool) (l r : Residual) :
    occurrences (.branch ⟨.op o, x, s, b⟩ l r) = l.occurrences ++ r.occurrences := by
  simp [occurrences, Tree.labels_node]

@[simp] theorem occurrences_operator (o : Op) (l r : Residual) :
    (operator (.op o) l r).occurrences = l.occurrences ++ r.occurrences :=
  occurrences_branch o 0 "" false l r

theorem head?_variableNames (t : Residual) : t.variableNames.head? = t.occurrences.head? := by
  rw [variableNames_eq]
  cases t.occurrences with
  | nil => rfl
  | cons name names => rw [List.eraseDups_cons]; rfl

end Residual

/-! ## The rules of folding -/

/-- With its root at depth `d`, the expression leaves the residual expression. -/
inductive Folds (limit : Limit) : Nat → Expr → Residual → Prop
  | number {d : Nat} {k : Kind} {read : String → Except Error Float} {s : String} {x : Float} :
      limit.check d = .ok () → Numeric k read → read s = .ok x →
      Folds limit d (.leaf k s) (.folded x)
  | var {d : Nat} {s : String} :
      limit.check d = .ok () → Folds limit d (.leaf .var s) (.var s)
  /-- Both operands are worked out, and so the operator is. -/
  | folded {d : Nat} {o : Op} {s : String} {l r : Expr} {x y v : Float} :
      limit.check d = .ok () → Folds limit (d + 1) l (.folded x) →
      Folds limit (d + 1) r (.folded y) → o.apply x y = .ok v →
      Folds limit d (.node ⟨.op o, s⟩ (some l) (some r)) (.folded v)
  /-- An operand waits for a variable, and so the operator does. -/
  | kept {d : Nat} {o : Op} {s : String} {l r : Expr} {l' r' : Residual} :
      limit.check d = .ok () → Folds limit (d + 1) l l' → Folds limit (d + 1) r r' →
      l'.label.folded = false ∨ r'.label.folded = false →
      Folds limit d (.node ⟨.op o, s⟩ (some l) (some r)) (.operator (.op o) l' r')

namespace Folds

variable {limit : Limit} {d : Nat} {t : Expr} {u : Residual}

theorem check_eq_ok (h : Folds limit d t u) : limit.check d = .ok () := by
  cases h <;> assumption

/-- A residual expression that is marked as folded is no more than its value. -/
theorem eq_folded (h : Folds limit d t u) (hu : u.label.folded = true) : ∃ x, u = .folded x := by
  cases h with
  | number _ _ _ => exact ⟨_, rfl⟩
  | var _ => simp [Residual.var] at hu
  | folded _ _ _ _ => exact ⟨_, rfl⟩
  | kept _ _ _ _ => simp [Residual.operator] at hu

/-- Two operands are both worked out, or one of them waits. -/
theorem folded_or_waits {l r : Expr} {l' r' : Residual} (hl : Folds limit d l l')
    (hr : Folds limit d r r') :
    (∃ x y, l' = .folded x ∧ r' = .folded y) ∨
      (l'.label.folded = false ∨ r'.label.folded = false) := by
  cases hfl : l'.label.folded with
  | false => exact .inr (.inl rfl)
  | true =>
    cases hfr : r'.label.folded with
    | false => exact .inr (.inr rfl)
    | true =>
      obtain ⟨x, rfl⟩ := hl.eq_folded hfl
      obtain ⟨y, rfl⟩ := hr.eq_folded hfr
      exact .inl ⟨x, y, rfl, rfl⟩

/-! ## The rules are the walk -/

theorem result_foldAt (h : Folds limit d t u) : (t.foldAt limit d).result = .ok u := by
  induction h with
  | number hd hk hx => rw [Expr.result_foldAt_number hk, hd]; simp [rejectChildren, hx]
  | var hd => rw [Expr.result_foldAt_var, hd]; simp [rejectChildren]
  | folded hd _ _ hv ihl ihr =>
    rw [Expr.result_foldAt_operator, hd, ihl, ihr]
    simp [Expr.result_foldOperator_folded, hv]
  | kept hd _ _ hw ihl ihr =>
    rw [Expr.result_foldAt_operator, hd, ihl, ihr]
    simp [Expr.result_foldOperator_kept hw]

theorem of_result_foldAt (h : (t.foldAt limit d).result = .ok u) : Folds limit d t u := by
  induction t using Expr.shapeRec generalizing d u with
  | number k read s l r hk =>
    rw [Expr.result_foldAt_number hk] at h
    simp only [bind_eq_ok_iff] at h
    obtain ⟨⟨⟩, hd, ⟨⟩, hc, x, hx, hu⟩ := h
    obtain ⟨rfl, rfl⟩ := rejectChildren_eq_ok_iff.1 hc
    cases hu
    exact .number hd hk hx
  | var s l r =>
    rw [Expr.result_foldAt_var] at h
    simp only [bind_eq_ok_iff] at h
    obtain ⟨⟨⟩, hd, ⟨⟩, hc, hu⟩ := h
    obtain ⟨rfl, rfl⟩ := rejectChildren_eq_ok_iff.1 hc
    cases hu
    exact .var hd
  | noLeft o s r => rw [Expr.result_foldAt_noLeft] at h; simp [bind_eq_ok_iff] at h
  | noRight o s l => rw [Expr.result_foldAt_noRight] at h; simp [bind_eq_ok_iff] at h
  | operator o s l r ihl ihr =>
    rw [Expr.result_foldAt_operator] at h
    simp only [bind_eq_ok_iff] at h
    obtain ⟨⟨⟩, hd, l', hl, r', hr, h⟩ := h
    have hl := ihl hl
    have hr := ihr hr
    rcases hl.folded_or_waits hr with ⟨x, y, rfl, rfl⟩ | hw
    · rw [Expr.result_foldOperator_folded] at h
      simp only [bind_eq_ok_iff] at h
      obtain ⟨v, hv, hu⟩ := h
      cases hu
      exact .folded hd hl hr hv
    · rw [Expr.result_foldOperator_kept hw] at h
      cases h
      exact .kept hd hl hr hw

end Folds

/-- Folding succeeds exactly along the rules. -/
theorem Expr.result_foldAt_eq_ok_iff {limit : Limit} {d : Nat} {t : Expr} {u : Residual} :
    (t.foldAt limit d).result = .ok u ↔ Folds limit d t u :=
  ⟨Folds.of_result_foldAt, Folds.result_foldAt⟩

theorem Engine.result_fold_eq_ok_iff {engine : Engine} {t : Expr} {u : Residual} :
    (engine.fold t).result = .ok u ↔ Folds engine.limit 1 t u := by
  rw [Engine.fold, Expr.result_fold, Expr.result_foldAt_eq_ok_iff]

end ExprFold
