import ExprFold.Proofs.Walks

/-!
# Success under bindings

`Residual.Evaluates` gives the successful evaluations of a residual expression as a relation, with
one rule for each node that has a value, and `Residual.evaluateAt_eq_ok_iff` says that evaluation
succeeds exactly along these rules. A node that fits no rule, at whatever place of the tree, leaves
the whole without a value.
-/

namespace ExprFold.Residual

/-- With its root at depth `d`, the residual expression has the value. -/
inductive Evaluates (limit : Limit) (bindings : Bindings) : Nat → Residual → Float → Prop
  | folded {d : Nat} {x : Float} {s : String} : limit.check d = .ok () →
      Evaluates limit bindings d (Tree.leaf ⟨.decimal, x, s, true⟩) x
  | var {d : Nat} {x v : Float} {s : String} : limit.check d = .ok () → bindings s = some v →
      Evaluates limit bindings d (Tree.leaf ⟨.var, x, s, false⟩) v
  | operator {d : Nat} {o : Op} {x y z v : Float} {s : String} {l r : Residual} :
      limit.check d = .ok () → Evaluates limit bindings (d + 1) l y →
      Evaluates limit bindings (d + 1) r z → o.apply y z = .ok v →
      Evaluates limit bindings d (Tree.branch ⟨.op o, x, s, false⟩ l r) v

variable {limit : Limit} {bindings : Bindings} {d : Nat} {u : Residual} {v : Float}

theorem Evaluates.evaluateAt_eq_ok (h : Evaluates limit bindings d u v) :
    u.evaluateAt limit bindings d = .ok v := by
  induction h with
  | folded hd => rw [evaluateAt_folded, hd]; rfl
  | var hd hv =>
    rw [evaluateAt_var, hd]
    simpa [rejectChildren] using Bindings.value_eq_ok_iff.2 hv
  | operator hd _ _ hv ihl ihr =>
    rw [evaluateAt_operator, hd, ihl, ihr]
    exact hv

theorem Evaluates.of_evaluateAt (h : u.evaluateAt limit bindings d = .ok v) :
    Evaluates limit bindings d u v := by
  induction u using Residual.shapeRec generalizing d v with
  | folded k x s l r =>
    rw [evaluateAt_folded] at h
    simp only [bind_eq_ok_iff] at h
    obtain ⟨⟨⟩, hd, h⟩ := h
    split at h
    · rename_i hs
      simp only [Bool.and_eq_true, decide_eq_true_eq, Option.isNone_iff_eq_none] at hs
      obtain ⟨⟨rfl, rfl⟩, rfl⟩ := hs
      cases h
      exact .folded hd
    · cases h
  | number k read x s l r hk =>
    rw [evaluateAt_number hk] at h
    simp [bind_eq_ok_iff] at h
  | var x s l r =>
    rw [evaluateAt_var] at h
    simp only [bind_eq_ok_iff] at h
    obtain ⟨⟨⟩, hd, ⟨⟩, hc, hv⟩ := h
    obtain ⟨rfl, rfl⟩ := rejectChildren_eq_ok_iff.1 hc
    exact .var hd (Bindings.value_eq_ok_iff.1 hv)
  | noLeft o x s r => rw [evaluateAt_noLeft] at h; simp [bind_eq_ok_iff] at h
  | noRight o x s l => rw [evaluateAt_noRight] at h; simp [bind_eq_ok_iff] at h
  | operator o x s l r ihl ihr =>
    rw [evaluateAt_operator] at h
    simp only [bind_eq_ok_iff] at h
    obtain ⟨⟨⟩, hd, y, hy, z, hz, hv⟩ := h
    exact .operator hd (ihl hy) (ihr hz) hv

/-- Evaluation under bindings succeeds exactly along the rules. -/
theorem evaluateAt_eq_ok_iff :
    u.evaluateAt limit bindings d = .ok v ↔ Evaluates limit bindings d u v :=
  ⟨Evaluates.of_evaluateAt, Evaluates.evaluateAt_eq_ok⟩

end ExprFold.Residual
