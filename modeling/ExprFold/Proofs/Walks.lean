import ExprFold.Engine

/-!
# The walks over a tree, node by node

Evaluation, folding and evaluation under bindings look at the same few shapes of a node: a number, a
variable, an operator that lacks an operand, an operator with both. `Expr.shapeRec` is the induction
over these shapes, and below it stands one equation for each walk and shape, so that no later proof
opens a walk again.
-/

namespace ExprFold

/-! ## Computations that may fail -/

section
variable {ε α β : Type}

@[simp] theorem pure_eq_ok (a : α) : (pure a : Except ε α) = .ok a := rfl

@[simp] theorem ok_bind (a : α) (f : α → Except ε β) : (Except.ok a >>= f) = f a := rfl

@[simp] theorem error_bind (e : ε) (f : α → Except ε β) : (Except.error e >>= f) = .error e := rfl

theorem bind_eq_ok_iff {x : Except ε α} {f : α → Except ε β} {b : β} :
    (x >>= f) = .ok b ↔ ∃ a, x = .ok a ∧ f a = .ok b := by
  cases x with
  | error e => simp
  | ok a => simp

theorem bind_eq_error_iff {x : Except ε α} {f : α → Except ε β} {e : ε} :
    (x >>= f) = .error e ↔ x = .error e ∨ ∃ a, x = .ok a ∧ f a = .error e := by
  cases x with
  | error e => simp
  | ok a => simp

/-- Renaming a fault changes no success. -/
theorem mapError_eq_ok_iff {ε' : Type} {f : ε → ε'} {x : Except ε α} {a : α} :
    x.mapError f = .ok a ↔ x = .ok a := by
  cases x with
  | error e => exact iff_of_false nofun nofun
  | ok b => constructor <;> · rintro ⟨⟩; rfl

end

theorem Op.eq_divisionByZero_of_apply {o : Op} {x y : Float} {e : Error}
    (h : o.apply x y = .error e) : e = .divisionByZero := by
  cases o with
  | add | sub | mul => cases h
  | div =>
    simp only [Op.apply] at h
    split at h
    · cases h; rfl
    · cases h

/-! ## Limits -/

/-- `limit'` allows every depth that `limit` allows. -/
def Limit.Looser (limit' limit : Limit) : Prop :=
  ∀ d, limit.check d = .ok () → limit'.check d = .ok ()

theorem Limit.Looser.refl (limit : Limit) : limit.Looser limit := fun _ h => h

theorem Limit.none_looser (limit : Limit) : Limit.Looser none limit := fun _ _ => rfl

theorem Limit.some_looser {m n : Nat} (h : n ≤ m) : Limit.Looser (some m) (some n) := by
  intro d hd
  rw [Limit.check_eq_ok_iff] at hd ⊢
  intro m' hm'
  cases hm'
  exact Nat.le_trans (hd n rfl) h

/-! ## Shapes of a node -/

/-- The two notations for numbers, each with the reading of its literals. -/
inductive Numeric : Kind → (String → Except Error Float) → Prop
  | integer : Numeric .integer integerValue
  | decimal : Numeric .decimal decimalValue

/-- Induction over the shapes of a node that the walks tell apart. -/
@[elab_as_elim]
theorem Expr.shapeRec {motive : Expr → Prop}
    (number : ∀ k read s l r, Numeric k read → motive (.node ⟨k, s⟩ l r))
    (var : ∀ s l r, motive (.node ⟨.var, s⟩ l r))
    (noLeft : ∀ o s r, motive (.node ⟨.op o, s⟩ none r))
    (noRight : ∀ o s l, motive (.node ⟨.op o, s⟩ (some l) none))
    (operator : ∀ o s l r, motive l → motive r → motive (.node ⟨.op o, s⟩ (some l) (some r))) :
    ∀ t, motive t := by
  intro t
  induction t using Tree.recOn' with
  | node a l r hl hr =>
    obtain ⟨k, s⟩ := a
    cases k with
    | integer => exact number _ _ s l r .integer
    | decimal => exact number _ _ s l r .decimal
    | var => exact var s l r
    | op o =>
      match l, r, hl, hr with
      | none, r, _, _ => exact noLeft o s r
      | some l, none, _, _ => exact noRight o s l
      | some l, some r, hl, hr => exact operator o s l r (hl l rfl) (hr r rfl)

/-- The same for residual expressions, where a folded node is told apart first. -/
@[elab_as_elim]
theorem Residual.shapeRec {motive : Residual → Prop}
    (folded : ∀ k x s l r, motive (.node ⟨k, x, s, true⟩ l r))
    (number : ∀ k read x s l r, Numeric k read → motive (.node ⟨k, x, s, false⟩ l r))
    (var : ∀ x s l r, motive (.node ⟨.var, x, s, false⟩ l r))
    (noLeft : ∀ o x s r, motive (.node ⟨.op o, x, s, false⟩ none r))
    (noRight : ∀ o x s l, motive (.node ⟨.op o, x, s, false⟩ (some l) none))
    (operator : ∀ o x s l r, motive l → motive r →
      motive (.node ⟨.op o, x, s, false⟩ (some l) (some r))) :
    ∀ t, motive t := by
  intro t
  induction t using Tree.recOn' with
  | node a l r hl hr =>
    obtain ⟨k, x, s, b⟩ := a
    cases b with
    | true => exact folded k x s l r
    | false =>
      cases k with
      | integer => exact number _ _ x s l r .integer
      | decimal => exact number _ _ x s l r .decimal
      | var => exact var x s l r
      | op o =>
        match l, r, hl, hr with
        | none, r, _, _ => exact noLeft o x s r
        | some l, none, _, _ => exact noRight o x s l
        | some l, some r, hl, hr => exact operator o x s l r (hl l rfl) (hr r rfl)

namespace Expr

variable {limit : Limit} {d : Nat} {k : Kind} {read : String → Except Error Float} {o : Op}
  {s : String}

/-! ## Evaluation -/

theorem evaluateAt_number {l r : Option Expr} (hk : Numeric k read) :
    evaluateAt limit d (.node ⟨k, s⟩ l r) = (do
      limit.check d
      rejectChildren k l r
      read s) := by
  cases hk <;> cases l <;> cases r <;> rfl

theorem evaluateAt_var {l r : Option Expr} :
    evaluateAt limit d (.node ⟨.var, s⟩ l r) = (do
      limit.check d
      .error (.invalidNode (.unbound s))) := by
  cases l <;> cases r <;> rfl

theorem evaluateAt_noLeft {r : Option Expr} :
    evaluateAt limit d (.node ⟨.op o, s⟩ none r) = (do limit.check d; .error .missingLeft) := by
  cases r <;> rfl

theorem evaluateAt_noRight {l : Expr} :
    evaluateAt limit d (.node ⟨.op o, s⟩ (some l) none) =
      (do limit.check d; .error .missingRight) := rfl

theorem evaluateAt_operator {l r : Expr} :
    evaluateAt limit d (.node ⟨.op o, s⟩ (some l) (some r)) = (do
      limit.check d
      let x ← evaluateAt limit (d + 1) l
      let y ← evaluateAt limit (d + 1) r
      o.apply x y) := rfl

/-! ## Folding -/

theorem result_foldAt_number {l r : Option Expr} (hk : Numeric k read) :
    (foldAt limit d (.node ⟨k, s⟩ l r)).result = (do
      limit.check d
      rejectChildren k l r
      let x ← read s
      return .folded x) := by
  cases hk <;> cases l <;> cases r <;> simp [foldAt]

theorem result_foldAt_var {l r : Option Expr} :
    (foldAt limit d (.node ⟨.var, s⟩ l r)).result = (do
      limit.check d
      rejectChildren .var l r
      return .var s) := by
  cases l <;> cases r <;> simp [foldAt]

theorem result_foldAt_noLeft {r : Option Expr} :
    (foldAt limit d (.node ⟨.op o, s⟩ none r)).result =
      (do limit.check d; .error .missingLeft) := by
  cases r <;> simp [foldAt, throw, throwThe, MonadExceptOf.throw]

theorem result_foldAt_noRight {l : Expr} :
    (foldAt limit d (.node ⟨.op o, s⟩ (some l) none)).result =
      (do limit.check d; .error .missingRight) := by
  simp [foldAt, throw, throwThe, MonadExceptOf.throw]

theorem result_foldAt_operator {l r : Expr} :
    (foldAt limit d (.node ⟨.op o, s⟩ (some l) (some r))).result = (do
      limit.check d
      let l ← (foldAt limit (d + 1) l).result
      let r ← (foldAt limit (d + 1) r).result
      (foldOperator o l r).result) := by
  simp [foldAt]

theorem result_foldOperator_folded {x y : Float} :
    (foldOperator o (.folded x) (.folded y)).result = (do
      let v ← o.apply x y
      return .folded v) := by
  simp [foldOperator, Residual.folded]

theorem result_foldOperator_kept {l r : Residual}
    (h : l.label.folded = false ∨ r.label.folded = false) :
    (foldOperator o l r).result = .ok (.operator (.op o) l r) := by
  rcases h with h | h <;> simp [foldOperator, h]

theorem result_fold {t : Expr} : (t.fold limit).result = (foldAt limit 1 t).result := by
  cases h : (foldAt limit 1 t).result <;> simp [fold, h]

end Expr

/-! ## Faults of one kind only -/

/-- Whatever fault the outcome is, it has the property. -/
def FailsOnly {α : Type} (P : Error → Prop) (x : Except Error α) : Prop :=
  ∀ e, x = .error e → P e

namespace FailsOnly

variable {α β : Type} {P : Error → Prop} {x : Except Error α}

theorem ok (a : α) : FailsOnly P (.ok a : Except Error α) := fun _ h => nomatch h

theorem fault {e : Error} (h : P e) : FailsOnly P (.error e : Except Error α) := by
  rintro _ ⟨⟩
  exact h

theorem bind {f : α → Except Error β} (hx : FailsOnly P x) (hf : ∀ a, FailsOnly P (f a)) :
    FailsOnly P (x >>= f) := by
  intro e he
  rcases bind_eq_error_iff.1 he with he | ⟨a, _, he⟩
  · exact hx e he
  · exact hf a e he

theorem apply (h : P .divisionByZero) (o : Op) (x y : Float) : FailsOnly P (o.apply x y) := by
  intro e he
  rw [Op.eq_divisionByZero_of_apply he]
  exact h

theorem foldOperator (h : P .divisionByZero) (o : Op) (l r : Residual) :
    FailsOnly P (Expr.foldOperator o l r).result := by
  unfold Expr.foldOperator
  split
  · simp only [Traced.result_bind, Traced.result_lift, Traced.result_emit]
    exact .bind (.apply h o _ _) fun v => .ok _
  · exact .ok _

end FailsOnly

/-! ## Evaluation under bindings -/

/-- The value of a variable; without one it is the variable's fault. -/
def Bindings.value (bindings : Bindings) (name : String) : Except Error Float :=
  match bindings name with
  | some x => .ok x
  | .none => .error (.invalidVariable name)

theorem Bindings.value_eq_ok_iff {bindings : Bindings} {name : String} {x : Float} :
    bindings.value name = .ok x ↔ bindings name = some x := by
  unfold Bindings.value
  cases bindings name <;> simp

namespace Residual

variable {limit : Limit} {bindings : Bindings} {d : Nat} {k : Kind}
  {read : String → Except Error Float} {o : Op} {x : Float} {s : String}

theorem evaluateAt_folded {l r : Option Residual} :
    evaluateAt limit bindings d (.node ⟨k, x, s, true⟩ l r) = (do
      limit.check d
      if k = .decimal && l.isNone && r.isNone then return x
      else .error (.invalidNode (.foldedShape k))) := by
  cases k <;> cases l <;> cases r <;> rfl

theorem evaluateAt_number {l r : Option Residual} (hk : Numeric k read) :
    evaluateAt limit bindings d (.node ⟨k, x, s, false⟩ l r) = (do
      limit.check d
      .error (.invalidNode (.unfoldedLiteral k))) := by
  cases hk <;> cases l <;> cases r <;> rfl

theorem evaluateAt_var {l r : Option Residual} :
    evaluateAt limit bindings d (.node ⟨.var, x, s, false⟩ l r) = (do
      limit.check d
      rejectChildren .var l r
      bindings.value s) := by
  cases l <;> cases r <;> rfl

theorem evaluateAt_noLeft {r : Option Residual} :
    evaluateAt limit bindings d (.node ⟨.op o, x, s, false⟩ none r) =
      (do limit.check d; .error .missingLeft) := by
  cases r <;> rfl

theorem evaluateAt_noRight {l : Residual} :
    evaluateAt limit bindings d (.node ⟨.op o, x, s, false⟩ (some l) none) =
      (do limit.check d; .error .missingRight) := rfl

theorem evaluateAt_operator {l r : Residual} :
    evaluateAt limit bindings d (.node ⟨.op o, x, s, false⟩ (some l) (some r)) = (do
      limit.check d
      let x ← evaluateAt limit bindings (d + 1) l
      let y ← evaluateAt limit bindings (d + 1) r
      o.apply x y) := rfl

end Residual

/-! ## Texts -/

theorem Engine.result_evaluateText (engine : Engine) (s : String) :
    (engine.evaluateText s).result =
      if s.isEmpty then .ok 0
      else Expr.parse engine.limit s >>= fun t => (engine.evaluate t).mapError ([·]) := by
  unfold Engine.evaluateText
  split
  · rfl
  · simp

/-- Only the empty text is worth something without being parsed. -/
theorem Engine.result_evaluateText_of_ne (engine : Engine) {s : String} (hs : s ≠ "") :
    (engine.evaluateText s).result =
      Expr.parse engine.limit s >>= fun t => (engine.evaluate t).mapError ([·]) := by
  have hne : ¬s.isEmpty = true := by simpa using hs
  rw [result_evaluateText, if_neg hne]

end ExprFold
