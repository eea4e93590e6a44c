import ExprFold.Proofs.Demand
import ExprFold.Proofs.Literals
import ExprFold.Proofs.Nesting
import ExprFold.Proofs.Places

/-!
# The faults of parsed expressions

In an expression that comes from a text every operator has its operands and every leaf is bare, so
a walk over it can only be at fault for a number literal that has no value, a zero divisor, a
variable, or its depth (`Expr.Canonical.evaluateAt_failsOnly`,
`Expr.Canonical.result_foldAt_failsOnly`). Of the parser it is only used that its trees are
canonical and that their names are those of the text. What folding leaves has no fault of a literal
any more. Main statement: `parsed_faults`.
-/

namespace ExprFold

/-- The faults of a tree that is not put together as its nodes ask for. -/
def Error.IsStructural : Error → Prop
  | .missingLeft | .missingRight => True
  | .invalidNode (.unbound _) => False
  | .invalidNode _ => True
  | _ => False

/-- The faults of the number literals of an expression. -/
inductive LiteralFault (t : Expr) : Error → Prop
  /-- An integer leaf stands for a number that 64 bits do not hold. -/
  | integer {s : String} : t.Contains (Expr.leaf .integer s) → ¬FitsWord (Expr.wholeNumber s) →
      LiteralFault t (.invalidInteger s)
  | decimal {s : String} : t.Contains (Expr.leaf .decimal s) → LiteralFault t (.invalidDecimal s)

/-- A step behind a check. -/
theorem FailsOnly.checked {α : Type} {P : Error → Prop} {limit : Limit} {d k : Nat}
    {x : Except Error α} (hP : ∀ e, WalkFault limit k e → P e) (hd : d ≤ k)
    (hx : FailsOnly P x) : FailsOnly P (do limit.check d; x) :=
  .bind (fun e he => hP e (.of_check he hd)) fun _ => hx

namespace Expr

/-- A literal of a text can only be at fault for its number. -/
theorem IsNumber.exists_read {root : Expr} {k : Kind} {s : String} (h : IsNumber k s)
    (hroot : root.Contains (Expr.leaf k s)) :
    ∃ read, Numeric k read ∧ FailsOnly (LiteralFault root) (read s) := by
  cases k with
  | integer =>
    refine ⟨_, .integer, ?_⟩
    rw [h.integerValue_eq]
    by_cases hfit : FitsWord (wholeNumber s)
    · rw [if_pos hfit]
      exact .ok _
    · rw [if_neg hfit]
      exact .fault (.integer hroot hfit)
  | decimal =>
    refine ⟨_, .decimal, ?_⟩
    unfold decimalValue
    split
    · split
      · exact .ok _
      · exact .fault (.decimal hroot)
    · exact .fault (.decimal hroot)
  | var | op _ => exact h.elim False.elim fun ⟨_, _, h⟩ => h.elim

section
variable {limit : Limit} {d k : Nat} {root t : Expr}

/-- Folding a part of an expression. -/
theorem Canonical.result_foldAt_failsOnly (h : Canonical t)
    (hroot : ∀ n, t.Contains n → root.Contains n) (hk : d + t.depth ≤ k + 1) :
    FailsOnly (fun e => LiteralFault root e ∨ WalkFault limit k e) (t.foldAt limit d).result := by
  induction h generalizing d with
  | @number kind s h =>
    obtain ⟨read, hread, hfail⟩ := h.exists_read (hroot _ (.refl _))
    rw [Tree.depth_leaf] at hk
    rw [result_foldAt_number hread]
    exact .checked (fun _ => .inr) (by omega)
      (.bind (.ok _) fun _ => .bind (fun e he => .inl (hfail e he)) fun _ => .ok _)
  | name _ =>
    rw [Expr.var, Tree.depth_leaf] at hk
    rw [Expr.var, result_foldAt_var]
    exact .checked (fun _ => .inr) (by omega) (.ok _)
  | operator _ _ ihl ihr =>
    rw [Tree.depth_branch] at hk
    have hl := ihl (d := d + 1) (fun n hn => hroot n hn.left) (by omega)
    have hr := ihr (d := d + 1) (fun n hn => hroot n hn.right) (by omega)
    rw [result_foldAt_operator]
    exact .checked (fun _ => .inr) (by omega)
      (hl.bind fun l => hr.bind fun r => .foldOperator (.inr .divisionByZero) _ l r)

/-- Evaluation of a part of an expression ends at the latest at the first of its names. -/
theorem Canonical.evaluateAt_failsOnly {names : List String} (h : Canonical t)
    (hroot : ∀ n, t.Contains n → root.Contains n) (hnames : ∀ name ∈ t.names, name ∈ names)
    (hk : d + t.depth ≤ k + 1) :
    FailsOnly (fun e => LiteralFault root e ∨ WalkFault limit k e ∨
      ∃ name ∈ names, e = .invalidNode (.unbound name)) (t.evaluateAt limit d) := by
  induction h generalizing d with
  | @number kind s h =>
    obtain ⟨read, hread, hfail⟩ := h.exists_read (hroot _ (.refl _))
    rw [Tree.depth_leaf] at hk
    rw [evaluateAt_number hread]
    exact .checked (fun _ he => .inr (.inl he)) (by omega)
      (.bind (.ok _) fun _ e he => .inl (hfail e he))
  | name _ =>
    rw [Expr.var, Tree.depth_leaf] at hk
    rw [Expr.var, evaluateAt_var]
    exact .checked (fun _ he => .inr (.inl he)) (by omega)
      (.fault (.inr (.inr ⟨_, hnames _ (by simp [Expr.var]), rfl⟩)))
  | operator _ _ ihl ihr =>
    rw [Tree.depth_branch] at hk
    rw [names_operator] at hnames
    have hl := ihl (d := d + 1) (fun n hn => hroot n hn.left)
      (fun name hn => hnames name (List.mem_append_left _ hn)) (by omega)
    have hr := ihr (d := d + 1) (fun n hn => hroot n hn.right)
      (fun name hn => hnames name (List.mem_append_right _ hn)) (by omega)
    rw [evaluateAt_operator]
    exact .checked (fun _ he => .inr (.inl he)) (by omega)
      (hl.bind fun x => hr.bind fun y => .apply (.inr (.inl .divisionByZero)) _ x y)

end

end Expr

/-! ## Whole expressions -/

section
variable {t : Expr} {u : Residual}

theorem Expr.Canonical.evaluate_failsOnly (h : Canonical t) (engine : Engine) :
    FailsOnly (fun e => LiteralFault t e ∨ WalkFault engine.limit t.depth e ∨
      ∃ name ∈ t.names, e = .invalidNode (.unbound name)) (engine.evaluate t) :=
  h.evaluateAt_failsOnly (fun _ => id) (fun _ => id) (Nat.add_comm 1 t.depth).le

theorem Expr.Canonical.result_fold_failsOnly (h : Canonical t) (engine : Engine) :
    FailsOnly (fun e => LiteralFault t e ∨ WalkFault engine.limit t.depth e)
      (engine.fold t).result := by
  rw [Engine.fold, result_fold]
  exact h.result_foldAt_failsOnly (fun _ => id) (Nat.add_comm 1 t.depth).le

/-- What folding leaves, of an expression of any shape, keeps no fault of a literal. -/
theorem Engine.evaluateBound_failsOnly {engine : Engine} (h : (engine.fold t).result = .ok u)
    (binder : Engine) (bindings : Bindings) :
    FailsOnly (fun e => WalkFault binder.limit u.depth e ∨
      ∃ name ∈ t.names, bindings name = none ∧ e = .invalidVariable name)
      (binder.evaluateBound bindings u) := by
  have hu := result_fold_eq_ok_iff.1 h
  rw [← hu.occurrences_eq]
  exact (hu.wellFormed.asks (Nat.add_comm 1 u.depth).le).failsOnly

end

theorem LiteralFault.not_isStructural {t : Expr} {e : Error} (h : LiteralFault t e) :
    ¬e.IsStructural := by
  cases h <;> exact id

theorem WalkFault.not_isStructural {limit : Limit} {k : Nat} {e : Error}
    (h : WalkFault limit k e) : ¬e.IsStructural := by
  cases h <;> exact id

/-- **No text has a fault of its structure.** In what is parsed from a text, under whatever limits,
evaluation and folding can only be at fault for a literal, a zero divisor or the depth, and
evaluation for a name of the text. What folding leaves is at fault only for a zero divisor, the
depth, or a name of the text that has no value. -/
theorem parsed_faults (limit : Limit) (s : String) (t : Expr) (h : Expr.parse limit s = .ok t) :
    ∃ ts, tokenize s = .ok ts ∧ ∀ engine : Engine,
      (∀ e, engine.evaluate t = .error e →
        LiteralFault t e ∨ WalkFault engine.limit t.depth e ∨
          ∃ name, Token.name name ∈ ts ∧ e = .invalidNode (.unbound name)) ∧
      (∀ e, (engine.fold t).result = .error e →
        LiteralFault t e ∨ WalkFault engine.limit t.depth e) ∧
      (∀ u, (engine.fold t).result = .ok u → ∀ (binder : Engine) (bindings : Bindings) (e : Error),
        binder.evaluateBound bindings u = .error e →
          WalkFault binder.limit u.depth e ∨
            ∃ name, Token.name name ∈ ts ∧ bindings name = none ∧ e = .invalidVariable name) ∧
      (∀ fault, (engine.fold t).result ≠ .error (.invalidNode fault)) ∧
      ∀ e : Error, e.IsStructural →
        engine.evaluate t ≠ .error e ∧ (engine.fold t).result ≠ .error e ∧
          ∀ u, (engine.fold t).result = .ok u → ∀ (binder : Engine) (bindings : Bindings),
            binder.evaluateBound bindings u ≠ .error e := by
  have hnone := Expr.parse_none_of_parse h
  have ht := Expr.canonical_of_parse hnone
  obtain ⟨ts, hts, hrun⟩ := Expr.parse_eq_ok_iff.1 hnone
  have hnames : ∀ name ∈ t.names, Token.name name ∈ ts := by
    intro name hn
    rw [(Expr.Parser.run_none_eq_ok_iff.1 hrun).names_eq] at hn
    exact Token.mem_filterMap_name?.1 hn
  refine ⟨ts, hts, fun engine => ?_⟩
  have heval := ht.evaluate_failsOnly engine
  have hfold := ht.result_fold_failsOnly engine
  refine ⟨?_, hfold, ?_, ?_, ?_⟩
  · intro e he
    rcases heval e he with h | h | ⟨name, hn, rfl⟩
    · exact .inl h
    · exact .inr (.inl h)
    · exact .inr (.inr ⟨name, hnames name hn, rfl⟩)
  · intro u hu binder bindings e he
    rcases Engine.evaluateBound_failsOnly hu binder bindings e he with h | ⟨name, hn, hnone, rfl⟩
    · exact .inl h
    · exact .inr ⟨name, hnames name hn, hnone, rfl⟩
  · intro fault he
    rcases hfold _ he with h | h <;> cases h
  · intro e hs
    refine ⟨?_, ?_, ?_⟩
    · intro he
      rcases heval e he with h | h | ⟨name, -, rfl⟩
      · exact h.not_isStructural hs
      · exact h.not_isStructural hs
      · exact hs
    · intro he
      rcases hfold e he with h | h
      · exact h.not_isStructural hs
      · exact h.not_isStructural hs
    · intro u hu binder bindings he
      rcases Engine.evaluateBound_failsOnly hu binder bindings e he with h | ⟨name, -, -, rfl⟩
      · exact h.not_isStructural hs
      · exact hs

/-- The minus sign is part of the literal, whose number is one below what 64 bits hold. Folding gets
to it, and evaluation stops at the name before. -/
theorem parsed_faults_integer :
    let s := "x / -9223372036854775809"
    let t : Expr := .binary (.op .div) (.var "x") (.integer "-9223372036854775809")
    Expr.parse (some 2) s = .ok t ∧
    (LiteralFault t (.invalidInteger "-9223372036854775809") ∨
      WalkFault none t.depth (.invalidInteger "-9223372036854775809")) ∧
    ∃ ts, tokenize s = .ok ts ∧
      (LiteralFault t (.invalidNode (.unbound "x")) ∨
        WalkFault none t.depth (.invalidNode (.unbound "x")) ∨
        ∃ name, Token.name name ∈ ts ∧
          Error.invalidNode (.unbound "x") = .invalidNode (.unbound name)) := by
  intro s t
  have hs : Expr.parse (some 2) s = .ok t := by cbv
  obtain ⟨ts, hts, h⟩ := parsed_faults (some 2) s t hs
  obtain ⟨heval, hfold, -⟩ := h {}
  exact ⟨hs, hfold _ rfl, ts, hts, heval _ rfl⟩

end ExprFold
