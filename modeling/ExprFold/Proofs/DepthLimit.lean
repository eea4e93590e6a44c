import ExprFold.Proofs.Agreement
import ExprFold.Proofs.BoundEvaluation

/-!
# What a limit on the depth changes

Two runs of one operation under different limits go through the same steps until the tighter limit
refuses a depth, and then that run is over: `CutBy` says so of two outcomes, and it is closed under
everything that the walks and the parser are made of. For a tree that is worked through to the end
the refusal comes exactly when the tree is deeper than the limit (`Folds.depth_le`,
`Folds.of_depth_le` and their likes for residual expressions). Main statement: `depth_limit`.
-/

namespace ExprFold

/-! ## Outcomes that a fault cuts short -/

/-- The first outcome is the second one, or it is the fault. -/
def CutBy {ε α : Type} (e : ε) (x y : Except ε α) : Prop := x = y ∨ x = .error e

namespace CutBy

variable {ε ε' α β : Type} {e : ε} {x y : Except ε α}

theorem refl (x : Except ε α) : CutBy e x x := .inl rfl

theorem bind {f g : α → Except ε β} (h : CutBy e x y) (hf : ∀ a, CutBy e (f a) (g a)) :
    CutBy e (x >>= f) (y >>= g) := by
  rcases h with rfl | rfl
  · cases x with
    | ok a => exact hf a
    | error e' => exact .inl rfl
  · exact .inr rfl

theorem mapError (f : ε → ε') (h : CutBy e x y) : CutBy (f e) (x.mapError f) (y.mapError f) := by
  rcases h with rfl | rfl
  · exact .inl rfl
  · exact .inr rfl

theorem foldlM {f g : β → α → Except ε β} (h : ∀ b a, CutBy e (f b a) (g b a)) (as : List α)
    (b : β) : CutBy e (as.foldlM f b) (as.foldlM g b) := by
  induction as generalizing b with
  | nil => exact .refl _
  | cons a as ih =>
    rw [List.foldlM_cons, List.foldlM_cons]
    exact (h b a).bind ih

end CutBy

section
variable {n : Nat} {limit : Limit} (hn : limit.Looser (some n))
include hn

theorem Limit.check_cutBy (d : Nat) :
    CutBy (.depthLimit n) (Limit.check (some n) d) (limit.check d) := by
  cases hc : Limit.check (some n) d with
  | ok _ => exact .inl (hn d hc).symm
  | error e =>
    rw [Limit.check_some] at hc
    split at hc
    · cases hc; exact .inr rfl
    · cases hc

/-- A step behind a check. -/
theorem Limit.checked_cutBy {α : Type} (d : Nat) {x y : Except Error α}
    (h : CutBy (.depthLimit n) x y) :
    CutBy (.depthLimit n) (do Limit.check (some n) d; x) (do limit.check d; y) :=
  (Limit.check_cutBy hn d).bind fun _ => h

/-! ## The walks -/

theorem Expr.evaluateAt_cutBy (t : Expr) (d : Nat) :
    CutBy (.depthLimit n) (t.evaluateAt (some n) d) (t.evaluateAt limit d) := by
  induction t using Expr.shapeRec generalizing d with
  | number k read s l r hk =>
    rw [evaluateAt_number hk, evaluateAt_number hk]
    exact Limit.checked_cutBy hn d (.refl _)
  | var s l r =>
    rw [evaluateAt_var, evaluateAt_var]
    exact Limit.checked_cutBy hn d (.refl _)
  | noLeft o s r =>
    rw [evaluateAt_noLeft, evaluateAt_noLeft]
    exact Limit.checked_cutBy hn d (.refl _)
  | noRight o s l =>
    rw [evaluateAt_noRight, evaluateAt_noRight]
    exact Limit.checked_cutBy hn d (.refl _)
  | operator o s l r ihl ihr =>
    rw [evaluateAt_operator, evaluateAt_operator]
    exact Limit.checked_cutBy hn d ((ihl (d + 1)).bind fun _ => (ihr (d + 1)).bind fun _ => .refl _)

theorem Expr.result_foldAt_cutBy (t : Expr) (d : Nat) :
    CutBy (.depthLimit n) (t.foldAt (some n) d).result (t.foldAt limit d).result := by
  induction t using Expr.shapeRec generalizing d with
  | number k read s l r hk =>
    rw [result_foldAt_number hk, result_foldAt_number hk]
    exact Limit.checked_cutBy hn d (.refl _)
  | var s l r =>
    rw [result_foldAt_var, result_foldAt_var]
    exact Limit.checked_cutBy hn d (.refl _)
  | noLeft o s r =>
    rw [result_foldAt_noLeft, result_foldAt_noLeft]
    exact Limit.checked_cutBy hn d (.refl _)
  | noRight o s l =>
    rw [result_foldAt_noRight, result_foldAt_noRight]
    exact Limit.checked_cutBy hn d (.refl _)
  | operator o s l r ihl ihr =>
    rw [result_foldAt_operator, result_foldAt_operator]
    exact Limit.checked_cutBy hn d ((ihl (d + 1)).bind fun _ => (ihr (d + 1)).bind fun _ => .refl _)

theorem Residual.evaluateAt_cutBy (bindings : Bindings) (u : Residual) (d : Nat) :
    CutBy (.depthLimit n) (u.evaluateAt (some n) bindings d)
      (u.evaluateAt limit bindings d) := by
  induction u using Residual.shapeRec generalizing d with
  | folded k x s l r =>
    rw [evaluateAt_folded, evaluateAt_folded]
    exact Limit.checked_cutBy hn d (.refl _)
  | number k read x s l r hk =>
    rw [evaluateAt_number hk, evaluateAt_number hk]
    exact Limit.checked_cutBy hn d (.refl _)
  | var x s l r =>
    rw [evaluateAt_var, evaluateAt_var]
    exact Limit.checked_cutBy hn d (.refl _)
  | noLeft o x s r =>
    rw [evaluateAt_noLeft, evaluateAt_noLeft]
    exact Limit.checked_cutBy hn d (.refl _)
  | noRight o x s l =>
    rw [evaluateAt_noRight, evaluateAt_noRight]
    exact Limit.checked_cutBy hn d (.refl _)
  | operator o x s l r ihl ihr =>
    rw [evaluateAt_operator, evaluateAt_operator]
    exact Limit.checked_cutBy hn d ((ihl (d + 1)).bind fun _ => (ihr (d + 1)).bind fun _ => .refl _)

/-! ## The parser -/

namespace Expr.Parser

theorem combine_cutBy (o : Op) (l r : Operand) :
    CutBy (.depthLimit n) (combine (some n) o l r) (combine limit o l r) :=
  Limit.checked_cutBy hn _ (.refl _)

theorem negate_cutBy (u : Operand) :
    CutBy (.depthLimit n) (negate (some n) u) (negate limit u) := by
  unfold negate
  split
  · exact .refl _
  · exact .refl _
  · exact combine_cutBy hn _ _ _

theorem negateTimes_cutBy (m : Nat) (u : Operand) :
    CutBy (.depthLimit n) (negateTimes (some n) m u) (negateTimes limit m u) := by
  induction m generalizing u with
  | zero => exact .refl _
  | succ m ih => exact (negate_cutBy hn u).bind ih

theorem supply_cutBy (pending : Option Pending) (u : Operand) :
    CutBy (.depthLimit n) (supply (some n) pending u) (supply limit pending u) := by
  cases pending with
  | none => exact .refl _
  | some p => exact combine_cutBy hn _ _ _

theorem fill_cutBy (slot : Slot) (u : Operand) :
    CutBy (.depthLimit n) (slot.fill (some n) u) (slot.fill limit u) :=
  (negateTimes_cutBy hn _ _).bind fun _ => supply_cutBy hn _ _

theorem placeLeaf_cutBy (slot : Slot) (outer : List Slot) (k : Kind) (s : String) :
    CutBy (.depthLimit n) (placeLeaf (some n) slot outer k s) (placeLeaf limit slot outer k s) :=
  (fill_cutBy hn _ _).bind fun _ => .refl _

theorem step_cutBy (s : State) (t : Token) :
    CutBy (.depthLimit n) (step (some n) s t) (step limit s t) := by
  cases s with
  | awaiting slot outer =>
    cases t with
    | integer text | decimal text | name text => exact placeLeaf_cutBy hn _ _ _ _
    | leftParen => exact Limit.checked_cutBy hn _ (.refl _)
    | rightParen => exact .refl _
    | op o =>
      cases o with
      | add | mul | div => exact .refl _
      | sub => exact Limit.checked_cutBy hn _ (.refl _)
  | holding term chain outer =>
    cases t with
    | op o =>
      simp only [step]
      split
      · exact .refl _
      · exact (supply_cutBy hn _ _).bind fun _ => .refl _
    | rightParen =>
      refine (supply_cutBy hn _ _).bind fun _ => ?_
      cases outer with
      | nil => exact .refl _
      | cons slot outer => exact (fill_cutBy hn _ _).bind fun _ => .refl _
    | integer _ | decimal _ | name _ | leftParen =>
      refine (supply_cutBy hn _ _).bind fun _ => ?_
      cases outer <;> exact .refl _

theorem finish_cutBy (s : State) : CutBy (.depthLimit n) (finish (some n) s) (finish limit s) := by
  cases s with
  | awaiting _ _ => exact .refl _
  | holding term chain outer => exact (supply_cutBy hn _ _).bind fun _ => .refl _

theorem run_cutBy (ts : List Token) : CutBy (.depthLimit n) (run (some n) ts) (run limit ts) :=
  (CutBy.foldlM (step_cutBy hn) ts _).bind (finish_cutBy hn)

end Expr.Parser

theorem Expr.parse_cutBy (s : String) :
    CutBy [.depthLimit n] (parse (some n) s) (parse limit s) := by
  unfold parse
  cases tokenize s with
  | error es => exact .refl _
  | ok ts => exact (Parser.run_cutBy hn ts).mapError _

/-! ## The engine -/

theorem Engine.evaluate_cutBy (t : Expr) :
    CutBy (.depthLimit n) (Engine.evaluate ⟨some n⟩ t) (Engine.evaluate ⟨limit⟩ t) :=
  Expr.evaluateAt_cutBy hn t 1

theorem Engine.result_fold_cutBy (t : Expr) :
    CutBy (.depthLimit n) (Engine.fold ⟨some n⟩ t).result (Engine.fold ⟨limit⟩ t).result := by
  simp only [Engine.fold, Expr.result_fold]
  exact Expr.result_foldAt_cutBy hn t 1

theorem Engine.evaluateBound_cutBy (bindings : Bindings) (u : Residual) :
    CutBy (.depthLimit n) (Engine.evaluateBound ⟨some n⟩ bindings u)
      (Engine.evaluateBound ⟨limit⟩ bindings u) :=
  Residual.evaluateAt_cutBy hn bindings u 1

theorem Engine.result_evaluateText_cutBy (s : String) :
    CutBy [.depthLimit n] (Engine.evaluateText ⟨some n⟩ s).result
      (Engine.evaluateText ⟨limit⟩ s).result := by
  rw [Engine.result_evaluateText, Engine.result_evaluateText]
  split
  · exact .refl _
  · exact (Expr.parse_cutBy hn s).bind fun t => (Engine.evaluate_cutBy hn t).mapError _

end

/-! ## The depth that a limit allows -/

section
variable {n d : Nat}

theorem Limit.check_some_eq_ok_iff : Limit.check (some n) d = .ok () ↔ d ≤ n := by
  simp [Limit.check_eq_ok_iff]

theorem Folds.depth_le {t : Expr} {u : Residual} (h : Folds (some n) d t u) :
    d + t.depth ≤ n + 1 := by
  induction h with
  | number hd _ _ | var hd =>
    have := Limit.check_some_eq_ok_iff.1 hd
    rw [Tree.depth_leaf]
    omega
  | folded _ _ _ _ ihl ihr | kept _ _ _ _ ihl ihr =>
    rw [Tree.depth_branch]
    omega

theorem Folds.of_depth_le {t : Expr} {u : Residual} (h : Folds none d t u)
    (ht : d + t.depth ≤ n + 1) : Folds (some n) d t u := by
  induction h with
  | number _ hk hx =>
    rw [Tree.depth_leaf] at ht
    exact .number (Limit.check_some_eq_ok_iff.2 (by omega)) hk hx
  | var _ =>
    rw [Tree.depth_leaf] at ht
    exact .var (Limit.check_some_eq_ok_iff.2 (by omega))
  | folded _ _ _ hv ihl ihr =>
    rw [Tree.depth_branch] at ht
    exact .folded (Limit.check_some_eq_ok_iff.2 (by omega)) (ihl (by omega)) (ihr (by omega)) hv
  | kept _ _ _ hw ihl ihr =>
    rw [Tree.depth_branch] at ht
    exact .kept (Limit.check_some_eq_ok_iff.2 (by omega)) (ihl (by omega)) (ihr (by omega)) hw

theorem Residual.Evaluates.depth_le {bindings : Bindings} {u : Residual} {v : Float}
    (h : Evaluates (some n) bindings d u v) : d + u.depth ≤ n + 1 := by
  induction h with
  | folded hd | var hd _ =>
    have := Limit.check_some_eq_ok_iff.1 hd
    rw [Tree.depth_leaf]
    omega
  | operator _ _ _ _ ihl ihr =>
    rw [Tree.depth_branch]
    omega

theorem Residual.Evaluates.of_depth_le {bindings : Bindings} {u : Residual} {v : Float}
    (h : Evaluates none bindings d u v) (hu : d + u.depth ≤ n + 1) :
    Evaluates (some n) bindings d u v := by
  induction h with
  | folded _ =>
    rw [Tree.depth_leaf] at hu
    exact .folded (Limit.check_some_eq_ok_iff.2 (by omega))
  | var _ hv =>
    rw [Tree.depth_leaf] at hu
    exact .var (Limit.check_some_eq_ok_iff.2 (by omega)) hv
  | operator _ _ _ hv ihl ihr =>
    rw [Tree.depth_branch] at hu
    exact .operator (Limit.check_some_eq_ok_iff.2 (by omega)) (ihl (by omega)) (ihr (by omega)) hv

end

/-! ## What a limit does to an operation -/

section
variable {ε α : Type} {cut : Nat → ε} {run : Limit → Except ε α}

/-- A limit changes nothing, or it cuts the operation short with its own fault. Where it does not,
no looser limit changes anything either. -/
def OnlyCuts (cut : Nat → ε) (run : Limit → Except ε α) : Prop :=
  ∀ n, (run (some n) = run none ∨ run (some n) = .error (cut n)) ∧
    (run (some n) ≠ .error (cut n) →
      run none = run (some n) ∧ ∀ m, n ≤ m → run (some m) = run (some n))

/-- Where the operation succeeds without a limit, it succeeds under just those that allow the
depth. -/
def CutsBelow (depth : Nat) (run : Limit → Except ε α) : Prop :=
  ∀ v, run none = .ok v → ∀ n, (∃ w, run (some n) = .ok w) ↔ depth ≤ n

theorem OnlyCuts.of_cutBy (h : ∀ {n : Nat} {limit : Limit}, limit.Looser (some n) →
    CutBy (cut n) (run (some n)) (run limit)) : OnlyCuts cut run := by
  intro n
  have hnone := h (Limit.none_looser (some n))
  refine ⟨hnone, ?_⟩
  intro hne
  refine ⟨(hnone.resolve_right hne).symm, ?_⟩
  intro m hm
  exact ((h (Limit.some_looser hm)).resolve_right hne).symm

/-- Where success goes by rules that look at the limit only as a bound on the depth. -/
theorem CutsBelow.of_rules {depth : Nat} {rules : Limit → α → Prop}
    (hrules : ∀ limit v, run limit = .ok v ↔ rules limit v)
    (hle : ∀ n v, rules (some n) v → depth ≤ n)
    (hof : ∀ n v, rules none v → depth ≤ n → rules (some n) v) : CutsBelow depth run := by
  intro v hv n
  have hv := (hrules none v).1 hv
  constructor
  · rintro ⟨w, hw⟩
    exact hle n w ((hrules (some n) w).1 hw)
  · intro hn
    exact ⟨v, (hrules (some n) v).2 (hof n v hv hn)⟩

end

theorem Engine.fold_cutsBelow (t : Expr) :
    CutsBelow t.depth fun limit => (Engine.fold ⟨limit⟩ t).result := by
  refine .of_rules (fun limit u => Engine.result_fold_eq_ok_iff) ?_ ?_
  · intro n u hu
    have := hu.depth_le
    omega
  · intro n u hu hn
    exact hu.of_depth_le (by omega)

/-- Evaluation succeeds where folding leaves a value, so the limit comes in at the same depth. -/
theorem Engine.evaluate_cutsBelow (t : Expr) :
    CutsBelow t.depth fun limit => Engine.evaluate ⟨limit⟩ t := by
  have hrules (limit : Limit) (v : Float) :
      Engine.evaluate ⟨limit⟩ t = .ok v ↔ Folds limit 1 t (.folded v) := by
    rw [(Engine.evaluate_agree ⟨limit⟩ t).eq_ok_iff, Engine.result_fold_eq_ok_iff]
  refine .of_rules hrules ?_ ?_
  · intro n v hv
    have := hv.depth_le
    omega
  · intro n v hv hn
    exact hv.of_depth_le (by omega)

theorem Engine.evaluateBound_cutsBelow (bindings : Bindings) (u : Residual) :
    CutsBelow u.depth fun limit => Engine.evaluateBound ⟨limit⟩ bindings u := by
  refine .of_rules (fun limit v => Residual.evaluateAt_eq_ok_iff) ?_ ?_
  · intro n v hv
    have := hv.depth_le
    omega
  · intro n v hv hn
    exact hv.of_depth_le (by omega)

/-- **A limit on the depth only ever adds its own fault.** Evaluating a text or an expression,
folding and evaluating under bindings come to the same under a limit as without one or fail with
just the fault of the limit, and what is not that fault stays the same under every looser limit. On
a tree that is worked through without a limit the fault comes just under the limits that are smaller
than its depth. -/
theorem depth_limit :
    (∀ s, OnlyCuts (fun n => [.depthLimit n])
      fun limit => (Engine.evaluateText ⟨limit⟩ s).result) ∧
    (∀ t, OnlyCuts .depthLimit (fun limit => Engine.evaluate ⟨limit⟩ t) ∧
      CutsBelow t.depth fun limit => Engine.evaluate ⟨limit⟩ t) ∧
    (∀ t, OnlyCuts .depthLimit (fun limit => (Engine.fold ⟨limit⟩ t).result) ∧
      CutsBelow t.depth fun limit => (Engine.fold ⟨limit⟩ t).result) ∧
    (∀ bindings u, OnlyCuts .depthLimit (fun limit => Engine.evaluateBound ⟨limit⟩ bindings u) ∧
      CutsBelow u.depth fun limit => Engine.evaluateBound ⟨limit⟩ bindings u) := by
  refine ⟨?_, ?_, ?_, ?_⟩
  · intro s
    exact .of_cutBy fun hn => Engine.result_evaluateText_cutBy hn s
  · intro t
    exact ⟨.of_cutBy fun hn => Engine.evaluate_cutBy hn t, Engine.evaluate_cutsBelow t⟩
  · intro t
    exact ⟨.of_cutBy fun hn => Engine.result_fold_cutBy hn t, Engine.fold_cutsBelow t⟩
  · intro bindings u
    exact ⟨.of_cutBy fun hn => Engine.evaluateBound_cutBy hn bindings u,
      Engine.evaluateBound_cutsBelow bindings u⟩

/-- A parenthesis counts for the parser and leaves no node. -/
example : Expr.parse (some 1) "((x))" = .error [.depthLimit 1] ∧
    Expr.parse none "((x))" = .ok (.leaf .var "x") := by
  constructor <;> cbv

end ExprFold
