import ExprFold.Proofs.Agreement
import ExprFold.Proofs.Names
import ExprFold.Proofs.Traversals
import Mathlib.Data.List.Forall2

/-!
# The log of folding

Folding reports every operator that it works out. Which lines there are can be read off the
expression alone: they are those of its operators without a variable below (`closedOperators`), in
the order in which a node comes behind its operands, each with the values that evaluation gives to
the operator and to its operands (`Reports`). `Fails` gives the failures of folding as a relation, as
`Folds` gives its success, with the place of the node at fault; up to it the lines are those of the
operators that come before (`workedOutBefore`). Main statement: `fold_log`.
-/

namespace ExprFold

/-- The line of an event in the log. -/
def Event.line (event : Event) : String × String := (event.level.name, event.message)

/-! ## Operators that can be worked out -/

namespace Expr

instance : DecidablePred IsClosed := fun t =>
  inferInstanceAs (Decidable (∀ a ∈ t.labels, a.kind ≠ .var))

/-- The node is an operator, and no variable is below it. -/
def IsClosedOperator (t : Expr) : Prop := t.label.kind.isOperator = true ∧ t.IsClosed

instance : DecidablePred IsClosedOperator := fun t =>
  inferInstanceAs (Decidable (t.label.kind.isOperator = true ∧ t.IsClosed))

/-- The places of the operators without a variable below, an operator behind its operands. -/
def closedOperators (t : Expr) : List (Tree.Path × Expr) :=
  t.postorder.filter fun place => place.2.IsClosedOperator

theorem mem_closedOperators {t n : Expr} {p : Tree.Path} :
    (p, n) ∈ t.closedOperators ↔ t.subtree? p = some n ∧ n.IsClosedOperator := by
  rw [closedOperators, List.mem_filter, Tree.mem_postorder, decide_eq_true_iff]

variable {o : Op} {s : String} {l r : Expr}

theorem closedOperators_leaf {k : Kind} (hk : k.isOperator = false) :
    (Expr.leaf k s).closedOperators = [] := by
  simp [closedOperators, Tree.postorder, IsClosedOperator, hk]

/-- The operators of both operands, and the node's own if they have no variable. -/
theorem closedOperators_operator :
    closedOperators (.node ⟨.op o, s⟩ (some l) (some r)) =
      l.closedOperators.map (Tree.fromAbove .left) ++
        r.closedOperators.map (Tree.fromAbove .right) ++
          if IsClosed (.node ⟨.op o, s⟩ (some l) (some r)) then
            [([], .node ⟨.op o, s⟩ (some l) (some r))]
          else [] := by
  simp only [closedOperators, Tree.postorder, List.filter_append, List.filter_map]
  congr 1
  simp [IsClosedOperator, Kind.isOperator, Kind.role, List.filter_cons]

end Expr

/-! ## Lines -/

/-- The value of the expression, under every limit that allows what the given one does. -/
def Expr.IsWorth (limit : Limit) (t : Expr) (x : Float) : Prop :=
  ∀ limit' : Limit, limit'.Looser limit → t.evaluate limit' = .ok x

/-- The line of an operator that has been worked out: its name between the values of its operands,
and its own value. -/
inductive Reports (limit : Limit) : Expr → String × String → Prop
  | operator {o : Op} {s : String} {l r : Expr} {x y v : Float} :
      l.IsWorth limit x → r.IsWorth limit y →
      Expr.IsWorth limit (.node ⟨.op o, s⟩ (some l) (some r)) v →
      Reports limit (.node ⟨.op o, s⟩ (some l) (some r))
        ("TRACE", "folded " ++ Event.numberFormat.write x ++ " " ++ o.name ++ " " ++
          Event.numberFormat.write y ++ " = " ++ Event.numberFormat.write v)

/-- The lines are those of the operators at the places, in their order. -/
def ReportsAll (limit : Limit) (places : List (Tree.Path × Expr)) (lines : List (String × String)) :
    Prop :=
  List.Forall₂ (Reports limit) (places.map Prod.snd) lines

namespace ReportsAll

variable {limit : Limit} {places places' : List (Tree.Path × Expr)}
  {lines lines' : List (String × String)}

theorem nil : ReportsAll limit [] [] := List.Forall₂.nil

theorem append (h : ReportsAll limit places lines) (h' : ReportsAll limit places' lines') :
    ReportsAll limit (places ++ places') (lines ++ lines') := by
  rw [ReportsAll, List.map_append]
  exact List.rel_append h h'

/-- The lines say nothing about how far up the tree goes on. -/
theorem fromAbove (h : ReportsAll limit places lines) (s : Tree.Side) :
    ReportsAll limit (places.map (Tree.fromAbove s)) lines := by
  rw [ReportsAll, List.map_map]
  exact h

theorem length_eq (h : ReportsAll limit places lines) : places.length = lines.length := by
  rw [← List.length_map Prod.snd, List.Forall₂.length_eq h]

end ReportsAll

/-! ## Events -/

/-- A step that reports nothing, before steps that report nothing. -/
theorem Traced.events_bind_eq_nil {ε α β : Type} {x : Traced ε α} {f : α → Traced ε β}
    (hx : x.events = []) (hf : ∀ a, x.result = .ok a → (f a).events = []) :
    (x >>= f).events = [] := by
  cases h : x.result with
  | error e => rw [events_bind_error _ h, hx]
  | ok a => rw [events_bind_ok _ h, hx, hf a h, List.nil_append]

namespace Expr

variable {limit : Limit} {d : Nat} {o : Op} {s : String} {l r : Expr} {l' r' : Residual} {e : Error}

theorem events_foldAt_of_check {t : Expr} (h : limit.check d = .error e) :
    (t.foldAt limit d).events = [] := by
  obtain ⟨⟨k, s⟩, l, r⟩ := t
  rw [foldAt.eq_def]
  exact Traced.events_bind_error _ ((Traced.result_lift _).trans h)

theorem result_foldAt_of_check {t : Expr} (h : limit.check d = .error e) :
    (t.foldAt limit d).result = .error e := by
  obtain ⟨⟨k, s⟩, l, r⟩ := t
  rw [foldAt.eq_def, Traced.result_bind, Traced.result_lift, h, error_bind]

/-- A leaf is folded without a line, whatever comes of it. -/
theorem events_foldAt_leaf {k : Kind} {l r : Option Expr} (hk : k.isOperator = false) :
    (foldAt limit d (.node ⟨k, s⟩ l r)).events = [] := by
  rw [foldAt.eq_def]
  refine Traced.events_bind_eq_nil rfl fun _ _ => ?_
  cases k with
  | integer | decimal =>
    exact Traced.events_bind_eq_nil rfl fun _ _ =>
      Traced.events_bind_eq_nil rfl fun _ _ => rfl
  | var => exact Traced.events_bind_eq_nil rfl fun _ _ => rfl
  | op o => cases hk

theorem events_foldAt_noLeft {r : Option Expr} :
    (foldAt limit d (.node ⟨.op o, s⟩ none r)).events = [] := by
  cases r <;> exact Traced.events_bind_eq_nil rfl fun _ _ => rfl

theorem events_foldAt_noRight : (foldAt limit d (.node ⟨.op o, s⟩ (some l) none)).events = [] :=
  Traced.events_bind_eq_nil rfl fun _ _ => rfl

theorem events_foldAt_of_operands (hd : limit.check d = .ok ()) :
    (foldAt limit d (.node ⟨.op o, s⟩ (some l) (some r))).events = (do
      let l ← foldAt limit (d + 1) l
      let r ← foldAt limit (d + 1) r
      foldOperator o l r : Traced Error Residual).events :=
  Traced.events_bind_ok _ ((Traced.result_lift _).trans hd)

/-- An operator whose left operand fails. -/
theorem events_foldAt_left (hd : limit.check d = .ok ())
    (hl : (l.foldAt limit (d + 1)).result = .error e) :
    (foldAt limit d (.node ⟨.op o, s⟩ (some l) (some r))).events =
      (l.foldAt limit (d + 1)).events := by
  rw [events_foldAt_of_operands hd, Traced.events_bind_error _ hl]

/-- An operator whose right operand fails. -/
theorem events_foldAt_right (hd : limit.check d = .ok ())
    (hl : (l.foldAt limit (d + 1)).result = .ok l')
    (hr : (r.foldAt limit (d + 1)).result = .error e) :
    (foldAt limit d (.node ⟨.op o, s⟩ (some l) (some r))).events =
      (l.foldAt limit (d + 1)).events ++ (r.foldAt limit (d + 1)).events := by
  rw [events_foldAt_of_operands hd, Traced.events_bind_ok _ hl, Traced.events_bind_error _ hr]

/-- An operator both of whose operands are settled. -/
theorem events_foldAt_operator (hd : limit.check d = .ok ())
    (hl : (l.foldAt limit (d + 1)).result = .ok l')
    (hr : (r.foldAt limit (d + 1)).result = .ok r') :
    (foldAt limit d (.node ⟨.op o, s⟩ (some l) (some r))).events =
      (l.foldAt limit (d + 1)).events ++ (r.foldAt limit (d + 1)).events ++
        (foldOperator o l' r').events := by
  rw [events_foldAt_of_operands hd, Traced.events_bind_ok _ hl, Traced.events_bind_ok _ hr,
    List.append_assoc]

theorem foldOperator_folded {x y : Float} :
    foldOperator o (.folded x) (.folded y) = (do
      let value ← o.apply x y
      Traced.emit (.folded o x y value)
      return .folded value) := rfl

theorem events_foldOperator_folded {x y v : Float} (hv : o.apply x y = .ok v) :
    (foldOperator o (.folded x) (.folded y)).events = [.folded o x y v] := by
  rw [foldOperator_folded, Traced.events_bind_ok _ ((Traced.result_lift _).trans hv)]
  rfl

theorem events_foldOperator_fault {x y : Float} (hv : o.apply x y = .error e) :
    (foldOperator o (.folded x) (.folded y)).events = [] := by
  rw [foldOperator_folded]
  exact Traced.events_bind_error _ ((Traced.result_lift _).trans hv)

theorem events_foldOperator_kept (h : l'.label.folded = false ∨ r'.label.folded = false) :
    (foldOperator o l' r').events = [] := by
  rcases h with h | h <;> simp [foldOperator, h]

end Expr

/-! ## The lines of a success -/

theorem Limit.Looser.check_eq_ok {limit limit' : Limit} {d d' : Nat} (h : limit'.Looser limit)
    (hc : limit.check d = .ok ()) (hd : d' ≤ d) : limit'.check d' = .ok () := by
  have hc' := Limit.check_eq_ok_iff.1 (h d hc)
  exact Limit.check_eq_ok_iff.2 fun n hn => Nat.le_trans hd (hc' n hn)

theorem Numeric.isOperator_eq {k : Kind} {read : String → Except Error Float}
    (h : Numeric k read) : k.isOperator = false := by
  cases h <;> rfl

namespace Folds

variable {limit limit' : Limit} {d d' : Nat} {t : Expr} {u : Residual}

/-- What folds under a limit folds under a looser one, and nearer to the root. -/
theorem loosen (h : Folds limit d t u) (hd : d' ≤ d) (hl : limit'.Looser limit) :
    Folds limit' d' t u := by
  induction h generalizing d' with
  | number hc hk hx => exact .number (hl.check_eq_ok hc hd) hk hx
  | var hc => exact .var (hl.check_eq_ok hc hd)
  | folded hc _ _ hv ihl ihr =>
    exact .folded (hl.check_eq_ok hc hd) (ihl (Nat.succ_le_succ hd)) (ihr (Nat.succ_le_succ hd)) hv
  | kept hc _ _ hw ihl ihr =>
    exact .kept (hl.check_eq_ok hc hd) (ihl (Nat.succ_le_succ hd)) (ihr (Nat.succ_le_succ hd)) hw

theorem isWorth {x : Float} (h : Folds limit d t (.folded x)) (hd : 0 < d) :
    t.IsWorth limit x := fun limit' hl =>
  (Expr.evaluateAt_agree limit' 1 t).eq_ok_iff.2 (h.loosen hd hl).result_foldAt

section
variable {o : Op} {s : String} {l r : Expr} {l' r' : Residual} {v : Float}

/-- An operator that is worked out is one of the operators without a variable. -/
theorem closedOperators_folded
    (h : Folds limit d (.node ⟨.op o, s⟩ (some l) (some r)) (.folded v)) :
    Expr.closedOperators (.node ⟨.op o, s⟩ (some l) (some r)) =
      l.closedOperators.map (Tree.fromAbove .left) ++
        r.closedOperators.map (Tree.fromAbove .right) ++
          [([], .node ⟨.op o, s⟩ (some l) (some r))] := by
  rw [Expr.closedOperators_operator, if_pos (h.folded_iff_isClosed.1 rfl)]

/-- An operator that waits is none of them. -/
theorem closedOperators_kept
    (h : Folds limit d (.node ⟨.op o, s⟩ (some l) (some r)) (.operator (.op o) l' r')) :
    Expr.closedOperators (.node ⟨.op o, s⟩ (some l) (some r)) =
      l.closedOperators.map (Tree.fromAbove .left) ++
        r.closedOperators.map (Tree.fromAbove .right) := by
  have hopen : ¬Expr.IsClosed (.node ⟨.op o, s⟩ (some l) (some r)) := fun hc =>
    nomatch h.folded_iff_isClosed.2 hc
  rw [Expr.closedOperators_operator, if_neg hopen, List.append_nil]

end

theorem reportsAll (h : Folds limit d t u) (hd : 0 < d) :
    ReportsAll limit t.closedOperators ((t.foldAt limit d).events.map Event.line) := by
  induction h with
  | number _ hk _ =>
    rw [Expr.closedOperators_leaf hk.isOperator_eq, Expr.events_foldAt_leaf hk.isOperator_eq]
    exact .nil
  | var _ =>
    rw [Expr.closedOperators_leaf rfl, Expr.events_foldAt_leaf rfl]
    exact .nil
  | @folded d o s l r x y v hc hl hr hv ihl ihr =>
    have hnode := Folds.folded (s := s) hc hl hr hv
    have hline : Reports limit (.node ⟨.op o, s⟩ (some l) (some r)) (Event.line (.folded o x y v)) :=
      .operator (hl.isWorth d.succ_pos) (hr.isWorth d.succ_pos) (hnode.isWorth hd)
    -- the node comes last, behind the lines of both operands
    rw [hnode.closedOperators_folded,
      Expr.events_foldAt_operator hc hl.result_foldAt hr.result_foldAt,
      Expr.events_foldOperator_folded hv, List.map_append, List.map_append]
    exact (((ihl d.succ_pos).fromAbove _).append ((ihr d.succ_pos).fromAbove _)).append
      (.cons hline .nil)
  | @kept d o s l r l' r' hc hl hr hw ihl ihr =>
    rw [(Folds.kept hc hl hr hw).closedOperators_kept,
      Expr.events_foldAt_operator hc hl.result_foldAt hr.result_foldAt,
      Expr.events_foldOperator_kept hw, List.append_nil, List.map_append]
    exact ((ihl d.succ_pos).fromAbove _).append ((ihr d.succ_pos).fromAbove _)

/-- Every operator that is worked out takes its two operands away. -/
theorem size_eq (h : Folds limit d t u) :
    t.size = u.size + 2 * t.closedOperators.length := by
  induction h with
  | number _ hk _ => rw [Expr.closedOperators_leaf hk.isOperator_eq]; rfl
  | var _ => rw [Expr.closedOperators_leaf rfl]; rfl
  | folded hc hl hr hv ihl ihr =>
    -- each operand has come down to one node, and so does the operator
    rw [(Folds.folded hc hl hr hv).closedOperators_folded, Tree.size_branch, ihl, ihr]
    simp only [Residual.folded, Tree.size_leaf, List.length_append, List.length_map,
      List.length_singleton]
    omega
  | kept hc hl hr hw ihl ihr =>
    rw [(Folds.kept hc hl hr hw).closedOperators_kept, Tree.size_branch, ihl, ihr,
      Residual.operator, Tree.size_branch, List.length_append, List.length_map, List.length_map]
    omega

end Folds

/-! ## The place of a failure -/

/-- Folding fails at the node itself, which is at depth `d`. -/
inductive FaultAt (limit : Limit) (d : Nat) : Expr → Error → Prop
  | depth {t : Expr} {e : Error} : limit.check d = .error e → FaultAt limit d t e
  | children {k : Kind} {s : String} {l r : Option Expr} {e : Error} :
      limit.check d = .ok () → k.isOperator = false → rejectChildren k l r = .error e →
      FaultAt limit d (.node ⟨k, s⟩ l r) e
  | literal {k : Kind} {read : String → Except Error Float} {s : String} {e : Error} :
      limit.check d = .ok () → Numeric k read → read s = .error e →
      FaultAt limit d (.leaf k s) e
  | noLeft {o : Op} {s : String} {r : Option Expr} :
      limit.check d = .ok () → FaultAt limit d (.node ⟨.op o, s⟩ none r) .missingLeft
  | noRight {o : Op} {s : String} {l : Expr} :
      limit.check d = .ok () → FaultAt limit d (.node ⟨.op o, s⟩ (some l) none) .missingRight
  /-- The operands are worked out, and the operator has no value for them. -/
  | operator {o : Op} {s : String} {l r : Expr} {x y : Float} {e : Error} :
      limit.check d = .ok () → Folds limit (d + 1) l (.folded x) →
      Folds limit (d + 1) r (.folded y) → o.apply x y = .error e →
      FaultAt limit d (.node ⟨.op o, s⟩ (some l) (some r)) e

/-- With its root at depth `d`, folding the expression fails at a place. -/
inductive Fails (limit : Limit) : Nat → Expr → Tree.Path → Error → Prop
  | here {d : Nat} {t : Expr} {e : Error} : FaultAt limit d t e → Fails limit d t [] e
  | left {d : Nat} {o : Op} {s : String} {l r : Expr} {p : Tree.Path} {e : Error} :
      limit.check d = .ok () → Fails limit (d + 1) l p e →
      Fails limit d (.node ⟨.op o, s⟩ (some l) (some r)) (.left :: p) e
  /-- The left operand is settled before the right one is looked at. -/
  | right {d : Nat} {o : Op} {s : String} {l r : Expr} {l' : Residual} {p : Tree.Path}
      {e : Error} :
      limit.check d = .ok () → Folds limit (d + 1) l l' → Fails limit (d + 1) r p e →
      Fails limit d (.node ⟨.op o, s⟩ (some l) (some r)) (.right :: p) e

section
variable {limit : Limit} {d : Nat} {t : Expr} {p : Tree.Path} {e : Error}

theorem FaultAt.result_foldAt (h : FaultAt limit d t e) :
    (t.foldAt limit d).result = .error e := by
  cases h with
  | depth hd => exact Expr.result_foldAt_of_check hd
  | @children k _ _ _ _ hd hk hc =>
    cases k with
    | integer => rw [Expr.result_foldAt_number .integer, hd, hc]; rfl
    | decimal => rw [Expr.result_foldAt_number .decimal, hd, hc]; rfl
    | var => rw [Expr.result_foldAt_var, hd, hc]; rfl
    | op o => cases hk
  | literal hd hk hx => rw [Expr.result_foldAt_number hk, hd]; simp [rejectChildren, hx]
  | noLeft hd => rw [Expr.result_foldAt_noLeft, hd]; rfl
  | noRight hd => rw [Expr.result_foldAt_noRight, hd]; rfl
  | operator hd hl hr hv =>
    rw [Expr.result_foldAt_operator, hd, hl.result_foldAt, hr.result_foldAt]
    simp [Expr.result_foldOperator_folded, hv]

theorem Fails.result_foldAt (h : Fails limit d t p e) :
    (t.foldAt limit d).result = .error e := by
  induction h with
  | here h => exact h.result_foldAt
  | left hd _ ih => rw [Expr.result_foldAt_operator, hd, ih]; rfl
  | right hd hl _ ih => rw [Expr.result_foldAt_operator, hd, hl.result_foldAt, ih]; rfl

theorem Fails.of_result_foldAt (h : (t.foldAt limit d).result = .error e) :
    ∃ p, Fails limit d t p e := by
  induction t using Expr.shapeRec generalizing d with
  | number k read s l r hk =>
    rw [Expr.result_foldAt_number hk] at h
    rcases bind_eq_error_iff.1 h with hd | ⟨⟨⟩, hd, h⟩
    · exact ⟨[], .here (.depth hd)⟩
    rcases bind_eq_error_iff.1 h with hc | ⟨⟨⟩, hc, h⟩
    · exact ⟨[], .here (.children hd hk.isOperator_eq hc)⟩
    rcases bind_eq_error_iff.1 h with hx | ⟨x, _, h⟩
    · obtain ⟨rfl, rfl⟩ := rejectChildren_eq_ok_iff.1 hc
      exact ⟨[], .here (.literal hd hk hx)⟩
    · cases h
  | var s l r =>
    rw [Expr.result_foldAt_var] at h
    rcases bind_eq_error_iff.1 h with hd | ⟨⟨⟩, hd, h⟩
    · exact ⟨[], .here (.depth hd)⟩
    rcases bind_eq_error_iff.1 h with hc | ⟨⟨⟩, _, h⟩
    · exact ⟨[], .here (.children hd rfl hc)⟩
    · cases h
  | noLeft o s r =>
    rw [Expr.result_foldAt_noLeft] at h
    rcases bind_eq_error_iff.1 h with hd | ⟨⟨⟩, hd, h⟩
    · exact ⟨[], .here (.depth hd)⟩
    · cases h
      exact ⟨[], .here (.noLeft hd)⟩
  | noRight o s l =>
    rw [Expr.result_foldAt_noRight] at h
    rcases bind_eq_error_iff.1 h with hd | ⟨⟨⟩, hd, h⟩
    · exact ⟨[], .here (.depth hd)⟩
    · cases h
      exact ⟨[], .here (.noRight hd)⟩
  | operator o s l r ihl ihr =>
    rw [Expr.result_foldAt_operator] at h
    rcases bind_eq_error_iff.1 h with hd | ⟨⟨⟩, hd, h⟩
    · exact ⟨[], .here (.depth hd)⟩
    rcases bind_eq_error_iff.1 h with hl | ⟨l', hl, h⟩
    · obtain ⟨p, hp⟩ := ihl hl
      exact ⟨.left :: p, .left hd hp⟩
    have hl := Folds.of_result_foldAt hl
    rcases bind_eq_error_iff.1 h with hr | ⟨r', hr, h⟩
    · obtain ⟨p, hp⟩ := ihr hr
      exact ⟨.right :: p, .right hd hl hp⟩
    have hr := Folds.of_result_foldAt hr
    rcases hl.folded_or_waits hr with ⟨x, y, rfl, rfl⟩ | hw
    · rw [Expr.result_foldOperator_folded] at h
      rcases bind_eq_error_iff.1 h with hv | ⟨v, _, h⟩
      · exact ⟨[], .here (.operator hd hl hr hv)⟩
      · cases h
    · rw [Expr.result_foldOperator_kept hw] at h
      cases h

/-- Folding fails exactly along the rules. -/
theorem Expr.result_foldAt_eq_error_iff :
    (t.foldAt limit d).result = .error e ↔ ∃ p, Fails limit d t p e :=
  ⟨Fails.of_result_foldAt, fun ⟨_, h⟩ => h.result_foldAt⟩

theorem Folds.not_fails {u : Residual} (h : Folds limit d t u) : ¬Fails limit d t p e :=
  fun h' => nomatch h.result_foldAt.symm.trans h'.result_foldAt

/-- A node is not at fault itself when one of its operands fails. -/
theorem FaultAt.not_fails {o : Op} {s : String} {l r : Expr} {e' : Error}
    (h : FaultAt limit d (.node ⟨.op o, s⟩ (some l) (some r)) e) (hd : limit.check d = .ok ()) :
    ¬Fails limit (d + 1) l p e' ∧ ¬Fails limit (d + 1) r p e' := by
  cases h with
  | depth he => rw [hd] at he; cases he
  | children _ hk _ => cases hk
  | operator _ hl hr _ => exact ⟨hl.not_fails, hr.not_fails⟩

/-- The node at the place of a failure is at fault itself. -/
theorem Fails.faultAt (h : Fails limit d t p e) :
    ∃ n, t.subtree? p = some n ∧ FaultAt limit (d + p.length) n e := by
  induction h with
  | here h => exact ⟨_, Tree.subtree?_nil _, h⟩
  | left _ _ ih | right _ _ _ ih =>
    obtain ⟨n, hn, h⟩ := ih
    exact ⟨n, hn, by rwa [List.length_cons, Nat.add_comm (List.length _), ← Nat.add_assoc]⟩

/-- A failure has one place. -/
theorem Fails.place_eq {p' : Tree.Path} {e' : Error} (h : Fails limit d t p e)
    (h' : Fails limit d t p' e') : p' = p := by
  induction h generalizing p' with
  | here h =>
    cases h' with
    | here _ => rfl
    | left hd hl => exact absurd hl (h.not_fails hd).1
    | right hd _ hr => exact absurd hr (h.not_fails hd).2
  | left hd hl ih =>
    cases h' with
    | here h => exact absurd hl (h.not_fails hd).1
    | left _ hl' => rw [ih hl']
    | right _ hl' _ => exact absurd hl hl'.not_fails
  | right hd hl hr ih =>
    cases h' with
    | here h => exact absurd hr (h.not_fails hd).2
    | left _ hl' => exact absurd hl' hl.not_fails
    | right _ _ hr' => rw [ih hr']

end

/-! ## The lines of a failure -/

namespace Expr

/-- The operators that are worked out before a node is at fault: those in the left subtrees above
it, where it lies on the right, and those below it if it fails for its own value. -/
def workedOutBefore (t : Expr) (p : Tree.Path) (e : Error) : List (Tree.Path × Expr) :=
  t.closedOperators.filter (fun place => Tree.LiesLeft place.1 p) ++
    if e = .divisionByZero then t.closedOperators.filter fun place => Tree.LiesBelow place.1 p
    else []

variable {o : Op} {s : String} {l r : Expr} {p : Tree.Path} {e : Error}

/-- Places other than the root are picked from both operands. -/
theorem filter_closedOperators (P : Tree.Path → Prop) [DecidablePred P] (hP : ¬P []) :
    (closedOperators (.node ⟨.op o, s⟩ (some l) (some r))).filter (fun place => P place.1) =
      (l.closedOperators.filter fun place => P (.left :: place.1)).map (Tree.fromAbove .left) ++
        (r.closedOperators.filter fun place => P (.right :: place.1)).map
          (Tree.fromAbove .right) := by
  have hown : ∀ t : Expr, (if t.IsClosed then [(([] : Tree.Path), t)] else []).filter
      (fun place => P place.1) = [] := by
    intro t
    split <;> simp [hP]
  rw [closedOperators_operator, List.filter_append, List.filter_append, hown, List.append_nil,
    List.filter_map, List.filter_map]
  rfl

/-- An operator that has no value for its operands comes behind all of theirs. -/
theorem workedOutBefore_divisionByZero :
    workedOutBefore (.node ⟨.op o, s⟩ (some l) (some r)) [] .divisionByZero =
      l.closedOperators.map (Tree.fromAbove .left) ++
        r.closedOperators.map (Tree.fromAbove .right) := by
  rw [workedOutBefore, filter_closedOperators (Tree.LiesLeft · []) Tree.not_root_liesLeft,
    filter_closedOperators (Tree.LiesBelow · []) Tree.not_root_liesBelow]
  simp [Tree.not_liesLeft_root, Tree.liesBelow_root_iff]

/-- Another fault of the root comes before everything. -/
theorem workedOutBefore_root {t : Expr} (he : e ≠ .divisionByZero) :
    t.workedOutBefore [] e = [] := by
  simp [workedOutBefore, he, Tree.not_liesLeft_root]

/-- A place in the left operand has the same operators before it as in the whole. -/
theorem workedOutBefore_left :
    workedOutBefore (.node ⟨.op o, s⟩ (some l) (some r)) (.left :: p) e =
      (l.workedOutBefore p e).map (Tree.fromAbove .left) := by
  rw [workedOutBefore, filter_closedOperators (Tree.LiesLeft · (.left :: p)) Tree.not_root_liesLeft,
    filter_closedOperators (Tree.LiesBelow · (.left :: p)) Tree.not_root_liesBelow,
    workedOutBefore, List.map_append]
  -- nothing in the right operand lies left of the place or below it
  simp only [Tree.liesLeft_cons_iff, Tree.not_liesLeft_across, Tree.liesBelow_cons_iff,
    Tree.not_liesBelow_across (nofun : Tree.Side.right ≠ .left)]
  split <;> simp

/-- A place in the right operand has the operators of the left one before it, too. -/
theorem workedOutBefore_right :
    workedOutBefore (.node ⟨.op o, s⟩ (some l) (some r)) (.right :: p) e =
      l.closedOperators.map (Tree.fromAbove .left) ++
        (r.workedOutBefore p e).map (Tree.fromAbove .right) := by
  rw [workedOutBefore,
    filter_closedOperators (Tree.LiesLeft · (.right :: p)) Tree.not_root_liesLeft,
    filter_closedOperators (Tree.LiesBelow · (.right :: p)) Tree.not_root_liesBelow,
    workedOutBefore, List.map_append]
  -- everything in the left operand lies left of the place
  simp only [Tree.liesLeft_cons_iff, Tree.liesLeft_across, Tree.liesBelow_cons_iff,
    Tree.not_liesBelow_across (nofun : Tree.Side.left ≠ .right)]
  split <;> simp

/-- The quotient of `(1 + 2) * x + 4 / (5 - 5)` comes behind the sum and the difference. -/
example :
    (workedOutBefore (.binary (.op .add)
      (.binary (.op .mul) (.binary (.op .add) (.integer "1") (.integer "2")) (.var "x"))
      (.binary (.op .div) (.integer "4") (.binary (.op .sub) (.integer "5") (.integer "5"))))
      [.right] .divisionByZero).map Prod.fst = [[.left, .left], [.right, .right]] := by decide

end Expr

/-! ### Only an operator's value is a zero divisor's fault -/

theorem Limit.check_ne_divisionByZero {limit : Limit} {d : Nat} :
    limit.check d ≠ .error .divisionByZero := by
  cases limit with
  | none => exact nofun
  | some n =>
    rw [Limit.check_some]
    split <;> exact nofun

theorem rejectChildren_ne_divisionByZero {α : Type} {k : Kind} {l r : Option α} :
    rejectChildren k l r ≠ .error .divisionByZero := by
  unfold rejectChildren
  split <;> exact nofun

theorem Numeric.read_ne_divisionByZero {k : Kind} {read : String → Except Error Float} {s : String}
    (h : Numeric k read) : read s ≠ .error .divisionByZero := by
  cases h with
  | integer =>
    unfold integerValue
    split <;> exact nofun
  | decimal =>
    unfold decimalValue
    split
    · split <;> exact nofun
    · exact nofun

section
variable {limit : Limit} {d : Nat} {t : Expr} {p : Tree.Path} {e : Error}

/-- A fault that is none of a divisor is met before anything is worked out. -/
theorem FaultAt.events_eq_nil (h : FaultAt limit d t e) (he : e ≠ .divisionByZero) :
    (t.foldAt limit d).events = [] := by
  cases h with
  | depth hd => exact Expr.events_foldAt_of_check hd
  | children _ hk _ => exact Expr.events_foldAt_leaf hk
  | literal _ hk _ => exact Expr.events_foldAt_leaf hk.isOperator_eq
  | noLeft _ => exact Expr.events_foldAt_noLeft
  | noRight _ => exact Expr.events_foldAt_noRight
  | operator _ _ _ hv => exact absurd (Op.eq_divisionByZero_of_apply hv) he

theorem FaultAt.reportsAll (h : FaultAt limit d t e) :
    ReportsAll limit (t.workedOutBefore [] e) ((t.foldAt limit d).events.map Event.line) := by
  by_cases he : e = .divisionByZero
  · subst he
    -- neither the depth nor the shape nor a literal has this fault, so it is the operator's
    cases h with
    | depth hd => exact absurd hd Limit.check_ne_divisionByZero
    | children _ _ hc => exact absurd hc rejectChildren_ne_divisionByZero
    | literal _ hk hx => exact absurd hx hk.read_ne_divisionByZero
    | operator hd hl hr hv =>
      rw [Expr.workedOutBefore_divisionByZero,
        Expr.events_foldAt_operator hd hl.result_foldAt hr.result_foldAt,
        Expr.events_foldOperator_fault hv, List.append_nil, List.map_append]
      exact ((hl.reportsAll d.succ_pos).fromAbove _).append
        ((hr.reportsAll d.succ_pos).fromAbove _)
  · rw [Expr.workedOutBefore_root he, h.events_eq_nil he]
    exact .nil

theorem Fails.reportsAll (h : Fails limit d t p e) :
    ReportsAll limit (t.workedOutBefore p e) ((t.foldAt limit d).events.map Event.line) := by
  induction h with
  | here h => exact h.reportsAll
  | left hd hl ih =>
    rw [Expr.workedOutBefore_left, Expr.events_foldAt_left hd hl.result_foldAt]
    exact ih.fromAbove _
  | @right d _ _ _ _ _ _ _ hd hl hr ih =>
    rw [Expr.workedOutBefore_right, Expr.events_foldAt_right hd hl.result_foldAt hr.result_foldAt,
      List.map_append]
    exact ((hl.reportsAll d.succ_pos).fromAbove _).append (ih.fromAbove _)

end

/-! ## The whole log -/

section
variable {engine : Engine} {t : Expr} {u : Residual} {e : Error}

theorem Engine.events_fold_ok (h : (t.foldAt engine.limit 1).result = .ok u) :
    (engine.fold t).events =
      (t.foldAt engine.limit 1).events ++ [.optimized t.size u.size u.isConstant] := by
  rw [fold, Expr.fold, Traced.events_bind_ok _ h]
  rfl

theorem Engine.events_fold_error (h : (t.foldAt engine.limit 1).result = .error e) :
    (engine.fold t).events = (t.foldAt engine.limit 1).events := by
  rw [fold, Expr.fold, Traced.events_bind_error _ h]

end

/-- **The log accounts for the work.** If folding succeeds, it reports each operator without a
variable below, once and behind its operands, with the values of its operands and its own; then
comes one line with the sizes before and after, and every operator reported has made the expression
smaller by two nodes. If folding fails, there is one node at fault, and the operators reported are
those in the left subtrees above it and, when it is a divisor's fault, those below it. -/
theorem fold_log (engine : Engine) (t : Expr) :
    (∀ u, (engine.fold t).result = .ok u →
      ∃ traces,
        (engine.fold t).events.map Event.line = traces ++
          [("DEBUG", "optimized expression: " ++ toString t.size ++ " nodes -> " ++
            toString u.size ++ " nodes (constant: " ++
              (if u.isConstant then "true" else "false") ++ ")")] ∧
        ReportsAll engine.limit t.closedOperators traces ∧
        t.size = u.size + 2 * traces.length) ∧
    ∀ e, (engine.fold t).result = .error e →
      (∃! p, Fails engine.limit 1 t p e) ∧
      ∀ p, Fails engine.limit 1 t p e →
        (∃ n, t.subtree? p = some n ∧ FaultAt engine.limit (1 + p.length) n e) ∧
        ReportsAll engine.limit (t.workedOutBefore p e)
          ((engine.fold t).events.map Event.line) := by
  have hresult : (engine.fold t).result = (t.foldAt engine.limit 1).result := Expr.result_fold
  rw [hresult]
  constructor
  · intro u hu
    have hfolds := Folds.of_result_foldAt hu
    have hlines := hfolds.reportsAll Nat.one_pos
    refine ⟨_, ?_, hlines, ?_⟩
    · rw [Engine.events_fold_ok hu, List.map_append]
      rfl
    · rw [← hlines.length_eq]
      exact hfolds.size_eq
  · intro e he
    rw [Engine.events_fold_error he]
    refine ⟨?_, fun p hp => ⟨hp.faultAt, hp.reportsAll⟩⟩
    obtain ⟨p, hp⟩ := Expr.result_foldAt_eq_error_iff.1 he
    exact ⟨p, hp, fun p' hp' => hp.place_eq hp'⟩

/-- A sum is worked out in the left operand of an operator that waits, and then, on its right, a
difference that turns out to be a zero divisor. -/
theorem fold_log_zero_divisor :
    let left : Expr := .binary (.op .mul) (.binary (.op .add) (.integer "1") (.integer "2"))
      (.var "x")
    let right : Expr := .binary (.op .div) (.integer "4")
      (.binary (.op .sub) (.integer "5") (.integer "5"))
    let t : Expr := .binary (.op .add) left right
    (∃ u, (Engine.fold {} left).result = .ok u ∧ ∃ traces,
      ReportsAll none left.closedOperators traces ∧ left.size = u.size + 2 * traces.length) ∧
    (Engine.fold ⟨some 4⟩ t).result = .error .divisionByZero ∧
      Fails (some 4) 1 t [.right] .divisionByZero ∧
      ReportsAll (some 4) (t.workedOutBefore [.right] .divisionByZero)
        ((Engine.fold ⟨some 4⟩ t).events.map Event.line) := by
  intro left right t
  obtain ⟨traces, -, hlines, hsize⟩ := (fold_log {} left).1 _ rfl
  have hfail : (Engine.fold ⟨some 4⟩ t).result = .error .divisionByZero := rfl
  have hright : Fails (some 4) 1 t [.right] .divisionByZero :=
    .right rfl (.of_result_foldAt rfl)
      (.here (.operator rfl (.of_result_foldAt rfl) (.of_result_foldAt rfl) rfl))
  exact ⟨⟨_, rfl, traces, hlines, hsize⟩, hfail, hright,
    ((fold_log ⟨some 4⟩ t).2 _ hfail).2 _ hright |>.2⟩

end ExprFold
