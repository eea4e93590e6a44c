import ExprFold.Proofs.Documents
import ExprFold.Session

/-!
# Runs of a session

What one command does to a session, and from it what a run of commands does. A command that fails
takes nothing off a stack but the one operand of a join that lacks the other
(`Session.leaves_of_isFailure`), so however many fail one after the other, at most an expression and
a residual get lost (`Session.remains_after`). The limit and the values of the variables are those
that were last set (`Session.engine_after`, `Session.bindings_after`), whatever else happens in
between, and these are what a residual is evaluated under. Main statement:
`Session.run_evaluateBound`.
-/

namespace ExprFold

/-! ## The values of variables -/

/-- In a list with different names every entry is found. -/
theorem lookup_eq_some_iff_mem {entries : List (String × Float)} {name : String} {x : Float}
    (hnodup : (entries.map (·.1)).Nodup) :
    entries.lookup name = some x ↔ (name, x) ∈ entries := by
  induction entries with
  | nil => simp
  | cons entry entries ih =>
    obtain ⟨name', y⟩ := entry
    rw [List.map_cons, List.nodup_cons] at hnodup
    obtain ⟨hnew, hnodup⟩ := hnodup
    by_cases hname : name = name'
    · subst hname
      have hother : (name, x) ∉ entries := fun hx => hnew (List.mem_map.2 ⟨_, hx, rfl⟩)
      simp [hother, eq_comm]
    · have hne : (name == name') = false := by simpa using hname
      simp [List.lookup_cons, hne, hname, ih hnodup]

namespace Values

variable (values : Values) (name other : String) (x : Float)

theorem bindings_eq_some_iff {values : Values} {name : String} {x : Float} :
    values.bindings name = some x ↔ (name, x) ∈ values.entries :=
  lookup_eq_some_iff_mem values.nodup

@[simp] theorem bindings_unset :
    (values.unset name).bindings other = if name = other then none else values.bindings other := by
  ext x
  rw [bindings_eq_some_iff]
  by_cases hname : name = other
  · simp [unset, hname]
  · simp [unset, hname, Ne.symm hname, bindings_eq_some_iff]

@[simp] theorem bindings_set :
    (values.set name x).bindings other =
      if name = other then some x else values.bindings other := by
  by_cases hname : name = other
  · simp [bindings, Bindings.ofList, set, hname]
  · ext y
    simp [bindings_eq_some_iff, set, unset, hname, Ne.symm hname]

/-- The size is the number of names that have a value. -/
theorem ncard_bound : {name | (values.bindings name).isSome}.ncard = values.size := by
  have hnames : {name | (values.bindings name).isSome} =
      ((values.entries.map (·.1)).toFinset : Set String) := by
    ext name
    simp [Option.isSome_iff_exists, bindings_eq_some_iff]
  rw [hnames, Set.ncard_coe_finset, List.toFinset_card_of_nodup values.nodup, List.length_map, size]

end Values

namespace Session

/-! ## Failures -/

/-- The command was not carried out. -/
def Answer.IsFailure : Answer → Prop
  | .failed _ | .textFailed _ | .refused _ | .emptyStack => True
  | .limit _ | .expr _ | .residual _ | .size _ | .equal _ | .value _ | .names _ | .bound _ => False

/-- What a session is left as by a command that fails. -/
inductive Leaves (s : Session) : Command → Session → Prop
  | whole {c : Command} : Leaves s c s
  /-- The right operand of a join is taken before the left one is missed. -/
  | lostExpr {tag : Nat} {e : Expr} : s.exprs = [e] →
      Leaves s (.joinExprs tag) { s with exprs := [] }
  | lostResidual {tag : Nat} {t : Residual} : s.residuals = [t] →
      Leaves s (.joinResiduals tag) { s with residuals := [] }

section
variable {s : Session} {c : Command}

/-- Writing the top residual and reading it back puts the same one in its place. -/
theorem step_roundTrip :
    s.step .roundTrip = (match s.residuals with
      | t :: _ => .equal (t == t)
      | [] => .emptyStack, s) := by
  obtain ⟨engine, exprs, residuals, values⟩ := s
  cases residuals with
  | nil => rfl
  | cons t rest => simp [step, Document.parseResidual_writeResidual]

/-- A command that is no join and fails changes nothing. -/
theorem step_eq_of_isFailure (h : (s.step c).1.IsFailure) (hexprs : ∀ tag, c ≠ .joinExprs tag)
    (hresiduals : ∀ tag, c ≠ .joinResiduals tag) : (s.step c).2 = s := by
  revert h
  cases c with
  | joinExprs tag => exact absurd rfl (hexprs tag)
  | joinResiduals tag => exact absurd rfl (hresiduals tag)
  | setLimit _ | pushExpr _ | pushResidual _ | set _ _ | unset _ => exact False.elim
  | pushNode _ _ | parse _ | readExpr _ | readResidual _ | duplicate | dropExpr | dropResidual =>
    simp only [step]
    split
    · exact False.elim
    · exact fun _ => rfl
  | fold =>
    simp only [step]
    split
    · split
      · exact False.elim
      · exact fun _ => rfl
    · exact fun _ => rfl
  | compare | evaluateText _ | evaluate | listNames | evaluateBound _ _ =>
    simp only [step]
    split <;> exact fun _ => rfl
  | roundTrip =>
    rw [step_roundTrip]
    exact fun _ => rfl

theorem eq_nil_or_eq_singleton {α : Type} {stack : List α}
    (h : ∀ r l rest, stack = r :: l :: rest → False) : stack = [] ∨ ∃ a, stack = [a] := by
  match stack, h with
  | [], _ => exact .inl rfl
  | [a], _ => exact .inr ⟨a, rfl⟩
  | r :: l :: rest, h => exact (h r l rest rfl).elim

theorem leaves_joinExprs {tag : Nat} (h : (s.step (.joinExprs tag)).1.IsFailure) :
    Leaves s (.joinExprs tag) (s.step (.joinExprs tag)).2 := by
  revert h
  simp only [step]
  split
  · split
    · exact False.elim
    · rename_i hshort
      intro _
      rcases eq_nil_or_eq_singleton hshort with hnone | ⟨e, hone⟩
      · exact hnone ▸ .whole
      · exact .lostExpr hone
  · exact fun _ => .whole

theorem leaves_joinResiduals {tag : Nat} (h : (s.step (.joinResiduals tag)).1.IsFailure) :
    Leaves s (.joinResiduals tag) (s.step (.joinResiduals tag)).2 := by
  revert h
  simp only [step]
  split
  · split
    · exact False.elim
    · rename_i hshort
      intro _
      rcases eq_nil_or_eq_singleton hshort with hnone | ⟨t, hone⟩
      · exact hnone ▸ .whole
      · exact .lostResidual hone
  · exact fun _ => .whole

/-- **A command that fails** leaves the session as it is, but for the one operand of a join that
lacks the other. -/
theorem leaves_of_isFailure (h : (s.step c).1.IsFailure) : Leaves s c (s.step c).2 := by
  cases c with
  | joinExprs tag => exact leaves_joinExprs h
  | joinResiduals tag => exact leaves_joinResiduals h
  | _ =>
    rw [step_eq_of_isFailure h nofun nofun]
    exact .whole

end

/-! ## Runs -/

/-- The session behind the commands. -/
def after (s : Session) (cs : List Command) : Session := cs.foldl (fun s c => (s.step c).2) s

section
variable {s : Session} {c : Command} {cs ds : List Command}

@[simp] theorem after_nil : s.after [] = s := rfl

@[simp] theorem after_cons : s.after (c :: cs) = (s.step c).2.after cs := rfl

@[simp] theorem go_nil : run.go s [] = [] := rfl

@[simp] theorem go_cons : run.go s (c :: cs) = (s.step c).1 :: run.go (s.step c).2 cs := rfl

theorem go_append : run.go s (cs ++ ds) = run.go s cs ++ run.go (s.after cs) ds := by
  induction cs generalizing s with
  | nil => rfl
  | cons c cs ih => simp [ih]

/-- What is no join and fails has no part in the other answers: they are those of the run without
it. -/
theorem exists_run_append_of_isFailure (h : ((after {} cs).step c).1.IsFailure)
    (hexprs : ∀ tag, c ≠ .joinExprs tag) (hresiduals : ∀ tag, c ≠ .joinResiduals tag) :
    ∃ answers, run (cs ++ ds) = run cs ++ answers ∧
      run (cs ++ c :: ds) = run cs ++ ((after {} cs).step c).1 :: answers := by
  refine ⟨run.go (after {} cs) ds, go_append, ?_⟩
  rw [run, go_append, go_cons, step_eq_of_isFailure h hexprs hresiduals, run]

/-! ### Failures one after the other -/

/-- The stack is the same, or it has lost the only thing that was on it. -/
def OneLost {α : Type} (stack stack' : List α) : Prop :=
  stack' = stack ∨ stack.length = 1 ∧ stack' = []

theorem OneLost.refl {α : Type} (stack : List α) : OneLost stack stack := .inl rfl

theorem OneLost.trans {α : Type} {stack stack' stack'' : List α} (h : OneLost stack stack')
    (h' : OneLost stack' stack'') : OneLost stack stack'' := by
  rcases h with rfl | ⟨hone, rfl⟩
  · exact h'
  · rcases h' with rfl | ⟨-, rfl⟩
    · exact .inr ⟨hone, rfl⟩
    · exact .inr ⟨hone, rfl⟩

/-- What commands that all fail leave of a session. -/
structure Remains (s s' : Session) : Prop where
  engine : s'.engine = s.engine
  values : s'.values = s.values
  exprs : OneLost s.exprs s'.exprs
  residuals : OneLost s.residuals s'.residuals

theorem Remains.refl (s : Session) : Remains s s := ⟨rfl, rfl, .refl _, .refl _⟩

theorem Remains.trans {s₁ s₂ s₃ : Session} (h : Remains s₁ s₂) (h' : Remains s₂ s₃) :
    Remains s₁ s₃ :=
  ⟨h'.engine.trans h.engine, h'.values.trans h.values, h.exprs.trans h'.exprs,
    h.residuals.trans h'.residuals⟩

theorem Leaves.remains {s' : Session} (h : Leaves s c s') : Remains s s' := by
  cases h with
  | whole => exact .refl s
  | lostExpr he => exact ⟨rfl, rfl, .inr ⟨by rw [he]; rfl, rfl⟩, .refl _⟩
  | lostResidual hr => exact ⟨rfl, rfl, .refl _, .inr ⟨by rw [hr]; rfl, rfl⟩⟩

/-- Of commands that all fail, however many, at most one takes an expression off the stack, the only
one there is, and the same is true of residuals. -/
theorem remains_after (h : ∀ answer ∈ run.go s cs, answer.IsFailure) : Remains s (s.after cs) := by
  induction cs generalizing s with
  | nil => exact .refl s
  | cons c cs ih =>
    rw [go_cons, List.forall_mem_cons] at h
    exact (leaves_of_isFailure h.1).remains.trans (ih h.2)

/-- The second join finds the stack empty. -/
example : run [.pushExpr (.integer "1"), .joinExprs 3, .joinExprs 3, .evaluate] =
    [.expr (.integer "1"), .emptyStack, .emptyStack, .emptyStack] := rfl

/-! ### What was last set -/

/-- The limit that the command sets. -/
def Command.limit? : Command → Option Limit
  | .setLimit limit => some limit
  | _ => none

/-- The value that the command gives to the name, which is none where it takes it away. -/
def Command.assigned? (name : String) : Command → Option (Option Float)
  | .set other x => if other = name then some (some x) else none
  | .unset other => if other = name then some none else none
  | _ => none

/-- What the command makes of the values. -/
def Command.assign : Command → Values → Values
  | .set name x, values => values.set name x
  | .unset name, values => values.unset name
  | _, values => values

theorem bindings_assign (values : Values) (name : String) :
    (c.assign values).bindings name = (c.assigned? name).getD (values.bindings name) := by
  cases c with
  | set other x | unset other =>
    simp only [Command.assign, Command.assigned?, Values.bindings_set, Values.bindings_unset]
    split <;> rfl
  | _ => rfl

/-- The limit and the values change by what the command sets, whatever it does to the stacks. -/
theorem exists_step_eq : ∃ exprs residuals, (s.step c).2 =
    ⟨c.limit?.elim s.engine Engine.mk, exprs, residuals, c.assign s.values⟩ := by
  cases c with
  | setLimit _ | pushExpr _ | pushResidual _ | set _ _ | unset _ => exact ⟨_, _, rfl⟩
  | pushNode _ _ | parse _ | readExpr _ | readResidual _ | duplicate | dropExpr | dropResidual
  | compare | evaluateText _ | evaluate | listNames | evaluateBound _ _ =>
    simp only [step]
    split <;> exact ⟨_, _, rfl⟩
  | joinExprs _ | joinResiduals _ | fold =>
    simp only [step]
    split
    · split <;> exact ⟨_, _, rfl⟩
    · exact ⟨_, _, rfl⟩
  | roundTrip =>
    rw [step_roundTrip]
    exact ⟨_, _, rfl⟩

theorem engine_step : (s.step c).2.engine = c.limit?.elim s.engine Engine.mk := by
  obtain ⟨exprs, residuals, h⟩ := exists_step_eq (s := s) (c := c)
  rw [h]

theorem bindings_step (name : String) :
    (s.step c).2.values.bindings name = (c.assigned? name).getD (s.values.bindings name) := by
  obtain ⟨exprs, residuals, h⟩ := exists_step_eq (s := s) (c := c)
  rw [h, bindings_assign]

/-- The last command that sets something is the first one, if no other does. -/
theorem findSome?_reverse_cons {α : Type} (f : Command → Option α) :
    (c :: cs).reverse.findSome? f = (cs.reverse.findSome? f).or (f c) := by
  rw [List.reverse_cons, List.findSome?_append]
  cases hc : f c <;> simp [hc]

/-- The limit of a run is the one that was last set. -/
theorem engine_after :
    (s.after cs).engine = (cs.reverse.findSome? Command.limit?).elim s.engine Engine.mk := by
  induction cs generalizing s with
  | nil => rfl
  | cons c cs ih =>
    rw [after_cons, ih, engine_step, findSome?_reverse_cons]
    cases cs.reverse.findSome? Command.limit? <;> rfl

/-- The value of a name is the one that was last set, and none if it was taken away since. -/
theorem bindings_after (name : String) :
    (s.after cs).values.bindings name =
      (cs.reverse.findSome? (Command.assigned? name)).getD (s.values.bindings name) := by
  induction cs generalizing s with
  | nil => rfl
  | cons c cs ih =>
    rw [after_cons, ih, bindings_step, findSome?_reverse_cons]
    cases cs.reverse.findSome? (Command.assigned? name) <;> rfl

/-- **The answer to an evaluation without bindings of its own**, at any place in a run, is the value
of the top residual under the values that were last set, and under the limit that was last set where
one is asked for. -/
theorem run_evaluateBound {t : Residual} {rest : List Residual} (limited : Bool)
    (h : (after {} cs).residuals = t :: rest) :
    let limit : Limit := (cs.reverse.findSome? Command.limit?).getD none
    let values : Bindings := fun name =>
      (cs.reverse.findSome? (Command.assigned? name)).getD none
    run (cs ++ [.evaluateBound limited none]) = run cs ++
      [.ofValue (Engine.evaluateBound (if limited then ⟨limit⟩ else {}) values t)] := by
  intro limit values
  have hlimit : (after {} cs).engine = ⟨limit⟩ := by
    rw [engine_after]
    cases hlast : cs.reverse.findSome? Command.limit? <;> simp [limit, hlast]
  have hvalues : (after {} cs).values.bindings = values := by
    funext name
    exact bindings_after name
  have hstep : ((after {} cs).step (.evaluateBound limited none)).1 =
      .ofValue (Engine.evaluateBound (if limited then ⟨limit⟩ else {}) values t) := by
    simp only [step, h, hlimit, hvalues, Option.getD_none]
  rw [run, go_append, go_cons, go_nil, hstep, run]

end

end Session

end ExprFold
