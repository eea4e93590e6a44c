import ExprFold.Proofs.Names

/-!
# What evaluation asks of the bindings

A residual expression whose nodes are in order asks for the values of its variables one by one, in
the order of their names, and the first that has none ends the evaluation (`Asks`,
`Residual.WellFormed.asks`). So its names are just what the bindings must provide, up to divisors
that turn out to be zero: `fold_demand`. On a tree of any shape no other names matter, and values
for more of them change no answer that is not about a missing one (`Residual.evaluateAt_lags`):
`evaluateBound_names`.
-/

namespace ExprFold

/-! ## Names without a value -/

/-- The first of the names that has no value. -/
def Bindings.firstUnbound (bindings : Bindings) (names : List String) : Option String :=
  names.find? fun name => (bindings name).isNone

section
variable {bindings : Bindings}

theorem Bindings.firstUnbound_append (names names' : List String) :
    bindings.firstUnbound (names ++ names') =
      (bindings.firstUnbound names).or (bindings.firstUnbound names') :=
  List.find?_append

theorem Bindings.firstUnbound_eq_none_iff {names : List String} :
    bindings.firstUnbound names = .none ↔ ∀ name ∈ names, (bindings name).isSome = true := by
  simp [firstUnbound, List.find?_eq_none, Option.isSome_iff_ne_none]

theorem Bindings.firstUnbound_variableNames (u : Residual) :
    bindings.firstUnbound u.variableNames = bindings.firstUnbound u.occurrences :=
  Residual.find?_variableNames _

end

/-! ## Trees whose nodes are in order -/

namespace Residual

/-- Every node is a folded decimal leaf, a variable leaf, or an operator over two operands. The
values and names that the nodes hold may be any. -/
inductive WellFormed : Residual → Prop
  | folded {x : Float} {s : String} : WellFormed (.leaf ⟨.decimal, x, s, true⟩)
  | var {x : Float} {s : String} : WellFormed (.leaf ⟨.var, x, s, false⟩)
  | operator {o : Op} {x : Float} {s : String} {l r : Residual} : WellFormed l → WellFormed r →
      WellFormed (.branch ⟨.op o, x, s, false⟩ l r)

end Residual

theorem Folds.wellFormed {limit : Limit} {d : Nat} {t : Expr} {u : Residual}
    (h : Folds limit d t u) : u.WellFormed := by
  induction h with
  | number _ _ _ | folded _ _ _ _ _ _ => exact .folded
  | var _ => exact .var
  | kept _ _ _ _ ihl ihr => exact .operator ihl ihr

/-- The faults of a walk over nodes that are in order and no deeper than given. -/
inductive WalkFault (limit : Limit) (depth : Nat) : Error → Prop
  | divisionByZero : WalkFault limit depth .divisionByZero
  | depthLimit {n : Nat} : limit = some n → n < depth → WalkFault limit depth (.depthLimit n)

section
variable {limit : Limit} {d k : Nat}

theorem WalkFault.of_check {e : Error} (h : limit.check d = .error e) (hd : d ≤ k) :
    WalkFault limit k e := by
  cases limit with
  | none => cases h
  | some n =>
    rw [Limit.check_some] at h
    split at h
    · cases h; exact .depthLimit rfl (by omega)
    · cases h

theorem WalkFault.of_apply {o : Op} {x y : Float} {e : Error} (h : o.apply x y = .error e) :
    WalkFault limit k e := by
  rw [Op.eq_divisionByZero_of_apply h]
  exact .divisionByZero

/-- Without a limit only a divisor can be at fault. -/
theorem WalkFault.eq_divisionByZero {e : Error} (h : WalkFault none k e) :
    e = .divisionByZero := by
  cases h with
  | divisionByZero => rfl
  | depthLimit hn _ => cases hn

end

/-! ## One name after the other -/

/-- What a walk that asks for the names in turn can come to: a value once all of them have one, the
fault of the first that has none, or a fault of its own. -/
inductive Asks (limit : Limit) (depth : Nat) (bindings : Bindings) (names : List String) :
    Except Error Float → Prop
  | value {x : Float} : bindings.firstUnbound names = none →
      Asks limit depth bindings names (.ok x)
  | unbound {name : String} : bindings.firstUnbound names = some name →
      Asks limit depth bindings names (.error (.invalidVariable name))
  | fault {e : Error} : WalkFault limit depth e → Asks limit depth bindings names (.error e)

namespace Asks

variable {limit : Limit} {d k : Nat} {bindings : Bindings} {names names' : List String}
  {x y : Except Error Float}

/-- A walk behind a check. -/
theorem checked (hd : d ≤ k) (h : Asks limit k bindings names x) :
    Asks limit k bindings names (do limit.check d; x) := by
  cases hc : limit.check d with
  | ok _ => exact h
  | error e => exact .fault (.of_check hc hd)

/-- The names on the left of an operator come before those on its right. -/
theorem operator (o : Op) (hx : Asks limit k bindings names x)
    (hy : Asks limit k bindings names' y) :
    Asks limit k bindings (names ++ names') (do let a ← x; let b ← y; o.apply a b) := by
  cases hx with
  | unbound hn => exact .unbound (by rw [Bindings.firstUnbound_append, hn]; rfl)
  | fault hf => exact .fault hf
  | @value a hn =>
    cases hy with
    | unbound hm => exact .unbound (by rw [Bindings.firstUnbound_append, hn, hm]; rfl)
    | fault hf => exact .fault hf
    | @value b hm =>
      rw [ok_bind, ok_bind]
      cases hv : o.apply a b with
      | ok v => exact .value (by rw [Bindings.firstUnbound_append, hn, hm]; rfl)
      | error e => exact .fault (.of_apply hv)

/-- A fault for a name is that of a name without a value. -/
theorem failsOnly (h : Asks limit k bindings names x) :
    FailsOnly (fun e => WalkFault limit k e ∨
      ∃ name ∈ names, bindings name = none ∧ e = .invalidVariable name) x := by
  cases h with
  | value _ => exact .ok _
  | unbound hn =>
    have hnone := List.find?_some hn
    exact .fault (.inr ⟨_, List.mem_of_find?_eq_some hn, Option.isNone_iff_eq_none.1 hnone, rfl⟩)
  | fault hf => exact .fault (.inl hf)

end Asks

namespace Residual

variable {limit : Limit} {d k : Nat} {bindings : Bindings} {u : Residual}

/-- Evaluation asks for the names of a tree in their order. -/
theorem WellFormed.asks (h : u.WellFormed) (hk : d + u.depth ≤ k + 1) :
    Asks limit k bindings u.occurrences (u.evaluateAt limit bindings d) := by
  induction h generalizing d with
  | folded =>
    rw [Tree.depth_leaf] at hk
    rw [evaluateAt_folded]
    exact .checked (by omega) (.value rfl)
  | @var x s =>
    rw [Tree.depth_leaf] at hk
    rw [evaluateAt_var]
    refine .checked (by omega) ?_
    change Asks limit k bindings [s] (bindings.value s)
    cases hs : bindings s with
    | some v =>
      rw [Bindings.value_eq_ok_iff.2 hs]
      exact .value (by simp [Bindings.firstUnbound, hs])
    | none =>
      rw [Bindings.value, hs]
      exact .unbound (by simp [Bindings.firstUnbound, hs])
  | operator _ _ ihl ihr =>
    rw [Tree.depth_branch] at hk
    rw [evaluateAt_operator, occurrences_branch]
    exact .checked (by omega) (.operator _ (ihl (by omega)) (ihr (by omega)))

end Residual

/-- **The names that are left are what a binding must provide.** Evaluation of what folding leaves
gives a value only if all of them have one; if all have one, nothing but a zero divisor can be at
fault; and a fault that is not a zero divisor is that of the first of them that has no value. -/
theorem fold_demand (engine : Engine) (t : Expr) (u : Residual) (bindings : Bindings)
    (h : (engine.fold t).result = .ok u) :
    ((∃ x, u.evaluate none bindings = .ok x) →
      ∀ name ∈ u.variableNames, (bindings name).isSome = true) ∧
    ((∀ name ∈ u.variableNames, (bindings name).isSome = true) →
      (∃ x, u.evaluate none bindings = .ok x) ∨
        u.evaluate none bindings = .error .divisionByZero) ∧
    (∀ e, u.evaluate none bindings = .error e →
      e = .divisionByZero ∨
        ∃ name, e = .invalidVariable name ∧
          bindings.firstUnbound u.variableNames = some name) := by
  have hu := (Engine.result_fold_eq_ok_iff.1 h).wellFormed
  have hask : Asks none u.depth bindings u.occurrences (u.evaluate none bindings) :=
    hu.asks (by omega)
  simp only [← Bindings.firstUnbound_eq_none_iff, Bindings.firstUnbound_variableNames]
  generalize u.evaluate none bindings = x at hask ⊢
  cases hask with
  | @value v hn => exact ⟨fun _ => hn, fun _ => .inl ⟨v, rfl⟩, nofun⟩
  | @unbound name hn =>
    refine ⟨nofun, fun h => ?_, ?_⟩
    · rw [h] at hn
      cases hn
    · rintro _ ⟨⟩
      exact .inr ⟨name, rfl, hn⟩
  | fault hf =>
    obtain rfl := hf.eq_divisionByZero
    refine ⟨nofun, fun _ => .inr rfl, ?_⟩
    rintro _ ⟨⟩
    exact .inl rfl

/-- The name that occurs twice is asked for where it stands first, before the divisor on its right
is looked at. -/
theorem fold_demand_first :
    let t : Expr := .binary (.op .add) (.binary (.op .div) (.var "y") (.var "x")) (.var "y")
    ∃ u, (Engine.fold ⟨some 3⟩ t).result = .ok u ∧ u.variableNames = ["y", "x"] ∧
      Bindings.firstUnbound (.ofList [("x", 0)]) u.variableNames = some "y" ∧
      u.evaluate none (.ofList [("x", 0)]) = .error (.invalidVariable "y") ∧
      ((∃ v, u.evaluate none (.ofList [("x", 0), ("y", 1)]) = .ok v) ∨
        u.evaluate none (.ofList [("x", 0), ("y", 1)]) = .error .divisionByZero) := by
  intro t
  have hu : (Engine.fold ⟨some 3⟩ t).result = .ok (.operator (.op .add)
      (.operator (.op .div) (.var "y") (.var "x")) (.var "y")) := rfl
  refine ⟨_, hu, by decide, by decide, rfl, ?_⟩
  exact (fold_demand ⟨some 3⟩ t _ (.ofList [("x", 0), ("y", 1)]) hu).2.1 (by decide)

/-! ## Two bindings for one tree -/

/-- The first outcome is the second one, or it is the fault of a variable whose value the first
lacks. -/
def Lags {α : Type} (lacks : String → Prop) (x y : Except Error α) : Prop :=
  x = y ∨ ∃ name, lacks name ∧ x = .error (.invalidVariable name)

namespace Lags

variable {α β : Type} {lacks : String → Prop} {x y : Except Error α}

theorem refl (x : Except Error α) : Lags lacks x x := .inl rfl

theorem bind {f g : α → Except Error β} (h : Lags lacks x y) (hf : ∀ a, Lags lacks (f a) (g a)) :
    Lags lacks (x >>= f) (y >>= g) := by
  rcases h with rfl | ⟨name, hn, rfl⟩
  · cases x with
    | ok a => exact hf a
    | error e => exact .inl rfl
  · exact .inr ⟨name, hn, rfl⟩

end Lags

/-- One of the names, without a value in the first bindings and with one in the second. -/
def Lacks (names : List String) (first second : Bindings) (name : String) : Prop :=
  name ∈ names ∧ first name = none ∧ (second name).isSome = true

section
variable {first second : Bindings} {names : List String}

theorem Bindings.value_lags {name : String} (hmem : name ∈ names)
    (h : first name = second name ∨ first name = .none) :
    Lags (Lacks names first second) (first.value name) (second.value name) := by
  cases hn : second name with
  | none =>
    have hfirst : first name = .none := by simpa [hn] using h
    exact .inl (by rw [value, value, hfirst, hn])
  | some v =>
    rcases h with h | h
    · exact .inl (by rw [value, value, h])
    · exact .inr ⟨name, ⟨hmem, h, by rw [hn]; rfl⟩, by rw [value, h]⟩

/-- A tree of any shape, under bindings that are the same wherever the first have a value. -/
theorem Residual.evaluateAt_lags {limit : Limit} {d : Nat} {u : Residual}
    (hu : ∀ name ∈ u.occurrences, name ∈ names)
    (h : ∀ name ∈ names, first name = second name ∨ first name = none) :
    Lags (Lacks names first second) (u.evaluateAt limit first d) (u.evaluateAt limit second d) := by
  induction u using Residual.shapeRec generalizing d with
  | folded k x s l r =>
    rw [evaluateAt_folded, evaluateAt_folded]
    exact .refl _
  | number k read x s l r hk =>
    rw [evaluateAt_number hk, evaluateAt_number hk]
    exact .refl _
  | var x s l r =>
    have hs : s ∈ names := hu s (by simp [occurrences, Tree.labels_node])
    rw [evaluateAt_var, evaluateAt_var]
    exact .bind (.refl _) fun _ => .bind (.refl _) fun _ => Bindings.value_lags hs (h s hs)
  | noLeft o x s r =>
    rw [evaluateAt_noLeft, evaluateAt_noLeft]
    exact .refl _
  | noRight o x s l =>
    rw [evaluateAt_noRight, evaluateAt_noRight]
    exact .refl _
  | operator o x s l r ihl ihr =>
    rw [occurrences_branch] at hu
    have hl := ihl (d := d + 1) fun name hn => hu name (List.mem_append_left _ hn)
    have hr := ihr (d := d + 1) fun name hn => hu name (List.mem_append_right _ hn)
    rw [evaluateAt_operator, evaluateAt_operator]
    exact .bind (.refl _) fun _ => hl.bind fun _ => hr.bind fun _ => .refl _

theorem Engine.evaluateBound_lags (engine : Engine) (u : Residual)
    (h : ∀ name ∈ u.variableNames, first name = second name ∨ first name = none) :
    Lags (Lacks u.variableNames first second) (engine.evaluateBound first u)
      (engine.evaluateBound second u) :=
  Residual.evaluateAt_lags (fun _ => Residual.mem_variableNames.2) h

end

/-- **Evaluation depends on the listed names alone, and more values change no other answer.** Under
any limit and on a tree of any shape, bindings that answer alike for the names of the tree give the
same result. If the second bindings agree with the first where these have a value for one of the
names, then evaluation under the first fails for one of the names that they do not bind, or it comes
to just what it comes to under the second. -/
theorem evaluateBound_names (engine : Engine) (u : Residual) (first second : Bindings) :
    ((∀ name ∈ u.variableNames, first name = second name) →
      engine.evaluateBound first u = engine.evaluateBound second u) ∧
    ((∀ name ∈ u.variableNames, (first name).isSome = true → second name = first name) →
      (∃ name ∈ u.variableNames, first name = none ∧
        engine.evaluateBound first u = .error (.invalidVariable name)) ∨
      engine.evaluateBound first u = engine.evaluateBound second u) := by
  refine ⟨?_, ?_⟩
  · intro h
    rcases engine.evaluateBound_lags u fun name hn => .inl (h name hn) with
      he | ⟨name, ⟨hn, hnone, hsome⟩, -⟩
    · exact he
    · rw [← h name hn, hnone] at hsome
      cases hsome
  · intro h
    have hagree : ∀ name ∈ u.variableNames, first name = second name ∨ first name = none := by
      intro name hn
      cases hf : first name with
      | none => exact .inr rfl
      | some v => exact .inl (by rw [h name hn (by rw [hf]; rfl), hf])
    rcases engine.evaluateBound_lags u hagree with he | ⟨name, ⟨hn, hnone, -⟩, he⟩
    · exact .inr he
    · exact .inl ⟨name, hn, hnone, he⟩

/-- A tree from outside may have a variable below a folded node. Its name is listed and never asked
for: the fault of the node is there with and without a value for it. -/
theorem evaluateBound_names_folded :
    let u : Residual := .branch ⟨.decimal, 1, "", true⟩ (Residual.var "x") (Residual.var "y")
    let first : Bindings := .ofList [("y", 2)]
    let second : Bindings := .ofList [("x", 3), ("y", 2)]
    u.variableNames = ["x", "y"] ∧
    ((∃ name ∈ u.variableNames, first name = none ∧
        Engine.evaluateBound ⟨some 1⟩ first u = .error (.invalidVariable name)) ∨
      Engine.evaluateBound ⟨some 1⟩ first u = Engine.evaluateBound ⟨some 1⟩ second u) ∧
    Engine.evaluateBound ⟨some 1⟩ first u = Engine.evaluateBound ⟨some 1⟩ (.ofList [("y", 2)]) u := by
  intro u first second
  have hnames : u.variableNames = ["x", "y"] := by decide
  have h := evaluateBound_names ⟨some 1⟩ u first
  refine ⟨hnames, (h second).2 ?_, (h (.ofList [("y", 2)])).1 fun _ _ => rfl⟩
  rw [hnames]
  intro name hn hsome
  simp only [List.mem_cons, List.not_mem_nil, or_false] at hn
  rcases hn with rfl | rfl
  · cases hsome
  · rfl

end ExprFold
