import ExprFold.Proofs.Folding
import ExprFold.Proofs.Grammar

/-!
# The names in a text, in its tree and in what is left of it

A variable node holds its name from the word of the text on to the tree that folding leaves: the
names in a phrase's tree are those among its tokens (`Expr.Derives.names_eq`), and folding keeps all
of them, in their order and with every repetition (`Folds.occurrences_eq`). Taking out repetitions
changes neither which names there are nor which of them is the first with a property
(`Residual.mem_variableNames`, `Residual.find?_variableNames`).
-/

namespace ExprFold

/-- A list without its repetitions has the same first element with a property. -/
theorem find?_eraseDups {α : Type} [BEq α] [LawfulBEq α] (p : α → Bool) :
    ∀ as : List α, as.eraseDups.find? p = as.find? p
  | [] => rfl
  | a :: as => by
    rw [List.eraseDups_cons, List.find?_cons, List.find?_cons]
    cases hp : p a with
    | true => rfl
    | false =>
      -- an element that is dropped equals `a`, which does not have the property
      have hdrop : (fun b => decide ((!b == a) = true ∧ p b = true)) = p := by
        funext b
        by_cases hb : b = a
        · simp [hb, hp]
        · simp [hb]
      rw [find?_eraseDups p, List.find?_filter, hdrop]
termination_by as => as.length
decreasing_by
  have := List.length_filter_le (fun b => !b == a) as
  simp only [List.length_cons]
  omega

/-! ## Expressions -/

namespace Expr

/-- The names of all variable nodes, a node before its left subtree and that before its right. -/
def names (t : Expr) : List String := (t.labels.filter (·.kind == .var)).map (·.literal)

/-- No node of the expression is a variable. -/
def IsClosed (t : Expr) : Prop := ∀ a ∈ t.labels, a.kind ≠ .var

theorem names_number {k : Kind} {s : String} (hk : k.role = .literal) :
    (Expr.leaf k s).names = [] := by
  cases k with
  | integer | decimal => rfl
  | var | op _ => cases hk

@[simp] theorem names_var (name : String) : (Expr.leaf .var name).names = [name] := rfl

@[simp] theorem names_operator (o : Op) (s : String) (l r : Expr) :
    names (.branch ⟨.op o, s⟩ l r) = l.names ++ r.names := by
  simp [names, Tree.labels_node]

theorem isClosed_iff {t : Expr} : t.IsClosed ↔ t.names = [] := by
  simp [IsClosed, names, List.filter_eq_nil_iff]

theorem Negates.names_eq {u t : Expr} (h : Negates u t) : t.names = u.names := by
  cases h with
  | sign hk _ | unsign hk => rw [names_number hk, names_number hk]
  | scale _ => rw [names_operator]; rfl

end Expr

/-- The name that a token is. -/
def Token.name? : Token → Option String
  | name s => some s
  | _ => none

theorem Token.mem_filterMap_name? {ts : List Token} {name : String} :
    name ∈ ts.filterMap name? ↔ Token.name name ∈ ts := by
  rw [List.mem_filterMap]
  constructor
  · rintro ⟨t, ht, hn⟩
    cases t with
    | name s => cases hn; exact ht
    | _ => cases hn
  · intro h
    exact ⟨_, h, rfl⟩

/-- The names in the tree of a phrase are those of its tokens, in the order of the text. -/
theorem Expr.Derives.names_eq {p : Phrase} {ts : List Token} {t : Expr} (h : Derives p ts t) :
    t.names = ts.filterMap Token.name? := by
  induction h with
  | ofTerm _ ih | ofUnary _ ih | ofPrimary _ ih => exact ih
  | sum _ _ _ ihl ihr | product _ _ _ ihl ihr => simp [ihl, ihr, List.filterMap_cons, Token.name?]
  | minus _ hn ih => rw [hn.names_eq, ih]; rfl
  | integer s => exact names_number rfl
  | decimal s => exact names_number rfl
  | name s => rfl
  | parens _ ih => simp [ih, List.filterMap_cons, Token.name?]

/-! ## Residual expressions -/

namespace Residual

variable {u : Residual} {name : String}

theorem mem_variableNames : name ∈ u.variableNames ↔ name ∈ u.occurrences := by
  rw [variableNames_eq, List.mem_eraseDups]

theorem find?_variableNames (p : String → Bool) :
    u.variableNames.find? p = u.occurrences.find? p := by
  rw [variableNames_eq, find?_eraseDups]

theorem variableNames_eq_nil_iff : u.variableNames = [] ↔ u.occurrences = [] := by
  simp only [List.eq_nil_iff_forall_not_mem, mem_variableNames]

end Residual

namespace Folds

variable {limit : Limit} {d : Nat} {t : Expr} {u : Residual}

/-- Folding loses no name and adds none. -/
theorem occurrences_eq (h : Folds limit d t u) : u.occurrences = t.names := by
  induction h with
  | number _ hk _ => cases hk <;> rfl
  | var _ => rfl
  | folded _ _ _ _ ihl ihr => rw [Expr.names_operator, ← ihl, ← ihr]; rfl
  | kept _ _ _ _ ihl ihr => rw [Expr.names_operator, Residual.occurrences_operator, ihl, ihr]

/-- What has been worked out is what has no names left. -/
theorem folded_iff (h : Folds limit d t u) : u.label.folded = true ↔ u.occurrences = [] := by
  induction h with
  | number _ _ _ | folded _ _ _ _ _ _ => exact iff_of_true rfl rfl
  | var _ => exact iff_of_false nofun nofun
  | kept _ _ _ hw ihl ihr =>
    refine iff_of_false nofun ?_
    rw [Residual.occurrences_operator, List.append_eq_nil_iff, ← ihl, ← ihr]
    rcases hw with hw | hw <;> simp [hw]

theorem folded_iff_isClosed (h : Folds limit d t u) : u.label.folded = true ↔ t.IsClosed := by
  rw [h.folded_iff, h.occurrences_eq, Expr.isClosed_iff]

end Folds

end ExprFold
