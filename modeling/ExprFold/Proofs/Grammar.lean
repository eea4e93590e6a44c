import ExprFold.Expr.Basic
import ExprFold.Token.Basic

/-!
# The grammar of expressions

Which lists of tokens are expressions, and of which trees. The grammar is

* `expr := term (('+' | '-') term)*`
* `term := unary (('*' | '/') unary)*`
* `unary := '-' unary | primary`
* `primary := integer | decimal | name | '(' expr ')'`

where the repetitions group to the left. `Derives` has one rule for each alternative, a repetition
being either empty or a shorter one with one more operand, and `Negates` says what a minus sign
makes of the tree of its operand. Nothing here mentions the parser.
-/

namespace ExprFold.Expr

/-- What a minus sign in front makes of an operand. -/
inductive Negates : Expr → Expr → Prop
  /-- A number without a sign takes one into its text. -/
  | sign {k : Kind} {s : String} : k.role = .literal → s.toList.head? ≠ some '-' →
      Negates (.leaf k s) (.leaf k ("-" ++ s))
  /-- A number with a sign loses it. -/
  | unsign {k : Kind} {s : String} : k.role = .literal → Negates (.leaf k ("-" ++ s)) (.leaf k s)
  /-- Anything else is multiplied by minus one. -/
  | scale {u : Expr} : (∀ k s, k.role = .literal → u ≠ .leaf k s) →
      Negates u (.binary (.op .mul) (.integer "-1") u)

theorem exists_minus_append {s : String} (h : s.toList.head? = some '-') : ∃ r, s = "-" ++ r := by
  cases hs : s.toList with
  | nil => simp [hs] at h
  | cons c cs =>
    obtain rfl : c = '-' := by simpa [hs] using h
    exact ⟨String.ofList cs, by rw [← String.toList_inj, hs]; simp⟩

/-- A minus sign can stand in front of any operand. -/
theorem exists_negates (u : Expr) : ∃ t, Negates u t := by
  by_cases hu : ∃ k s, k.role = .literal ∧ u = .leaf k s
  · obtain ⟨k, s, hk, rfl⟩ := hu
    by_cases hs : s.toList.head? = some '-'
    · obtain ⟨r, rfl⟩ := exists_minus_append hs
      exact ⟨_, .unsign hk⟩
    · exact ⟨_, .sign hk hs⟩
  · exact ⟨_, .scale fun k s hk h => hu ⟨k, s, hk, h⟩⟩

/-- The kinds of phrase. -/
inductive Phrase where
  | expr
  | term
  | unary
  | primary

/-- The tokens are a phrase of the given kind, with the given tree. -/
inductive Derives : Phrase → List Token → Expr → Prop
  | ofTerm {ts : List Token} {t : Expr} : Derives .term ts t → Derives .expr ts t
  | sum {ts us : List Token} {l r : Expr} {o : Op} : o.isTight = false →
      Derives .expr ts l → Derives .term us r →
      Derives .expr (ts ++ .op o :: us) (.binary (.op o) l r)
  | ofUnary {ts : List Token} {t : Expr} : Derives .unary ts t → Derives .term ts t
  | product {ts us : List Token} {l r : Expr} {o : Op} : o.isTight = true →
      Derives .term ts l → Derives .unary us r →
      Derives .term (ts ++ .op o :: us) (.binary (.op o) l r)
  | minus {ts : List Token} {u t : Expr} : Derives .unary ts u → Negates u t →
      Derives .unary (.op .sub :: ts) t
  | ofPrimary {ts : List Token} {t : Expr} : Derives .primary ts t → Derives .unary ts t
  | integer (s : String) : Derives .primary [.integer s] (.integer s)
  | decimal (s : String) : Derives .primary [.decimal s] (.decimal s)
  | name (s : String) : Derives .primary [.name s] (.var s)
  | parens {ts : List Token} {t : Expr} : Derives .expr ts t →
      Derives .primary (.leftParen :: ts ++ [.rightParen]) t

/-- A number in the tree of a phrase is a leaf. -/
theorem Derives.eq_leaf {p : Phrase} {ts : List Token} {t : Expr} (h : Derives p ts t)
    (ht : t.kind.role = .literal) : t = .leaf t.kind t.literal := by
  induction h with
  | ofTerm _ ih | ofUnary _ ih | ofPrimary _ ih | parens _ ih => exact ih ht
  | sum _ _ _ _ _ | product _ _ _ _ _ => cases ht
  | minus _ hn _ =>
    cases hn with
    | sign _ _ | unsign _ => rfl
    | scale _ => cases ht
  | integer _ | decimal _ | name _ => rfl

end ExprFold.Expr
