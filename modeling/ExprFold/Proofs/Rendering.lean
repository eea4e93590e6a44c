import ExprFold.Proofs.Lexemes
import ExprFold.Proofs.Parsing

/-!
# Expressions as text

`Expr.render` writes an expression with blanks around its operators and no more parentheses than the
grouping of operators asks for. The expressions that are parsed from some text are the canonical
ones (`Expr.Canonical`): a text's words give literals of the right form (`Expr.Derives.canonical`),
and a canonical expression is read back from what `render` writes (`Expr.Canonical.written`). Main
statement: `Expr.parse_render`.
-/

namespace ExprFold.Expr

/-! ## Writing -/

/-- Puts parentheses around a text where they are needed. -/
def enclose (needed : Bool) (cs : List Char) : List Char :=
  if needed then '(' :: cs ++ [')'] else cs

/-- On the left of an operator, parentheses go around an operator that binds weaker. -/
def enclosedLeft (o : Op) : Kind → Bool
  | .op o' => o'.isTight < o.isTight
  | _ => false

/-- On the right of an operator, parentheses go around an operator that binds no tighter. -/
def enclosedRight (o : Op) : Kind → Bool
  | .op o' => o'.isTight ≤ o.isTight
  | _ => false

/-- The characters of an expression. A node without two operands is its literal. -/
def renderChars : Expr → List Char
  | .node ⟨.op o, _⟩ (some l) (some r) =>
    enclose (enclosedLeft o (kind l)) (renderChars l) ++
      ' ' :: o.symbol :: ' ' :: enclose (enclosedRight o (kind r)) (renderChars r)
  | .node a _ _ => a.literal.toList

def render (t : Expr) : String := String.ofList t.renderChars

/-! ## Canonical expressions -/

/-- The texts of the numbers of a kind, without a sign. -/
def IsUnsigned : Kind → List Char → Prop
  | .integer => IsDigits
  | .decimal => IsDecimal
  | _ => fun _ => False

/-- The text is that of a number of the kind, possibly with a minus sign in front. -/
def IsNumber (k : Kind) (s : String) : Prop :=
  IsUnsigned k s.toList ∨ ∃ r, s = "-" ++ r ∧ IsUnsigned k r.toList

/-- Operators have two operands and an empty literal, leaves have no children, and the literal of a
leaf is a word of its kind. -/
inductive Canonical : Expr → Prop
  | number {k : Kind} {s : String} : IsNumber k s → Canonical (.leaf k s)
  | name {s : String} : IsName s.toList → Canonical (.var s)
  | operator {o : Op} {l r : Expr} : Canonical l → Canonical r → Canonical (.binary (.op o) l r)

section

variable {k : Kind} {s : String}

theorem IsUnsigned.role_eq {cs : List Char} (h : IsUnsigned k cs) : k.role = .literal := by
  cases k with
  | integer | decimal => rfl
  | var | op _ => exact h.elim

/-- A number text without a sign begins with a digit or a point. -/
theorem IsUnsigned.beginsNumber {cs : List Char} (h : IsUnsigned k cs) :
    ∃ c rest, cs = c :: rest ∧ Lexeme.beginsNumber c = true := by
  cases k with
  | integer => exact IsDigits.beginsNumber h
  | decimal => exact IsDecimal.beginsNumber h
  | var | op _ => exact h.elim

theorem IsUnsigned.head?_ne_minus {cs : List Char} (h : IsUnsigned k cs) :
    cs.head? ≠ some '-' := by
  obtain ⟨c, rest, rfl, hc⟩ := h.beginsNumber
  rintro ⟨⟩
  exact absurd hc (by decide)

theorem IsNumber.isUnsigned (hs : s.toList.head? ≠ some '-') (h : IsNumber k s) :
    IsUnsigned k s.toList := by
  rcases h with h | ⟨r, rfl, -⟩
  · exact h
  · simp at hs

theorem IsNumber.isUnsigned_of_minus (h : IsNumber k ("-" ++ s)) : IsUnsigned k s.toList := by
  rcases h with h | ⟨r, hr, h⟩
  · exact absurd (by simp) h.head?_ne_minus
  · obtain rfl : s = r := by simpa [← String.toList_inj] using hr
    exact h

theorem IsNumber.sign (hs : s.toList.head? ≠ some '-') (h : IsNumber k s) :
    IsNumber k ("-" ++ s) :=
  .inr ⟨s, rfl, h.isUnsigned hs⟩

theorem IsNumber.unsign (h : IsNumber k ("-" ++ s)) : IsNumber k s := .inl h.isUnsigned_of_minus

theorem Canonical.isNumber (h : Canonical (.leaf k s)) (hk : k.role = .literal) :
    IsNumber k s := by
  generalize ht : Expr.leaf k s = t at h
  cases h with
  | number h => cases ht; exact h
  | name _ => cases ht; cases hk
  | operator _ _ => cases ht

end

/-! ## What is parsed is canonical -/

/-- A minus sign in front of a canonical operand makes a canonical expression. -/
theorem Canonical.negate {u t : Expr} (hu : Canonical u) (h : Negates u t) : Canonical t := by
  cases h with
  | sign hk hs => exact .number ((hu.isNumber hk).sign hs)
  | unsign hk => exact .number (hu.isNumber hk).unsign
  | scale _ =>
    have one : IsUnsigned .integer ['1'] := ⟨nofun, by simp⟩
    exact .operator (.number (.inr ⟨"1", rfl, one⟩)) hu

/-- The tree of a phrase is canonical if its words can be found in a text. -/
theorem Derives.canonical {p : Phrase} {ts : List Token} {t : Expr} (h : Derives p ts t)
    (hts : ∀ t ∈ ts, t.IsWord) : Canonical t := by
  induction h with
  | ofTerm _ ih | ofUnary _ ih | ofPrimary _ ih => exact ih hts
  | sum _ _ _ ihl ihr | product _ _ _ ihl ihr =>
    exact .operator (ihl fun t ht => hts t (by simp [ht])) (ihr fun t ht => hts t (by simp [ht]))
  | minus _ hn ih => exact (ih fun t ht => hts t (by simp [ht])).negate hn
  | integer s => exact .number (.inl (hts (.integer s) (by simp)))
  | decimal s => exact .number (.inl (hts (.decimal s) (by simp)))
  | name s => exact .name (hts (.name s) (by simp))
  | parens _ ih => exact ih fun t ht => hts t (by simp [ht])

/-! ## What is canonical is parsed -/

/-- Phrases of a higher rank include those of a lower one. -/
def Phrase.rank : Phrase → Nat
  | primary => 0
  | unary => 1
  | term => 2
  | expr => 3

theorem Phrase.rank_le (p : Phrase) : p.rank ≤ expr.rank := by
  cases p <;> decide

theorem Derives.widen {p q : Phrase} {ts : List Token} {t : Expr} (h : Derives p ts t)
    (hpq : p.rank ≤ q.rank) : Derives q ts t := by
  cases p <;> cases q <;> first
    | exact h
    | exact .ofPrimary h
    | exact .ofUnary h
    | exact .ofUnary (.ofPrimary h)
    | exact .ofTerm h
    | exact .ofTerm (.ofUnary h)
    | exact .ofTerm (.ofUnary (.ofPrimary h))
    | simp [Phrase.rank] at hpq

/-- The text is a phrase of the given kind, with the given tree. -/
def Written (p : Phrase) (cs : List Char) (t : Expr) : Prop :=
  ∃ ts, Spells cs ts ∧ Derives p ts t

/-- The smallest kind of phrase that an expression is without parentheses around it. -/
def phrase : Kind → Phrase
  | .op o => if o.isTight then .term else .expr
  | _ => .unary

namespace Written

variable {p q : Phrase} {cs ds : List Char} {t l r : Expr}

/-- Between parentheses every phrase is a primary one. -/
theorem enclose {needed : Bool} (h : Written p cs t) (hpq : needed = false → p.rank ≤ q.rank) :
    Written q (enclose needed cs) t := by
  obtain ⟨ts, hs, hd⟩ := h
  cases needed with
  | false => exact ⟨ts, hs, hd.widen (hpq rfl)⟩
  | true => exact ⟨_, hs.parens, (Derives.parens (hd.widen p.rank_le)).widen (Nat.zero_le _)⟩

/-- A word on its own. -/
theorem word {w : Token} (hw : w.IsWord) (h : Derives .primary [w] t) : Written .unary w.text t :=
  ⟨[w], Spells.word hw, .ofPrimary h⟩

theorem unsigned {k : Kind} {s : String} (h : IsUnsigned k s.toList) :
    Written .unary s.toList (.leaf k s) := by
  cases k with
  | integer => exact word (w := .integer s) h (.integer s)
  | decimal => exact word (w := .decimal s) h (.decimal s)
  | var | op _ => exact h.elim

theorem number {k : Kind} {s : String} (h : IsNumber k s) :
    Written .unary s.toList (.leaf k s) := by
  rcases h with h | ⟨r, rfl, h⟩
  · exact unsigned h
  · obtain ⟨ts, hs, hd⟩ := unsigned h
    rw [String.toList_append]
    exact ⟨_, hs.cons rfl, .minus hd (.sign h.role_eq h.head?_ne_minus)⟩

/-- An operator between two operands, of the kinds of phrase that it groups. -/
theorem operator {o : Op} (hl : Written (if o.isTight then .term else .expr) cs l)
    (hr : Written (if o.isTight then .unary else .term) ds r) :
    Written (phrase (.op o)) (cs ++ ' ' :: o.symbol :: ' ' :: ds) (.binary (.op o) l r) := by
  obtain ⟨ts, hs, hl⟩ := hl
  obtain ⟨us, hs', hr⟩ := hr
  have hop : Spells [o.symbol] [.op o] := Spells.word (t := .op o) trivial
  refine ⟨_, hs.append (hop.append hs'), ?_⟩
  cases ho : o.isTight with
  | false =>
    simp only [ho, phrase, Bool.false_eq_true, if_false] at hl hr ⊢
    exact .sum ho hl hr
  | true =>
    simp only [ho, phrase, if_true] at hl hr ⊢
    exact .product ho hl hr

end Written

/-! An operand that stands without parentheses is of the kind of phrase that its place asks for. -/

theorem rank_of_enclosedLeft {o : Op} {k : Kind} (h : enclosedLeft o k = false) :
    (phrase k).rank ≤ (if o.isTight then Phrase.term else .expr).rank := by
  cases k with
  | op o' => cases o <;> cases o' <;> first | decide | cases h
  | _ => cases o <;> decide

theorem rank_of_enclosedRight {o : Op} {k : Kind} (h : enclosedRight o k = false) :
    (phrase k).rank ≤ (if o.isTight then Phrase.unary else .term).rank := by
  cases k with
  | op o' => cases o <;> cases o' <;> first | decide | cases h
  | _ => cases o <;> decide

/-- A canonical expression is written as the smallest phrase that it can be. -/
theorem Canonical.written {t : Expr} (h : Canonical t) :
    Written (phrase t.kind) t.renderChars t := by
  induction h with
  | @number k s h =>
    cases k with
    | integer | decimal => exact Written.number h
    | var | op _ => exact h.elim False.elim fun ⟨_, _, h⟩ => h.elim
  | name h => exact Written.word (w := .name _) h (.name _)
  | operator _ _ ihl ihr =>
    exact (ihl.enclose rank_of_enclosedLeft).operator (ihr.enclose rank_of_enclosedRight)

theorem Canonical.parses {t : Expr} (h : Canonical t) : parse none t.render = .ok t := by
  obtain ⟨ts, hs, hd⟩ := h.written
  rw [parse_eq_ok_iff]
  exact ⟨ts, hs.tokenize_eq_ok, Parser.run_none_eq_ok_iff.2 (hd.widen (Phrase.rank_le _))⟩

theorem canonical_of_parse {s : String} {t : Expr} (h : parse none s = .ok t) : Canonical t := by
  obtain ⟨ts, hts, hrun⟩ := parse_eq_ok_iff.1 h
  exact (Parser.run_none_eq_ok_iff.1 hrun).canonical (isWord_of_tokenize hts)

/-- **The parsed expressions are the canonical ones, and they are read back from the text with the
fewest parentheses.** A canonical expression is parsed from what `render` writes; and an expression
that is parsed from any text is canonical, so that its rendering is parsed like that text. -/
theorem parse_render :
    (∀ t, (∃ s, parse none s = .ok t) ↔ Canonical t) ∧
      (∀ t, Canonical t → parse none t.render = .ok t) ∧
      ∀ s t, parse none s = .ok t → Canonical t ∧ parse none t.render = parse none s := by
  refine ⟨?_, fun t ht => ht.parses, ?_⟩
  · intro t
    exact ⟨fun ⟨_, hs⟩ => canonical_of_parse hs, fun ht => ⟨_, ht.parses⟩⟩
  · intro s t hs
    have ht := canonical_of_parse hs
    exact ⟨ht, by rw [ht.parses, hs]⟩

/-- Signs and unfinished decimals stand without parentheses, a right operand of the same strength
does not. -/
theorem parse_render_signs :
    let t : Expr := .binary (.op .sub) (.decimal "-2e")
      (.binary (.op .sub) (.var "x") (.binary (.op .mul) (.decimal "-.5") (.integer "3")))
    t.render = "-2e - (x - -.5 * 3)" ∧ parse none "-(2e) - (x - (-.5 * 3))" = .ok t ∧
      Canonical t ∧ parse none t.render = .ok t := by
  intro t
  have hs : parse none "-(2e) - (x - (-.5 * 3))" = .ok t := by cbv
  have ht : Canonical t := (parse_render.2.2 _ t hs).1
  exact ⟨by decide +kernel, hs, ht, parse_render.2.1 t ht⟩

end ExprFold.Expr
