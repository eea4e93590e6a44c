import ExprFold.Proofs.Grammar
import ExprFold.Proofs.ParserSteps

/-!
# The parser against the grammar

Completeness: from any place where a phrase may stand, reading its tokens leads to the state in
which its tree has been put there (`Parsed`, `parsed_of_derives`). Soundness: `State.After` says
which tokens a state stands for, the pieces in it being trees of phrases, and every step appends its
token (`State.After.step`). Together the parser succeeds on just the expressions of the grammar and
with their trees (`run_none_eq_ok_iff`).
-/

namespace ExprFold.Expr

namespace Parser

theorem negate_none_of_negates {u t : Expr} (h : Negates u t)
    (hu : u.kind.role = .literal → u = .leaf u.kind u.literal) :
    negate none (.ofExpr u) = .ok (.ofExpr t) := by
  cases h with
  | sign hk hs => rw [negate_number hk, flipSign_of_unsigned hs]
  | unsign hk => rw [negate_number hk, flipSign_minus]
  | scale hn =>
    refine negate_none_other fun hk => ?_
    exact hn _ _ hk (hu hk)

/-! ## Completeness -/

/-- What reading the tokens of a phrase does to the parser, wherever the phrase may stand. -/
def Parsed : Phrase → List Token → Expr → Prop
  | .primary, ts, t | .unary, ts, t => ∀ (slot : Slot) (outer : List Slot) (v : Operand),
      slot.fill none (.ofExpr t) = .ok v →
      Reads none (.awaiting slot outer) ts (.holding v slot.chain outer)
  | .term, ts, t => ∀ (chain : Chain) (outer : List Slot),
      Reads none (.awaiting ⟨chain, none, 0⟩ outer) ts (.holding (.ofExpr t) chain outer)
  | .expr, ts, t => ∀ (level : Nat) (outer : List Slot), ∃ term sum,
      Reads none (.awaiting (.first level) outer) ts (.holding term ⟨level, sum⟩ outer) ∧
        supply none sum term = .ok (.ofExpr t)

theorem parsed_of_derives {p : Phrase} {ts : List Token} {t : Expr} (h : Derives p ts t) :
    Parsed p ts t := by
  induction h with
  | ofTerm _ ih =>
    intro level outer
    exact ⟨_, none, ih ⟨level, none⟩ outer, rfl⟩
  | @sum ts us l r o ho _ _ ihl ihr =>
    intro level outer
    obtain ⟨term, sum, hl, hs⟩ := ihl level outer
    refine ⟨.ofExpr r, some ⟨.ofExpr l, o⟩, ?_, combine_none _ _ _⟩
    exact hl.trans (.cons (.term ho hs) (ihr ⟨level, some ⟨.ofExpr l, o⟩⟩ outer))
  | ofUnary _ ih =>
    intro chain outer
    exact ih ⟨chain, none, 0⟩ outer _ rfl
  | @product ts us l r o ho _ _ ihl ihr =>
    intro chain outer
    refine (ihl chain outer).trans (.cons (.factor ho) ?_)
    refine ihr ⟨chain, some ⟨.ofExpr l, o⟩, 0⟩ outer _ ?_
    simp [Slot.fill, negateTimes, supply, combine_none]
  | @minus ts u t hu hn ih =>
    intro slot outer v hv
    refine .cons (.minus rfl) (ih { slot with minuses := slot.minuses + 1 } outer v ?_)
    simpa [Slot.fill, negateTimes, negate_none_of_negates hn hu.eq_leaf] using hv
  | ofPrimary _ ih => exact ih
  | integer s =>
    intro slot outer v hv
    exact (Step.leaf (.integer s) hv).reads
  | decimal s =>
    intro slot outer v hv
    exact (Step.leaf (.decimal s) hv).reads
  | name s =>
    intro slot outer v hv
    exact (Step.leaf (.name s) hv).reads
  | parens _ ih =>
    intro slot outer v hv
    obtain ⟨term, sum, hr, hs⟩ := ih (slot.level + 1) (slot :: outer)
    exact .cons (.leftParen rfl) (hr.trans (Step.rightParen hs hv).reads)

/-! ## Soundness

What a state stands for is said from the inside out: the tokens of a chain in front of the term that
is being read, those of a slot in front of its operand, those of the slots around it.
-/

/-- The tokens in front of the next term of a chain. -/
inductive Chain.After : Chain → List Token → Prop
  | first (level : Nat) : After ⟨level, none⟩ []
  | sum {level : Nat} {ts : List Token} {p : Pending} : p.op.isTight = false →
      Derives .expr ts p.left.expr → After ⟨level, some p⟩ (ts ++ [.op p.op])

/-- The tokens in front of the next factor of a product. -/
inductive Factor.After : Option Pending → List Token → Prop
  | first : After none []
  | product {ts : List Token} {p : Pending} : p.op.isTight = true →
      Derives .term ts p.left.expr → After (some p) (ts ++ [.op p.op])

/-- The tokens in front of the operand that a slot waits for, back to the parenthesis around it. -/
inductive Slot.After : Slot → List Token → Prop
  | mk {chain : Chain} {product : Option Pending} {n : Nat} {ts us : List Token} :
      chain.After ts → Factor.After product us →
      After ⟨chain, product, n⟩ (ts ++ us ++ List.replicate n (.op .sub))

/-- The tokens of the slots that open parentheses have left waiting, the innermost first. -/
inductive Outer.After : List Slot → List Token → Prop
  | nil : After [] []
  | cons {slot : Slot} {outer : List Slot} {ts us : List Token} : After outer ts → slot.After us →
      After (slot :: outer) (ts ++ us ++ [.leftParen])

/-- The tokens that have been read in a state. -/
inductive State.After : State → List Token → Prop
  | awaiting {slot : Slot} {outer : List Slot} {ts us : List Token} :
      Outer.After outer ts → slot.After us → After (.awaiting slot outer) (ts ++ us)
  | holding {term : Operand} {chain : Chain} {outer : List Slot} {ts us vs : List Token} :
      Outer.After outer ts → chain.After us → Derives .term vs term.expr →
      After (.holding term chain outer) (ts ++ (us ++ vs))

/-- Minus signs in front of an operand make it a larger one. -/
theorem derives_negateTimes {n : Nat} {ts : List Token} {u v : Operand}
    (hu : Derives .unary ts u.expr) (hv : negateTimes none n u = .ok v) :
    Derives .unary (List.replicate n (.op .sub) ++ ts) v.expr := by
  induction n generalizing ts u with
  | zero => cases hv; exact hu
  | succ n ih =>
    simp only [negateTimes, bind_eq_ok_iff] at hv
    obtain ⟨w, hw, hv⟩ := hv
    obtain ⟨t, ht⟩ := exists_negates u.expr
    have hn := negate_none_of_negates ht hu.eq_leaf
    rw [Operand.ofExpr_expr, hw] at hn
    cases hn
    have h := ih (Derives.minus hu ht) hv
    rw [List.replicate_succ', List.append_assoc]
    exact h

/-- An operand that comes into a slot completes a term. -/
theorem Slot.After.fill {slot : Slot} {ts us : List Token} {u v : Operand} (h : slot.After ts)
    (hu : Derives .primary us u.expr) (hv : slot.fill none u = .ok v) :
    ∃ ws xs, slot.chain.After ws ∧ Derives .term xs v.expr ∧ ts ++ us = ws ++ xs := by
  obtain @⟨chain, product, n, ts, ws, hc, hp⟩ := h
  simp only [Slot.fill, bind_eq_ok_iff] at hv
  obtain ⟨w, hw, hv⟩ := hv
  have hw := derives_negateTimes (.ofPrimary hu) hw
  cases hp with
  | first =>
    cases hv
    exact ⟨ts, _, hc, .ofUnary hw, by simp⟩
  | product ho hl =>
    simp only [supply, combine_none] at hv
    cases hv
    exact ⟨ts, _, hc, .product ho hl hw, by simp⟩

/-- A term that comes to the end of a chain completes an expression. -/
theorem Chain.After.supply {chain : Chain} {ts us : List Token} {term u : Operand}
    (h : chain.After ts) (ht : Derives .term us term.expr)
    (hu : supply none chain.sum term = .ok u) : Derives .expr (ts ++ us) u.expr := by
  cases h with
  | first level =>
    cases hu
    exact .ofTerm ht
  | sum ho hl =>
    simp only [Parser.supply, combine_none] at hu
    cases hu
    rw [List.append_assoc]
    exact .sum ho hl ht

theorem Slot.After.ofFirst (level : Nat) : (Slot.first level).After [] :=
  .mk (.first level) .first

theorem Slot.After.minus {slot : Slot} {ts : List Token} (h : slot.After ts) :
    Slot.After { slot with minuses := slot.minuses + 1 } (ts ++ [.op .sub]) := by
  obtain ⟨hc, hp⟩ := h
  rw [List.append_assoc, ← List.replicate_succ']
  exact .mk hc hp

theorem LeafToken.derives {t : Token} {k : Kind} {s : String} (h : LeafToken t k s) :
    Derives .primary [t] (.leaf k s) := by
  cases h with
  | integer => exact .integer s
  | decimal => exact .decimal s
  | name => exact .name s

/-- A token that is read joins those that a state stands for. -/
theorem State.After.step {s s' : State} {t : Token} {ts : List Token} (h : s.After ts)
    (hs : Step none s t s') : s'.After (ts ++ [t]) := by
  cases hs with
  | leaf ht hv =>
    cases h with
    | awaiting ho hslot =>
      obtain ⟨ws, xs, hc, hx, he⟩ := hslot.fill ht.derives hv
      rw [List.append_assoc, he]
      exact .holding ho hc hx
  | minus _ =>
    cases h with
    | awaiting ho hslot =>
      rw [List.append_assoc]
      exact .awaiting ho hslot.minus
  | leftParen _ =>
    cases h with
    | awaiting ho hslot => simpa using State.After.awaiting (ho.cons hslot) (.ofFirst _)
  | factor ht =>
    cases h with
    | holding ho hc hx => simpa using State.After.awaiting ho (.mk (n := 0) hc (.product ht hx))
  | term ht hu =>
    cases h with
    | holding ho hc hx =>
      have hsum := hc.supply hx hu
      simpa using State.After.awaiting ho (.mk (n := 0) (.sum (p := ⟨_, _⟩) ht hsum) .first)
  | rightParen hu hv =>
    cases h with
    | holding ho hc hx =>
      cases ho with
      | cons ho hslot =>
        have hsum := hc.supply hx hu
        obtain ⟨ws, xs, hc', hx', he⟩ := hslot.fill (.parens hsum) hv
        have h := State.After.holding ho hc' hx'
        rw [← he] at h
        simpa using h

/-- The tokens that lead from the start to a state are those that the state stands for. -/
theorem State.After.reads {s s' : State} {ts us : List Token} (h : s.After ts)
    (hs : Reads none s us s') : s'.After (ts ++ us) := by
  induction us generalizing s ts with
  | nil =>
    obtain rfl := reads_nil.1 hs
    rw [List.append_nil]
    exact h
  | cons t us ih =>
    obtain ⟨s₁, h₁, hs⟩ := reads_cons.1 hs
    have := ih (h.step h₁) hs
    rwa [List.append_assoc] at this

theorem State.After.start : State.start.After [] := .awaiting .nil (.ofFirst 0)

/-- At the end of the text all tokens are one expression. -/
theorem State.After.finish {s : State} {ts : List Token} {t : Expr} (h : s.After ts)
    (ht : finish none s = .ok t) : Derives .expr ts t := by
  cases h with
  | awaiting _ _ => cases ht
  | holding ho hc hx =>
    simp only [Parser.finish, bind_eq_ok_iff] at ht
    obtain ⟨u, hu, ht⟩ := ht
    cases ho with
    | nil => cases ht; exact hc.supply hx hu
    | cons _ _ => cases ht

/-! ## The parser and the grammar -/

/-- Without a limit the parser accepts just the expressions of the grammar. -/
theorem run_none_eq_ok_iff {ts : List Token} {t : Expr} :
    run none ts = .ok t ↔ Derives .expr ts t := by
  simp only [run, bind_eq_ok_iff]
  constructor
  · rintro ⟨s, hs, ht⟩
    exact (State.After.start.reads hs).finish ht
  · intro h
    obtain ⟨term, sum, hr, hs⟩ := parsed_of_derives h 0 []
    exact ⟨_, hr, by simp [finish, hs]⟩

end Parser

theorem Derives.unique {ts : List Token} {t u : Expr} (ht : Derives .expr ts t)
    (hu : Derives .expr ts u) : t = u := by
  rw [← Parser.run_none_eq_ok_iff] at ht hu
  rw [ht] at hu
  cases hu
  rfl

/-- A text is parsed when its tokens are, and a stray character leaves it without tokens. -/
theorem parse_eq_ok_iff {limit : Limit} {s : String} {t : Expr} :
    parse limit s = .ok t ↔ ∃ ts, tokenize s = .ok ts ∧ Parser.run limit ts = .ok t := by
  simp only [parse, bind_eq_ok_iff, mapError_eq_ok_iff]

/-- **The parser accepts exactly its grammar** and builds exactly the grammar's tree: a text is
parsed without a limit to a tree just when its tokens are an expression with that tree. No list of
tokens is an expression with two trees. -/
theorem parse_iff_derives :
    (∀ s t, parse none s = .ok t ↔ ∃ ts, tokenize s = .ok ts ∧ Derives .expr ts t) ∧
      ∀ ts, Subsingleton {t // Derives .expr ts t} := by
  refine ⟨?_, ?_⟩
  · intro s t
    simp only [parse_eq_ok_iff, Parser.run_none_eq_ok_iff]
  · intro ts
    refine ⟨?_⟩
    rintro ⟨t, ht⟩ ⟨u, hu⟩
    exact Subtype.ext (ht.unique hu)

/-- Differences group to the left, and a minus sign binds tighter than a product. -/
example : parse none "7 - --2 - -x * (3)" =
    .ok (.binary (.op .sub)
      (.binary (.op .sub) (.integer "7") (.integer "2"))
      (.binary (.op .mul) (.binary (.op .mul) (.integer "-1") (.var "x")) (.integer "3"))) := by
  cbv

end ExprFold.Expr
