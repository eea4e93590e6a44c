import ExprFold.Expr.Parser
import ExprFold.Proofs.Walks

/-!
# The steps of the parser

`Step` says once what reading a token can do to the parser's state, with one rule for each way a
token can be taken and under any limit; `step_eq_ok_iff` says that the parser takes just these
steps, and `Reads` joins them over a list of tokens. Before that stand the equations of what is
built from operands when there is no limit.
-/

namespace ExprFold.Expr.Parser

/-! ## Operands and what is built from them -/

/-- An expression as an operand. -/
def Operand.ofExpr (t : Expr) : Operand := ⟨t, t.depth, rfl⟩

@[simp] theorem Operand.expr_ofExpr (t : Expr) : (ofExpr t).expr = t := rfl

@[simp] theorem Operand.ofExpr_expr (u : Operand) : ofExpr u.expr = u := by
  obtain ⟨t, d, rfl⟩ := u
  rfl

theorem combine_none (o : Op) (l r : Operand) :
    combine none o l r = .ok (.ofExpr (.binary (.op o) l.expr r.expr)) := by
  obtain ⟨l, _, rfl⟩ := l
  obtain ⟨r, _, rfl⟩ := r
  rfl

theorem flipSign_minus (s : String) : flipSign ("-" ++ s) = s := by
  simp [flipSign]

theorem flipSign_of_unsigned {s : String} (h : s.toList.head? ≠ some '-') :
    flipSign s = "-" ++ s := by
  unfold flipSign
  split
  · rename_i ds hs
    simp [hs] at h
  · simp

theorem negate_number {limit : Limit} {k : Kind} {s : String} (hk : k.role = .literal) :
    negate limit (.ofExpr (.leaf k s)) = .ok (.ofExpr (.leaf k (flipSign s))) := by
  cases k with
  | integer | decimal => rfl
  | var | op _ => cases hk

theorem negate_none_other {u : Expr} (hu : u.kind.role ≠ .literal) :
    negate none (.ofExpr u) = .ok (.ofExpr (.binary (.op .mul) (.integer "-1") u)) := by
  unfold negate
  split
  · rename_i h; rw [Operand.expr_ofExpr] at h; simp [h, Kind.role] at hu
  · rename_i h; rw [Operand.expr_ofExpr] at h; simp [h, Kind.role] at hu
  · rw [combine_none]; rfl

/-! ## One step and many -/

/-- The tokens that are operands by themselves. -/
inductive LeafToken : Token → Kind → String → Prop
  | integer (s : String) : LeafToken (.integer s) .integer s
  | decimal (s : String) : LeafToken (.decimal s) .decimal s
  | name (s : String) : LeafToken (.name s) .var s

/-- The steps of the parser: it reads the token in the first state and gets to the second. -/
inductive Step (limit : Limit) : State → Token → State → Prop
  | leaf {slot : Slot} {outer : List Slot} {t : Token} {k : Kind} {s : String} {v : Operand} :
      LeafToken t k s → slot.fill limit (.leaf k s) = .ok v →
      Step limit (.awaiting slot outer) t (.holding v slot.chain outer)
  | minus {slot : Slot} {outer : List Slot} : limit.check (slot.level + 1) = .ok () →
      Step limit (.awaiting slot outer) (.op .sub)
        (.awaiting { slot with minuses := slot.minuses + 1 } outer)
  | leftParen {slot : Slot} {outer : List Slot} : limit.check (slot.level + 1) = .ok () →
      Step limit (.awaiting slot outer) .leftParen
        (.awaiting (.first (slot.level + 1)) (slot :: outer))
  | factor {term : Operand} {chain : Chain} {outer : List Slot} {o : Op} : o.isTight = true →
      Step limit (.holding term chain outer) (.op o) (.awaiting ⟨chain, some ⟨term, o⟩, 0⟩ outer)
  | term {term u : Operand} {chain : Chain} {outer : List Slot} {o : Op} : o.isTight = false →
      supply limit chain.sum term = .ok u →
      Step limit (.holding term chain outer) (.op o)
        (.awaiting ⟨⟨chain.level, some ⟨u, o⟩⟩, none, 0⟩ outer)
  | rightParen {term u v : Operand} {chain : Chain} {slot : Slot} {outer : List Slot} :
      supply limit chain.sum term = .ok u → slot.fill limit u = .ok v →
      Step limit (.holding term chain (slot :: outer)) .rightParen (.holding v slot.chain outer)

section
variable {limit : Limit} {s s' s'' : State} {t : Token} {ts us : List Token}

theorem Step.step_eq_ok (h : Step limit s t s') : step limit s t = .ok s' := by
  cases h with
  | leaf ht hv => cases ht <;> simp [step, placeLeaf, hv]
  | @minus slot _ hc =>
    have hl : Slot.level { slot with minuses := slot.minuses + 1 } = slot.level + 1 := rfl
    simp [step, hl, hc]
  | leftParen hc => simp [step, hc]
  | factor ho => simp [step, ho]
  | term ho hu => simp [step, ho, hu]
  | rightParen hu hv => simp [step, hu, hv]

theorem Step.of_step (h : step limit s t = .ok s') : Step limit s t s' := by
  cases s with
  | awaiting slot outer =>
    cases t with
    | integer text | decimal text | name text =>
      simp only [step, placeLeaf, bind_eq_ok_iff] at h
      obtain ⟨v, hv, hs⟩ := h
      cases hs
      exact .leaf (by constructor) hv
    | leftParen =>
      simp only [step, bind_eq_ok_iff] at h
      obtain ⟨⟨⟩, hc, hs⟩ := h
      cases hs
      exact .leftParen hc
    | rightParen => cases h
    | op o =>
      cases o with
      | add | mul | div => cases h
      | sub =>
        simp only [step, bind_eq_ok_iff] at h
        obtain ⟨⟨⟩, hc, hs⟩ := h
        cases hs
        exact .minus hc
  | holding term chain outer =>
    cases t with
    | op o =>
      cases ho : o.isTight with
      | true =>
        simp only [step, ho, ↓reduceIte] at h
        cases h
        exact .factor ho
      | false =>
        simp only [step, ho, Bool.false_eq_true, ↓reduceIte, bind_eq_ok_iff] at h
        obtain ⟨u, hu, hs⟩ := h
        cases hs
        exact .term ho hu
    | rightParen =>
      simp only [step, bind_eq_ok_iff] at h
      obtain ⟨u, hu, h⟩ := h
      cases outer with
      | nil => cases h
      | cons slot outer =>
        simp only [bind_eq_ok_iff] at h
        obtain ⟨v, hv, hs⟩ := h
        cases hs
        exact .rightParen hu hv
    | integer _ | decimal _ | name _ | leftParen =>
      simp only [step, bind_eq_ok_iff] at h
      obtain ⟨u, hu, h⟩ := h
      cases outer <;> cases h

theorem step_eq_ok_iff : step limit s t = .ok s' ↔ Step limit s t s' :=
  ⟨Step.of_step, Step.step_eq_ok⟩

/-- Reading the tokens leads from the first state to the second. -/
def Reads (limit : Limit) (s : State) (ts : List Token) (s' : State) : Prop :=
  ts.foldlM (step limit) s = .ok s'

@[simp] theorem reads_nil : Reads limit s [] s' ↔ s = s' := by
  simp [Reads]

theorem reads_cons : Reads limit s (t :: ts) s' ↔ ∃ s₁, Step limit s t s₁ ∧ Reads limit s₁ ts s' := by
  simp only [Reads, List.foldlM_cons, bind_eq_ok_iff, step_eq_ok_iff]

theorem reads_append :
    Reads limit s (ts ++ us) s' ↔ ∃ s₁, Reads limit s ts s₁ ∧ Reads limit s₁ us s' := by
  simp only [Reads, List.foldlM_append, bind_eq_ok_iff]

theorem Step.reads (h : Step limit s t s') : Reads limit s [t] s' :=
  reads_cons.2 ⟨s', h, reads_nil.2 rfl⟩

theorem Reads.cons (h : Step limit s t s') (hs : Reads limit s' ts s'') :
    Reads limit s (t :: ts) s'' := reads_cons.2 ⟨s', h, hs⟩

theorem Reads.trans (h : Reads limit s ts s') (hs : Reads limit s' us s'') :
    Reads limit s (ts ++ us) s'' := reads_append.2 ⟨s', h, hs⟩

end

end ExprFold.Expr.Parser
