import ExprFold.Proofs.DepthLimit
import ExprFold.Proofs.Parsing
import Mathlib

/-!
# The parser under a limit

A limit bounds two things while a text is parsed: how many parentheses and minus signs are open at
once, and how deep the operator nodes are that get built. `Nested` adds the first number to the
rules of the grammar. A text that is parsed without a limit is parsed under one exactly when the
limit bounds this number and the depth of the tree (`Parser.run_some_eq_ok_iff`). Too little is
never asked: each step keeps the finished operand within the limit (`Parser.Step.fits`), and reading
a phrase passes a check for each level it opens (`Parser.level_add_le_of_reads`). Nor is too much:
from any place with room for a phrase, its tokens can be read (`Parser.admitted_of_nested`).

A parsed tree that fits the limit is then never refused by a walk under the same limit. Main
statement: `parse_limit`.
-/

namespace ExprFold

/-! ## Walks that have room -/

/-- No depth was refused. -/
def Unrefused {α : Type} (x : Except Error α) : Prop := ∀ m, x ≠ .error (.depthLimit m)

theorem unrefused_iff {α : Type} {x : Except Error α} :
    Unrefused x ↔ FailsOnly (fun e => ∀ m, e ≠ .depthLimit m) x :=
  ⟨fun h _ he m hm => h m (hm ▸ he), fun h m hm => h _ hm m rfl⟩

namespace Unrefused

variable {α β : Type} {x : Except Error α}

theorem ok (a : α) : Unrefused (.ok a : Except Error α) := fun _ h => nomatch h

theorem bind {f : α → Except Error β} (hx : Unrefused x) (hf : ∀ a, Unrefused (f a)) :
    Unrefused (x >>= f) :=
  unrefused_iff.2 ((unrefused_iff.1 hx).bind fun a => unrefused_iff.1 (hf a))

theorem rejectChildren {k : Kind} {l r : Option α} : Unrefused (rejectChildren k l r) := by
  intro m h
  unfold ExprFold.rejectChildren at h
  split at h <;> cases h

theorem read {k : Kind} {read : String → Except Error Float} (hk : Numeric k read) (s : String) :
    Unrefused (read s) := by
  intro m h
  cases hk with
  | integer =>
    unfold integerValue at h
    split at h <;> cases h
  | decimal =>
    unfold decimalValue at h
    split at h
    · split at h <;> cases h
    · cases h

theorem apply (o : Op) (x y : Float) : Unrefused (o.apply x y) :=
  unrefused_iff.2 (.apply nofun o x y)

/-- A step behind a check that passes. -/
theorem checked {n d : Nat} (hd : d ≤ n) (hx : Unrefused x) :
    Unrefused (do Limit.check (some n) d; x) := by
  have hc : Limit.check (some n) d = .ok () := Limit.check_some_eq_ok_iff.2 hd
  rw [hc]
  exact hx

end Unrefused

namespace Expr

theorem evaluateAt_unrefused {n d : Nat} {t : Expr} (h : d + t.depth ≤ n + 1) :
    Unrefused (t.evaluateAt (some n) d) := by
  have hd : d ≤ n := by have := t.depth_pos; omega
  induction t using Expr.shapeRec generalizing d with
  | number k read s l r hk =>
    rw [evaluateAt_number hk]
    exact .checked hd (.bind .rejectChildren fun _ => .read hk s)
  | var s l r =>
    rw [evaluateAt_var]
    exact .checked hd fun _ h => nomatch h
  | noLeft o s r =>
    rw [evaluateAt_noLeft]
    exact .checked hd fun _ h => nomatch h
  | noRight o s l =>
    rw [evaluateAt_noRight]
    exact .checked hd fun _ h => nomatch h
  | operator o s l r ihl ihr =>
    rw [Tree.depth_branch] at h
    have hl := l.depth_pos
    have hr := r.depth_pos
    rw [evaluateAt_operator]
    exact .checked hd (.bind (ihl (by omega) (by omega)) fun x =>
      .bind (ihr (by omega) (by omega)) fun y => .apply o x y)

theorem result_foldOperator_unrefused (o : Op) (l r : Residual) :
    Unrefused (foldOperator o l r).result :=
  unrefused_iff.2 (.foldOperator nofun o l r)

theorem result_foldAt_unrefused {n d : Nat} {t : Expr} (h : d + t.depth ≤ n + 1) :
    Unrefused (t.foldAt (some n) d).result := by
  have hd : d ≤ n := by have := t.depth_pos; omega
  induction t using Expr.shapeRec generalizing d with
  | number k read s l r hk =>
    rw [result_foldAt_number hk]
    exact .checked hd (.bind .rejectChildren fun _ => .bind (.read hk s) fun _ => .ok _)
  | var s l r =>
    rw [result_foldAt_var]
    exact .checked hd (.bind .rejectChildren fun _ => .ok _)
  | noLeft o s r =>
    rw [result_foldAt_noLeft]
    exact .checked hd fun _ h => nomatch h
  | noRight o s l =>
    rw [result_foldAt_noRight]
    exact .checked hd fun _ h => nomatch h
  | operator o s l r ihl ihr =>
    rw [Tree.depth_branch] at h
    have hl := l.depth_pos
    have hr := r.depth_pos
    rw [result_foldAt_operator]
    exact .checked hd (.bind (ihl (by omega) (by omega)) fun l' =>
      .bind (ihr (by omega) (by omega)) fun r' => result_foldOperator_unrefused o l' r')

/-! ## The nesting of a derivation -/

/-- The tokens are a phrase, and the last number is the greatest number of parentheses and minus
signs that are open at once in its derivation. -/
inductive Nested : Phrase → List Token → Expr → Nat → Prop
  | ofTerm {ts : List Token} {t : Expr} {k : Nat} : Nested .term ts t k → Nested .expr ts t k
  | sum {ts us : List Token} {l r : Expr} {j k : Nat} {o : Op} : o.isTight = false →
      Nested .expr ts l j → Nested .term us r k →
      Nested .expr (ts ++ .op o :: us) (.binary (.op o) l r) (max j k)
  | ofUnary {ts : List Token} {t : Expr} {k : Nat} : Nested .unary ts t k → Nested .term ts t k
  | product {ts us : List Token} {l r : Expr} {j k : Nat} {o : Op} : o.isTight = true →
      Nested .term ts l j → Nested .unary us r k →
      Nested .term (ts ++ .op o :: us) (.binary (.op o) l r) (max j k)
  | minus {ts : List Token} {u t : Expr} {k : Nat} : Nested .unary ts u k → Negates u t →
      Nested .unary (.op .sub :: ts) t (k + 1)
  | ofPrimary {ts : List Token} {t : Expr} {k : Nat} : Nested .primary ts t k →
      Nested .unary ts t k
  | integer (s : String) : Nested .primary [.integer s] (.integer s) 0
  | decimal (s : String) : Nested .primary [.decimal s] (.decimal s) 0
  | name (s : String) : Nested .primary [.name s] (.var s) 0
  | parens {ts : List Token} {t : Expr} {k : Nat} : Nested .expr ts t k →
      Nested .primary (.leftParen :: ts ++ [.rightParen]) t (k + 1)

/-- The number that goes with the derivation of a text. -/
def NestsTo (s : String) (k : Nat) : Prop := ∃ ts t, tokenize s = .ok ts ∧ Nested .expr ts t k

section
variable {p : Phrase} {ts : List Token} {t : Expr} {k : Nat}

theorem Nested.derives (h : Nested p ts t k) : Derives p ts t := by
  induction h with
  | ofTerm _ ih => exact .ofTerm ih
  | sum ho _ _ ihl ihr => exact .sum ho ihl ihr
  | ofUnary _ ih => exact .ofUnary ih
  | product ho _ _ ihl ihr => exact .product ho ihl ihr
  | minus _ hn ih => exact .minus ih hn
  | ofPrimary _ ih => exact .ofPrimary ih
  | integer s => exact .integer s
  | decimal s => exact .decimal s
  | name s => exact .name s
  | parens _ ih => exact .parens ih

theorem Derives.exists_nested (h : Derives p ts t) : ∃ k, Nested p ts t k := by
  induction h with
  | ofTerm _ ih => obtain ⟨k, hk⟩ := ih; exact ⟨k, .ofTerm hk⟩
  | sum ho _ _ ihl ihr =>
    obtain ⟨j, hj⟩ := ihl
    obtain ⟨k, hk⟩ := ihr
    exact ⟨_, .sum ho hj hk⟩
  | ofUnary _ ih => obtain ⟨k, hk⟩ := ih; exact ⟨k, .ofUnary hk⟩
  | product ho _ _ ihl ihr =>
    obtain ⟨j, hj⟩ := ihl
    obtain ⟨k, hk⟩ := ihr
    exact ⟨_, .product ho hj hk⟩
  | minus _ hn ih => obtain ⟨k, hk⟩ := ih; exact ⟨_, .minus hk hn⟩
  | ofPrimary _ ih => obtain ⟨k, hk⟩ := ih; exact ⟨k, .ofPrimary hk⟩
  | integer s => exact ⟨_, .integer s⟩
  | decimal s => exact ⟨_, .decimal s⟩
  | name s => exact ⟨_, .name s⟩
  | parens _ ih => obtain ⟨k, hk⟩ := ih; exact ⟨_, .parens hk⟩

end

/-! ## Trees that fit a limit -/

/-- The expression is a single leaf, or no deeper than the limit allows. -/
def FitsIn (n : Nat) (t : Expr) : Prop := t.isLeaf = true ∨ t.depth ≤ n

section
variable {n : Nat}

theorem FitsIn.leaf {k : Kind} {s : String} : FitsIn n (.leaf k s) := .inl rfl

theorem fitsIn_binary_iff {k : Kind} {l r : Expr} :
    FitsIn n (.binary k l r) ↔ (Expr.binary k l r).depth ≤ n := by
  simp [FitsIn, Tree.isLeaf]

theorem FitsIn.operands {k : Kind} {l r : Expr} (h : FitsIn n (.binary k l r)) :
    FitsIn n l ∧ FitsIn n r := by
  rw [fitsIn_binary_iff, Tree.depth_branch] at h
  exact ⟨.inr (by omega), .inr (by omega)⟩

/-- What stays below a minus sign is no deeper than what the sign makes of it. -/
theorem FitsIn.of_negates {u t : Expr} (hn : Negates u t) (h : FitsIn n t) : FitsIn n u := by
  cases hn with
  | sign _ _ | unsign _ => exact .leaf
  | scale _ => exact h.operands.2

/-- A tree that fits has room for a walk, unless the limit allows nothing at all. -/
theorem FitsIn.depth_le {t : Expr} (h : FitsIn n t) (hn : 1 ≤ n) : t.depth ≤ n := by
  rcases h with h | h
  · obtain ⟨a, l, r⟩ := t
    simp only [Tree.isLeaf, Tree.left_node, Tree.right_node, Bool.and_eq_true,
      Option.isNone_iff_eq_none] at h
    obtain ⟨rfl, rfl⟩ := h
    rw [Tree.depth_leaf]
    exact hn
  · exact h

end

namespace Parser

variable {n : Nat}

/-! ## What is built under a limit -/

theorem combine_some_eq_ok_iff {o : Op} {l r v : Operand} :
    combine (some n) o l r = .ok v ↔
      FitsIn n (.binary (.op o) l.expr r.expr) ∧
        v = .ofExpr (.binary (.op o) l.expr r.expr) := by
  obtain ⟨l, _, rfl⟩ := l
  obtain ⟨r, _, rfl⟩ := r
  rw [fitsIn_binary_iff, Tree.depth_branch]
  simp only [combine, bind_eq_ok_iff]
  constructor
  · rintro ⟨⟨⟩, hd, hv⟩
    cases hv
    exact ⟨Limit.check_some_eq_ok_iff.1 hd, rfl⟩
  · rintro ⟨hd, rfl⟩
    exact ⟨(), Limit.check_some_eq_ok_iff.2 hd, rfl⟩

theorem combine_fits {o : Op} {l r v : Operand} (h : combine (some n) o l r = .ok v) :
    FitsIn n v.expr := by
  obtain ⟨hf, rfl⟩ := combine_some_eq_ok_iff.1 h
  exact hf

theorem negate_fits {u v : Operand} (h : negate (some n) u = .ok v) : FitsIn n v.expr := by
  unfold negate at h
  split at h
  · cases h; exact .leaf
  · cases h; exact .leaf
  · exact combine_fits h

theorem negateTimes_fits {m : Nat} {u v : Operand} (hu : FitsIn n u.expr)
    (h : negateTimes (some n) m u = .ok v) : FitsIn n v.expr := by
  induction m generalizing u with
  | zero => cases h; exact hu
  | succ m ih =>
    simp only [negateTimes, bind_eq_ok_iff] at h
    obtain ⟨w, hw, h⟩ := h
    exact ih (negate_fits hw) h

theorem supply_fits {pending : Option Pending} {u v : Operand} (hu : FitsIn n u.expr)
    (h : supply (some n) pending u = .ok v) : FitsIn n v.expr := by
  cases pending with
  | none => cases h; exact hu
  | some p => exact combine_fits h

theorem fill_fits {slot : Slot} {u v : Operand} (hu : FitsIn n u.expr)
    (h : slot.fill (some n) u = .ok v) : FitsIn n v.expr := by
  simp only [Slot.fill, bind_eq_ok_iff] at h
  obtain ⟨w, hw, h⟩ := h
  exact supply_fits (negateTimes_fits hu hw) h

/-- Where a minus sign leads to a tree that fits, it can be applied. -/
theorem negate_some_of_negates {u t : Expr} (hn : Negates u t)
    (hu : u.kind.role = .literal → u = .leaf u.kind u.literal) (ht : FitsIn n t) :
    negate (some n) (.ofExpr u) = .ok (.ofExpr t) := by
  rcases negate_cutBy (Limit.none_looser (some n)) (.ofExpr u) with h | h
  · rw [h, negate_none_of_negates hn hu]
  · -- only a product can be refused, and this one fits
    cases hn with
    | sign hk _ => rw [negate_number hk] at h; cases h
    | unsign hk => rw [negate_number hk] at h; cases h
    | scale hs =>
      have hc : combine (some n) .mul (.leaf .integer "-1") (.ofExpr u) = .ok _ :=
        combine_some_eq_ok_iff.2 ⟨ht, rfl⟩
      unfold negate at h
      split at h
      · cases h
      · cases h
      · rw [hc] at h
        cases h

/-! ## Nothing is accepted that does not fit -/

/-- The operand that a state holds fits the limit. -/
def State.Fits (n : Nat) : State → Prop
  | .awaiting _ _ => True
  | .holding term _ _ => FitsIn n term.expr

theorem Step.fits {s s' : State} {t : Token} (h : Step (some n) s t s') (hs : s.Fits n) :
    s'.Fits n := by
  cases h with
  | leaf _ hv => exact fill_fits .leaf hv
  | minus _ | leftParen _ | factor _ | term _ _ => trivial
  | rightParen hu hv => exact fill_fits (supply_fits hs hu) hv

theorem Reads.fits {s s' : State} {ts : List Token} (h : Reads (some n) s ts s') (hs : s.Fits n) :
    s'.Fits n := by
  induction ts generalizing s with
  | nil =>
    obtain rfl := reads_nil.1 h
    exact hs
  | cons t ts ih =>
    obtain ⟨s₁, h₁, h⟩ := reads_cons.1 h
    exact ih h (h₁.fits hs)

theorem run_fits {ts : List Token} {t : Expr} (h : run (some n) ts = .ok t) : FitsIn n t := by
  simp only [run, bind_eq_ok_iff] at h
  obtain ⟨s, hs, ht⟩ := h
  have hf : s.Fits n := Reads.fits hs trivial
  cases s with
  | awaiting _ _ => cases ht
  | holding term chain outer =>
    simp only [finish, bind_eq_ok_iff] at ht
    obtain ⟨u, hu, ht⟩ := ht
    cases outer with
    | nil => cases ht; exact supply_fits hf hu
    | cons _ _ => cases ht

/-- The places where a phrase of each kind may begin. -/
def Begins : Phrase → Slot → Prop
  | .expr, slot => slot = .first slot.chain.level
  | .term, slot => slot = ⟨slot.chain, none, 0⟩
  | .unary, _ | .primary, _ => True

theorem begins_expr (level : Nat) : Begins .expr (.first level) := rfl

theorem begins_term (chain : Chain) : Begins .term ⟨chain, none, 0⟩ := rfl

/-- A phrase that was read under the limit opened no more levels than the limit had left, and the
parser is back at the level of the place where the phrase began. -/
theorem level_add_le_of_reads {p : Phrase} {ts : List Token} {t : Expr} {k : Nat}
    (h : Nested p ts t k) (slot : Slot) {outer : List Slot} {s' : State} (hp : Begins p slot)
    (hl : slot.level ≤ n) (hr : Reads (some n) (.awaiting slot outer) ts s') :
    slot.level + k ≤ n ∧ ∃ term sum, s' = .holding term ⟨slot.chain.level, sum⟩ outer := by
  induction h generalizing slot outer s' with
  | ofTerm _ ih => exact ih slot (by rw [hp]; rfl) hl hr
  | ofUnary _ ih | ofPrimary _ ih => exact ih slot trivial hl hr
  | sum ho _ _ ihl ihr =>
    obtain ⟨s₁, h₁, hr⟩ := reads_append.1 hr
    obtain ⟨hj, term, sum, rfl⟩ := ihl slot hp hl h₁
    obtain ⟨s₂, h₂, hr⟩ := reads_cons.1 hr
    cases h₂ with
    | factor ht => rw [ho] at ht; cases ht
    | term _ _ =>
      have hlevel : slot.level = slot.chain.level := by rw [hp]; rfl
      obtain ⟨hk, hs⟩ := ihr _ (begins_term _) (by simpa [Slot.level] using hlevel ▸ hl) hr
      simp only [Slot.level, Nat.add_zero] at hk
      exact ⟨by omega, hs⟩
  | product ho _ _ ihl ihr =>
    obtain ⟨s₁, h₁, hr⟩ := reads_append.1 hr
    obtain ⟨hj, term, sum, rfl⟩ := ihl slot hp hl h₁
    obtain ⟨s₂, h₂, hr⟩ := reads_cons.1 hr
    cases h₂ with
    | term ht _ => rw [ho] at ht; cases ht
    | factor _ =>
      have hlevel : slot.level = slot.chain.level := by rw [hp]; rfl
      obtain ⟨hk, hs⟩ := ihr _ trivial (by simpa [Slot.level] using hlevel ▸ hl) hr
      simp only [Slot.level, Nat.add_zero] at hk
      exact ⟨by omega, hs⟩
  | minus _ _ ih =>
    obtain ⟨s₁, h₁, hr⟩ := reads_cons.1 hr
    cases h₁ with
    | leaf ht _ => cases ht
    | minus hc =>
      have hc := Limit.check_some_eq_ok_iff.1 hc
      obtain ⟨hk, hs⟩ := ih _ trivial (by simpa [Slot.level, Nat.add_assoc] using hc) hr
      simp only [Slot.level] at hk ⊢
      exact ⟨by omega, hs⟩
  | integer s | decimal s | name s =>
    obtain ⟨s₁, h₁, hr⟩ := reads_cons.1 hr
    obtain rfl := reads_nil.1 hr
    cases h₁ with
    | leaf _ _ => exact ⟨hl, _, _, rfl⟩
  | parens _ ih =>
    rw [List.cons_append] at hr
    obtain ⟨s₁, h₁, hr⟩ := reads_cons.1 hr
    cases h₁ with
    | leaf ht _ => cases ht
    | leftParen hc =>
      have hc := Limit.check_some_eq_ok_iff.1 hc
      obtain ⟨s₂, h₂, hr⟩ := reads_append.1 hr
      obtain ⟨hk, term, sum, rfl⟩ :=
        ih _ (begins_expr _) (by simpa [Slot.level, Slot.first] using hc) h₂
      obtain ⟨s₃, h₃, hr⟩ := reads_cons.1 hr
      obtain rfl := reads_nil.1 hr
      cases h₃ with
      | rightParen _ _ =>
        simp only [Slot.level, Slot.first] at hk ⊢
        exact ⟨by omega, _, _, rfl⟩

/-! ## Nothing is refused that fits -/

/-- Reading the tokens of a phrase under the limit from any place with room for it. -/
def Admitted (n : Nat) : Phrase → List Token → Expr → Nat → Prop
  | .primary, ts, t, k | .unary, ts, t, k => ∀ (slot : Slot) (outer : List Slot) (v : Operand),
      slot.level + k ≤ n → FitsIn n t → slot.fill (some n) (.ofExpr t) = .ok v →
      Reads (some n) (.awaiting slot outer) ts (.holding v slot.chain outer)
  | .term, ts, t, k => ∀ (chain : Chain) (outer : List Slot),
      chain.level + k ≤ n → FitsIn n t →
      Reads (some n) (.awaiting ⟨chain, none, 0⟩ outer) ts (.holding (.ofExpr t) chain outer)
  | .expr, ts, t, k => ∀ (level : Nat) (outer : List Slot),
      level + k ≤ n → FitsIn n t → ∃ term sum,
      Reads (some n) (.awaiting (.first level) outer) ts (.holding term ⟨level, sum⟩ outer) ∧
        supply (some n) sum term = .ok (.ofExpr t)

theorem admitted_of_nested {p : Phrase} {ts : List Token} {t : Expr} {k : Nat}
    (h : Nested p ts t k) : Admitted n p ts t k := by
  induction h with
  | ofTerm _ ih =>
    intro level outer hk ht
    exact ⟨_, none, ih ⟨level, none⟩ outer hk ht, rfl⟩
  | @sum ts us l r j k o ho _ _ ihl ihr =>
    intro level outer hk ht
    obtain ⟨hl, hr⟩ := ht.operands
    obtain ⟨term, sum, hread, hs⟩ := ihl level outer (by omega) hl
    refine ⟨.ofExpr r, some ⟨.ofExpr l, o⟩, ?_, combine_some_eq_ok_iff.2 ⟨ht, rfl⟩⟩
    exact hread.trans (.cons (.term ho hs)
      (ihr ⟨level, some ⟨.ofExpr l, o⟩⟩ outer (by simp only; omega) hr))
  | ofUnary _ ih =>
    intro chain outer hk ht
    exact ih ⟨chain, none, 0⟩ outer _ hk ht rfl
  | @product ts us l r j k o ho _ _ ihl ihr =>
    intro chain outer hk ht
    obtain ⟨hl, hr⟩ := ht.operands
    refine (ihl chain outer (by omega) hl).trans (.cons (.factor ho) ?_)
    refine ihr ⟨chain, some ⟨.ofExpr l, o⟩, 0⟩ outer _ (by simp only [Slot.level]; omega) hr ?_
    exact combine_some_eq_ok_iff.2 ⟨ht, rfl⟩
  | @minus ts u t k hu hn ih =>
    intro slot outer v hk ht hv
    have hc : Limit.check (some n) (slot.level + 1) = .ok () :=
      Limit.check_some_eq_ok_iff.2 (by omega)
    refine .cons (.minus hc) (ih { slot with minuses := slot.minuses + 1 } outer v ?_
      (ht.of_negates hn) ?_)
    · simp only [Slot.level] at hk ⊢
      omega
    · simpa [Slot.fill, negateTimes, negate_some_of_negates hn hu.derives.eq_leaf ht] using hv
  | ofPrimary _ ih => exact ih
  | integer s =>
    intro slot outer v _ _ hv
    exact (Step.leaf (.integer s) hv).reads
  | decimal s =>
    intro slot outer v _ _ hv
    exact (Step.leaf (.decimal s) hv).reads
  | name s =>
    intro slot outer v _ _ hv
    exact (Step.leaf (.name s) hv).reads
  | parens _ ih =>
    intro slot outer v hk ht hv
    have hc : Limit.check (some n) (slot.level + 1) = .ok () :=
      Limit.check_some_eq_ok_iff.2 (by omega)
    obtain ⟨term, sum, hr, hs⟩ := ih (slot.level + 1) (slot :: outer) (by omega) ht
    exact .cons (.leftParen hc) (hr.trans (Step.rightParen hs hv).reads)

/-! ## The parser under a limit and the grammar -/

/-- Under a limit the parser accepts just the expressions whose nesting and tree fit it. -/
theorem run_some_eq_ok_iff {ts : List Token} {t : Expr} {k : Nat} (h : Nested .expr ts t k) :
    run (some n) ts = .ok t ↔ k ≤ n ∧ FitsIn n t := by
  constructor
  · intro hr
    refine ⟨?_, run_fits hr⟩
    simp only [run, bind_eq_ok_iff] at hr
    obtain ⟨s, hs, -⟩ := hr
    have hl := (level_add_le_of_reads h _ (begins_expr 0) (Nat.zero_le n) hs).1
    simpa [Slot.level, Slot.first] using hl
  · rintro ⟨hk, ht⟩
    obtain ⟨term, sum, hr, hs⟩ := admitted_of_nested h 0 [] (by omega) ht
    simp only [run, bind_eq_ok_iff]
    exact ⟨_, hr, by simp [finish, hs]⟩

/-- A phrase is read from a level exactly under the limits that leave room for its nesting, so two
derivations of it open the same number of levels. -/
theorem nesting_le {ts : List Token} {t u : Expr} {j k : Nat} (hj : Nested .expr ts t j)
    (hk : Nested .expr ts u k) : k ≤ j := by
  have hfit : FitsIn (t.depth + j) t := .inr (by omega)
  obtain ⟨term, sum, hr, -⟩ := admitted_of_nested hj t.depth [] (by omega) hfit
  have hroom : (Slot.first t.depth).level ≤ t.depth + j := by simp [Slot.level, Slot.first]
  have hl := (level_add_le_of_reads hk _ (begins_expr t.depth) hroom hr).1
  simp only [Slot.level, Slot.first] at hl
  omega

end Parser

theorem NestsTo.unique {s : String} {j k : Nat} (hj : NestsTo s j) (hk : NestsTo s k) : k = j := by
  obtain ⟨ts, t, hts, hj⟩ := hj
  obtain ⟨us, u, hus, hk⟩ := hk
  obtain rfl : ts = us := by rw [hts] at hus; cases hus; rfl
  exact Nat.le_antisymm (Parser.nesting_le hj hk) (Parser.nesting_le hk hj)

/-- A text that is parsed has a derivation, and with it a nesting. -/
theorem exists_nestsTo {s : String} {t : Expr} (h : parse none s = .ok t) : ∃ k, NestsTo s k := by
  obtain ⟨ts, hts, hr⟩ := parse_eq_ok_iff.1 h
  obtain ⟨k, hk⟩ := (Parser.run_none_eq_ok_iff.1 hr).exists_nested
  exact ⟨k, ts, t, hts, hk⟩

theorem parse_some_eq_ok_iff {n : Nat} {s : String} {t : Expr} :
    parse (some n) s = .ok t ↔
      parse none s = .ok t ∧ (∃ k, NestsTo s k ∧ k ≤ n) ∧ FitsIn n t := by
  constructor
  · intro h
    have hnone : parse none s = .ok t := by
      rcases parse_cutBy (Limit.none_looser (some n)) s with he | he
      · rw [← he, h]
      · rw [h] at he; cases he
    obtain ⟨ts, hts, hr⟩ := parse_eq_ok_iff.1 h
    obtain ⟨us, hus, hr'⟩ := parse_eq_ok_iff.1 hnone
    obtain rfl : ts = us := by rw [hts] at hus; cases hus; rfl
    obtain ⟨k, hk⟩ := (Parser.run_none_eq_ok_iff.1 hr').exists_nested
    obtain ⟨hle, ht⟩ := (Parser.run_some_eq_ok_iff hk).1 hr
    exact ⟨hnone, ⟨k, ⟨ts, t, hts, hk⟩, hle⟩, ht⟩
  · rintro ⟨hnone, ⟨k, ⟨ts, u, hts, hk⟩, hle⟩, ht⟩
    obtain ⟨us, hus, hr⟩ := parse_eq_ok_iff.1 hnone
    obtain rfl : ts = us := by rw [hts] at hus; cases hus; rfl
    obtain rfl : u = t := hk.derives.unique (Parser.run_none_eq_ok_iff.1 hr)
    exact parse_eq_ok_iff.2 ⟨ts, hts, (Parser.run_some_eq_ok_iff hk).2 ⟨hle, ht⟩⟩

theorem parse_none_of_parse {limit : Limit} {s : String} {t : Expr} (h : parse limit s = .ok t) :
    parse none s = .ok t := by
  cases limit with
  | none => exact h
  | some n => exact (parse_some_eq_ok_iff.1 h).1

end Expr

/-- **The parser under a limit** accepts exactly the texts that are parsed without one, whose
derivation never has more parentheses and minus signs open at once than the limit, and whose tree is
a single leaf or no deeper than the limit. A text that only the limit keeps out gets the fault of
the limit and no other. What is parsed under a limit that allows anything at all is evaluated and
folded under it without meeting that fault. -/
theorem parse_limit (s : String) :
    (∀ t, Expr.parse none s = .ok t → ∃! k, Expr.NestsTo s k) ∧
    (∀ n t, Expr.parse (some n) s = .ok t ↔
      Expr.parse none s = .ok t ∧ (∃ k, Expr.NestsTo s k ∧ k ≤ n) ∧
        (t.isLeaf = true ∨ t.depth ≤ n)) ∧
    (∀ n t, Expr.parse none s = .ok t → (∀ u, Expr.parse (some n) s ≠ .ok u) →
      Expr.parse (some n) s = .error [.depthLimit n]) ∧
    (∀ n t, 1 ≤ n → Expr.parse (some n) s = .ok t → ∀ m,
      Engine.evaluate ⟨some n⟩ t ≠ .error (.depthLimit m) ∧
        (Engine.fold ⟨some n⟩ t).result ≠ .error (.depthLimit m)) := by
  refine ⟨?_, ?_, ?_, ?_⟩
  · intro t ht
    obtain ⟨k, hk⟩ := Expr.exists_nestsTo ht
    exact ⟨k, hk, fun j hj => hk.unique hj⟩
  · intro n t
    exact Expr.parse_some_eq_ok_iff
  · intro n t ht hno
    rcases Expr.parse_cutBy (Limit.none_looser (some n)) s with h | h
    · rw [ht] at h
      exact absurd h (hno t)
    · exact h
  · intro n t hn ht m
    have hdepth := (Expr.parse_some_eq_ok_iff.1 ht).2.2.depth_le hn
    refine ⟨Expr.evaluateAt_unrefused (d := 1) (by omega) m, ?_⟩
    rw [Engine.fold, Expr.result_fold]
    exact Expr.result_foldAt_unrefused (by omega) m

/-- A sign, a parenthesis and a sign are open at once over the last number, so the text needs a
limit of three, and its tree is as deep. -/
theorem parse_limit_signs :
    let t : Expr := .binary (.op .mul) (.integer "-1")
      (.binary (.op .sub) (.var "x") (.integer "-2"))
    (∃! k, Expr.NestsTo "-(x - -2)" k) ∧
    Expr.parse (some 2) "-(x - -2)" = .error [.depthLimit 2] ∧
    Expr.parse (some 3) "-(x - -2)" = .ok t ∧
    Engine.evaluate ⟨some 3⟩ t ≠ .error (.depthLimit 3) ∧
    (Engine.fold ⟨some 3⟩ t).result ≠ .error (.depthLimit 3) := by
  have hnone : Expr.parse none "-(x - -2)" = .ok (.binary (.op .mul) (.integer "-1")
      (.binary (.op .sub) (.var "x") (.integer "-2"))) := by cbv
  have hthree : Expr.parse (some 3) "-(x - -2)" = .ok (.binary (.op .mul) (.integer "-1")
      (.binary (.op .sub) (.var "x") (.integer "-2"))) := by cbv
  have htwo : Expr.parse (some 2) "-(x - -2)" = .error [.depthLimit 2] := by cbv
  have h := parse_limit "-(x - -2)"
  refine ⟨h.1 _ hnone, h.2.2.1 2 _ hnone ?_, hthree, h.2.2.2 3 _ (by decide) hthree 3⟩
  intro u hu
  rw [htwo] at hu
  cases hu

end ExprFold
