import ExprFold.Expr.Descent
import ExprFold.Proofs.EndMark
import ExprFold.Proofs.ParserSteps
import Mathlib.Logic.Relation

/-!
# The steps of recursive descent

`Move` and `Halt` say once what a run can do where its position is among the tokens and its count is
what is open: it goes on or it ends, and never for want of a token or of something to take from the
count (`Valid.proceeds`). A move keeps such a configuration one (`Move.valid`), and it makes less
what remains (`Move.remaining_lt`), though at the end of the tokens the position stays. So every run
ends (`Valid.exists_ends`). A call moves on before it returns (`Move.past`), and it returns unless
the run ends with an error (`Valid.returns_or_ends`).
-/

namespace ExprFold.Expr.Descent

open ExprFold.Expr.Parser

/-! ## What a run can do -/

/-- Parentheses and minus signs open with a call. -/
def Frame.opens : Frame → Bool
  | .minus | .parens => true
  | .first _ | .right _ _ _ => false

/-- How many parentheses and minus signs are open in the calls that have not returned. -/
def opened (frames : List Frame) : Nat := frames.countP Frame.opens

@[simp] theorem opened_cons (f : Frame) (fs : List Frame) :
    opened (f :: fs) = opened fs + if f.opens then 1 else 0 := List.countP_cons

/-- The position is among the tokens, and the count is what is open. -/
structure Valid (ts : List Token) (c : Config) : Prop where
  pos : c.pos < (marked ts).length
  nesting : c.nesting = opened c.frames

/-- How a result ends a run. -/
def Ending.of : Except Error Expr → Ending
  | .ok e => .value e
  | .error e => .error e

/-- The token goes on with a chain of this kind. -/
def Continues (tight : Bool) (t : Option Token) : Prop :=
  ∃ o : Op, t = some (.op o) ∧ o.isTight = tight

/-- What can come next in a run. -/
inductive Move (limit : Limit) (ts : List Token) : Config → Config → Prop
  | additive {fs : List Frame} {i n : Nat} :
      Move limit ts ⟨.call .additive, fs, i, n⟩ ⟨.call .multiplicative, .first false :: fs, i, n⟩
  | multiplicative {fs : List Frame} {i n : Nat} :
      Move limit ts ⟨.call .multiplicative, fs, i, n⟩ ⟨.call .unary, .first true :: fs, i, n⟩
  | minus {fs : List Frame} {i n : Nat} : ts[i]? = some (.op .sub) → limit.check (n + 1) = .ok () →
      Move limit ts ⟨.call .unary, fs, i, n⟩ ⟨.call .unary, .minus :: fs, i + 1, n + 1⟩
  | primary {fs : List Frame} {i n : Nat} : ts[i]? ≠ some (.op .sub) →
      Move limit ts ⟨.call .unary, fs, i, n⟩ ⟨.call .primary, fs, i, n⟩
  | leaf {fs : List Frame} {i n : Nat} {t : Token} {k : Kind} {s : String} : ts[i]? = some t →
      LeafToken t k s →
      Move limit ts ⟨.call .primary, fs, i, n⟩ ⟨.give (.leaf k s), fs, i + 1, n⟩
  | parens {fs : List Frame} {i n : Nat} : ts[i]? = some .leftParen →
      limit.check (n + 1) = .ok () →
      Move limit ts ⟨.call .primary, fs, i, n⟩ ⟨.call .additive, .parens :: fs, i + 1, n + 1⟩
  | operator {fs : List Frame} {i n : Nat} {tight : Bool} {l : Operand} {o : Op} :
      ts[i]? = some (.op o) → o.isTight = tight →
      Move limit ts ⟨.extend tight l, fs, i, n⟩
        ⟨.call (if tight then .unary else .multiplicative), .right tight o l :: fs, i + 1, n⟩
  | last {fs : List Frame} {i n : Nat} {tight : Bool} {l : Operand} : ¬Continues tight ts[i]? →
      Move limit ts ⟨.extend tight l, fs, i, n⟩ ⟨.give l, fs, i, n⟩
  | first {fs : List Frame} {i n : Nat} {tight : Bool} {u : Operand} :
      Move limit ts ⟨.give u, .first tight :: fs, i, n⟩ ⟨.extend tight u, fs, i, n⟩
  | right {fs : List Frame} {i n : Nat} {tight : Bool} {l r u : Operand} {o : Op} :
      combine limit o l r = .ok u →
      Move limit ts ⟨.give r, .right tight o l :: fs, i, n⟩ ⟨.extend tight u, fs, i, n⟩
  | negate {fs : List Frame} {i n : Nat} {u v : Operand} : negate limit u = .ok v →
      Move limit ts ⟨.give u, .minus :: fs, i, n + 1⟩ ⟨.give v, fs, i, n⟩
  | close {fs : List Frame} {i n : Nat} {u : Operand} : ts[i]? = some .rightParen →
      Move limit ts ⟨.give u, .parens :: fs, i, n + 1⟩ ⟨.give u, fs, i + 1, n⟩

/-- Where a run ends, and with which result. -/
inductive Halt (limit : Limit) (ts : List Token) : Config → Except Error Expr → Prop
  | minus {fs : List Frame} {i n : Nat} {e : Error} : ts[i]? = some (.op .sub) →
      limit.check (n + 1) = .error e → Halt limit ts ⟨.call .unary, fs, i, n⟩ (.error e)
  | parens {fs : List Frame} {i n : Nat} {e : Error} : ts[i]? = some .leftParen →
      limit.check (n + 1) = .error e → Halt limit ts ⟨.call .primary, fs, i, n⟩ (.error e)
  | operand {fs : List Frame} {i n : Nat} : (∀ t k s, ts[i]? = some t → ¬LeafToken t k s) →
      ts[i]? ≠ some .leftParen →
      Halt limit ts ⟨.call .primary, fs, i, n⟩ (.error (.invalidText (.expectedOperand ts[i]?)))
  | right {fs : List Frame} {i n : Nat} {tight : Bool} {l r : Operand} {o : Op} {e : Error} :
      combine limit o l r = .error e →
      Halt limit ts ⟨.give r, .right tight o l :: fs, i, n⟩ (.error e)
  | negate {fs : List Frame} {i n : Nat} {u : Operand} {e : Error} : negate limit u = .error e →
      Halt limit ts ⟨.give u, .minus :: fs, i, n⟩ (.error e)
  | unclosed {fs : List Frame} {i n : Nat} {u : Operand} : ts[i]? ≠ some .rightParen →
      Halt limit ts ⟨.give u, .parens :: fs, i, n⟩ (.error (.invalidText (.unclosedParen ts[i]?)))
  | trailing {i n : Nat} {u : Operand} {t : Token} : ts[i]? = some t →
      Halt limit ts ⟨.give u, [], i, n⟩ (.error (.invalidText (.trailing t)))
  | value {i n : Nat} {u : Operand} : ts[i]? = none →
      Halt limit ts ⟨.give u, [], i, n⟩ (.ok u.expr)

section
variable {limit : Limit} {ts : List Token} {control : Control} {fs : List Frame} {i n : Nat}

theorem Valid.look_eq (h : Valid ts ⟨control, fs, i, n⟩) :
    look (marked ts) ⟨control, fs, i, n⟩ = .ok ts[i]? := by
  rw [look, getElem?_marked h.pos]

/-- In front of the end the position moves. -/
theorem bump_eq {t : Token} (h : ts[i]? = some t) :
    bump (marked ts) ⟨control, fs, i, n⟩ = ⟨control, fs, i + 1, n⟩ :=
  if_pos (lt_of_getElem? h)

/-- Entering succeeds just when the limit allows one more. -/
theorem enter_cases (limit : Limit) (control : Control) (fs : List Frame) (i n : Nat) :
    (limit.check (n + 1) = .ok () ∧
        enter limit ⟨control, fs, i, n⟩ = .ok ⟨control, fs, i, n + 1⟩) ∨
      ∃ e, limit.check (n + 1) = .error e ∧
        enter limit ⟨control, fs, i, n⟩ = .error (.of (.error e)) := by
  simp only [enter]
  cases limit.check (n + 1) with
  | ok u => exact .inl ⟨rfl, rfl⟩
  | error e => exact .inr ⟨e, rfl, rfl⟩

/-- What is open can be left. -/
theorem Valid.leave_eq {f : Frame} (h : Valid ts ⟨control, f :: fs, i, n⟩) (hf : f.opens = true) :
    ∃ m, n = m + 1 ∧ ∀ j, leave ⟨control, f :: fs, j, n⟩ = .ok ⟨control, f :: fs, j, m⟩ := by
  have hn : n = opened fs + 1 := by
    have hnesting := h.nesting
    simpa [hf] using hnesting
  exact ⟨opened fs, hn, fun j => by rw [hn]; rfl⟩

/-! ### The cases of a step -/

/-- From the configuration a run goes on with a move or ends with a result. -/
def Proceeds (limit : Limit) (ts : List Token) (c : Config) : Prop :=
  (∃ c', step (marked ts) limit c = .ok c' ∧ Move limit ts c c') ∨
    ∃ r, step (marked ts) limit c = .error (.of r) ∧ Halt limit ts c r

theorem Valid.proceeds_unary (h : Valid ts ⟨.call .unary, fs, i, n⟩) :
    Proceeds limit ts ⟨.call .unary, fs, i, n⟩ := by
  simp only [Proceeds, step, stepCall, h.look_eq, ok_bind]
  by_cases hminus : ts[i]? = some (.op .sub)
  · simp only [hminus, bump_eq hminus]
    rcases enter_cases limit (.call .unary) fs (i + 1) n with ⟨hc, he⟩ | ⟨e, hc, he⟩
    · exact .inl ⟨_, by rw [he]; rfl, .minus hminus hc⟩
    · exact .inr ⟨_, by rw [he]; rfl, .minus hminus hc⟩
  · refine .inl ⟨_, ?_, .primary hminus⟩
    split
    · exact absurd ‹_› hminus
    · rfl

theorem Valid.proceeds_primary (h : Valid ts ⟨.call .primary, fs, i, n⟩) :
    Proceeds limit ts ⟨.call .primary, fs, i, n⟩ := by
  simp only [Proceeds, step, stepCall, h.look_eq, ok_bind]
  split
  · exact .inl ⟨_, by rw [bump_eq ‹_›]; rfl, .leaf ‹_› (.integer _)⟩
  · exact .inl ⟨_, by rw [bump_eq ‹_›]; rfl, .leaf ‹_› (.decimal _)⟩
  · exact .inl ⟨_, by rw [bump_eq ‹_›]; rfl, .leaf ‹_› (.name _)⟩
  · rename_i hparen
    rw [bump_eq hparen]
    rcases enter_cases limit (.call .primary) fs (i + 1) n with ⟨hc, he⟩ | ⟨e, hc, he⟩
    · exact .inl ⟨_, by rw [he]; rfl, .parens hparen hc⟩
    · exact .inr ⟨_, by rw [he]; rfl, .parens hparen hc⟩
  · rename_i hinteger hdecimal hname hparen
    refine .inr ⟨_, rfl, .operand ?_ hparen⟩
    rintro t k s ht (_ | _ | _)
    · exact hinteger _ ht
    · exact hdecimal _ ht
    · exact hname _ ht

theorem Valid.proceeds_extend {tight : Bool} {l : Operand}
    (h : Valid ts ⟨.extend tight l, fs, i, n⟩) :
    Proceeds limit ts ⟨.extend tight l, fs, i, n⟩ := by
  simp only [Proceeds, step, stepExtend, h.look_eq, ok_bind]
  by_cases hcontinues : Continues tight ts[i]?
  · obtain ⟨o, ho, htight⟩ := hcontinues
    simp only [ho, bump_eq ho, if_pos htight]
    exact .inl ⟨_, rfl, .operator ho htight⟩
  · refine .inl ⟨_, ?_, .last hcontinues⟩
    split
    · rename_i o ho
      rw [if_neg fun htight => hcontinues ⟨o, ho, htight⟩]
      rfl
    · rfl

theorem Valid.proceeds_give {u : Operand} (h : Valid ts ⟨.give u, fs, i, n⟩) :
    Proceeds limit ts ⟨.give u, fs, i, n⟩ := by
  cases fs with
  | nil =>
    simp only [Proceeds, step, stepGive, h.look_eq, ok_bind]
    cases ht : ts[i]? with
    | none => exact .inr ⟨_, rfl, .value ht⟩
    | some t => exact .inr ⟨_, rfl, .trailing ht⟩
  | cons f fs =>
    cases f with
    | first tight => exact .inl ⟨_, rfl, .first⟩
    | right tight o l =>
      simp only [Proceeds, step, stepGive]
      cases hcombine : combine limit o l u with
      | ok v => exact .inl ⟨_, rfl, .right hcombine⟩
      | error e => exact .inr ⟨_, rfl, .right hcombine⟩
    | minus =>
      -- The frame itself is open, so the count is not zero.
      obtain ⟨m, rfl, hleave⟩ := h.leave_eq rfl
      simp only [Proceeds, step, stepGive, hleave, ok_bind]
      cases hnegate : Parser.negate limit u with
      | ok v => exact .inl ⟨_, rfl, .negate hnegate⟩
      | error e => exact .inr ⟨_, rfl, .negate hnegate⟩
    | parens =>
      obtain ⟨m, rfl, hleave⟩ := h.leave_eq rfl
      simp only [Proceeds, step, stepGive, h.look_eq, ok_bind]
      by_cases hparen : ts[i]? = some .rightParen
      · simp only [hparen, bump_eq hparen, hleave, ok_bind]
        exact .inl ⟨_, rfl, .close hparen⟩
      · refine .inr ⟨_, ?_, .unclosed hparen⟩
        split
        · exact absurd ‹_› hparen
        · rfl

/-- A run goes on or it ends with a result, where its position is among the tokens and its count is
what is open. -/
theorem Valid.proceeds {c : Config} (h : Valid ts c) : Proceeds limit ts c := by
  obtain ⟨control, fs, i, n⟩ := c
  cases control with
  | call p =>
    cases p with
    | additive => exact .inl ⟨_, rfl, .additive⟩
    | multiplicative => exact .inl ⟨_, rfl, .multiplicative⟩
    | unary => exact h.proceeds_unary
    | primary => exact h.proceeds_primary
  | extend tight l => exact h.proceeds_extend
  | give u => exact h.proceeds_give

end

/-! ## Every move goes towards the end -/

/-- How many steps a call can take before it reads a token, those of the frames it leaves behind
included. -/
def Procedure.weight : Procedure → Nat
  | .additive => 7
  | .multiplicative => 4
  | .unary => 1
  | .primary => 0

def Control.weight : Control → Nat
  | .call p => p.weight
  | .extend _ _ => 1
  | .give _ => 0

/-- How many steps a return to the frame can take before it reads a token. -/
def Frame.weight : Frame → Nat
  | .first _ | .right _ _ _ => 2
  | .minus => 1
  | .parens => 0

/-- What all the returns can take. -/
def unwinding : List Frame → Nat
  | [] => 0
  | f :: fs => f.weight + unwinding fs

/-- The tokens that remain, and what can be done without reading one. A token counts for more than
the call that is made behind it. -/
def remaining (ts : List Token) (c : Config) : Nat :=
  8 * ((marked ts).length - c.pos) + c.control.weight + unwinding c.frames

/-- The position is not in front of the place, and where no call comes next it is behind it. -/
def Config.Past (i : Nat) (c : Config) : Prop :=
  match c.control with
  | .call _ => i ≤ c.pos
  | .extend _ _ | .give _ => i < c.pos

section
variable {limit : Limit} {ts : List Token} {c c' : Config} {i : Nat}

theorem Move.valid (hmove : Move limit ts c c') (h : Valid ts c) : Valid ts c' := by
  obtain ⟨hpos, hnesting⟩ := h
  constructor
  · cases hmove with
    | minus ht | leaf ht | parens ht | operator ht | close ht => exact lt_of_getElem? ht
    | additive | multiplicative | primary | last | first | right | negate => exact hpos
  · cases hmove <;> simp_all [Frame.opens]

theorem Move.remaining_lt (hmove : Move limit ts c c') : remaining ts c' < remaining ts c := by
  cases hmove with
  | minus ht | leaf ht | parens ht | close ht =>
    -- The token that is read is not the last, so the position is not kept.
    have hlt := lt_of_getElem? ht
    simp only [remaining, unwinding, Control.weight, Procedure.weight, Frame.weight]
    omega
  | @operator _ _ _ tight _ _ ht =>
    have hlt := lt_of_getElem? ht
    have hweight : (if tight then Procedure.unary else .multiplicative).weight ≤ 4 := by
      cases tight <;> decide
    simp only [remaining, unwinding, Control.weight, Frame.weight]
    omega
  | additive | multiplicative | primary | last | first | right | negate =>
    simp only [remaining, unwinding, Control.weight, Procedure.weight, Frame.weight]
    omega

theorem Move.past (hmove : Move limit ts c c') (h : c.Past i) : c'.Past i := by
  cases hmove <;> simp only [Config.Past] at h ⊢ <;> omega

end

/-! ## Runs -/

/-- A run gets from the first configuration to the second. -/
def Reaches (limit : Limit) (ts : List Token) : Config → Config → Prop :=
  Relation.ReflTransGen fun c c' => step (marked ts) limit c = .ok c'

section
variable {limit : Limit} {ts : List Token} {c c' c'' : Config} {i : Nat}

/-- Each step is a move. -/
theorem Valid.move_of_step (h : Valid ts c) (hstep : step (marked ts) limit c = .ok c') :
    Move limit ts c c' := by
  rcases h.proceeds with ⟨c'', hc, hmove⟩ | ⟨r, hr, -⟩
  · cases hc.symm.trans hstep
    exact hmove
  · cases hr.symm.trans hstep

/-- A run ends with a result. -/
theorem Valid.halt_of_step {e : Ending} (h : Valid ts c)
    (hstep : step (marked ts) limit c = .error e) : ∃ r, e = .of r ∧ Halt limit ts c r := by
  rcases h.proceeds with ⟨c', hc, -⟩ | ⟨r, hr, hhalt⟩
  · cases hc.symm.trans hstep
  · cases hr.symm.trans hstep
    exact ⟨r, rfl, hhalt⟩

theorem valid_start : Valid ts start := ⟨by simp [start, length_marked], rfl⟩

theorem Reaches.valid (hreaches : Reaches limit ts c c') (h : Valid ts c) : Valid ts c' := by
  induction hreaches with
  | refl => exact h
  | tail _ hstep ih => exact (ih.move_of_step hstep).valid ih

theorem Reaches.past (hreaches : Reaches limit ts c c') (h : Valid ts c) (hpast : c.Past i) :
    c'.Past i := by
  induction hreaches with
  | refl => exact hpast
  | tail hreaches hstep ih => exact ((Reaches.valid hreaches h).move_of_step hstep).past ih

/-- Every run comes to an end. -/
theorem Valid.exists_ends (limit : Limit) (h : Valid ts c) : ∃ c' r, Reaches limit ts c c' ∧
    step (marked ts) limit c' = .error (.of r) ∧ Halt limit ts c' r := by
  induction hk : remaining ts c using Nat.strongRecOn generalizing c with
  | ind k ih =>
    rcases h.proceeds with ⟨c', hstep, hmove⟩ | ⟨r, hstep, hhalt⟩
    · obtain ⟨c'', r, hreaches, hend⟩ := ih _ (hk ▸ hmove.remaining_lt) (hmove.valid h) rfl
      exact ⟨c'', r, .head hstep hreaches, hend⟩
    · exact ⟨c, r, .refl, hstep, hhalt⟩

end

/-! ## Calls and returns -/

/-- A call returns: the run gets from the call to a result for the calls that were there before. -/
structure Returns (limit : Limit) (ts : List Token) (c c' : Config) : Prop where
  reaches : Reaches limit ts c c'
  call : ∃ p, c.control = .call p
  give : ∃ u, c'.control = .give u
  frames : c'.frames = c.frames

/-- The run is in a call that was made on the frames. -/
structure Config.Within (fs : List Frame) (c : Config) : Prop where
  suffix : fs <:+ c.frames
  not_returned : ∀ u, c.control = .give u → c.frames ≠ fs

section
variable {limit : Limit} {ts : List Token} {c c' : Config} {fs : List Frame}

/-- The call has read something. -/
theorem Returns.pos_lt (h : Returns limit ts c c') (hvalid : Valid ts c) : c.pos < c'.pos := by
  obtain ⟨hreaches, ⟨p, hp⟩, ⟨u, hu⟩, -⟩ := h
  have hpast : c'.Past c.pos := hreaches.past hvalid (by simp [Config.Past, hp])
  simpa [Config.Past, hu] using hpast

/-- What was opened in the call is closed. -/
theorem Returns.nesting_eq (h : Returns limit ts c c') (hvalid : Valid ts c) :
    c'.nesting = c.nesting := by
  rw [(h.reaches.valid hvalid).nesting, h.frames, hvalid.nesting]

/-- In the call a move never gets below the frames. -/
theorem Move.suffix (hmove : Move limit ts c c') (h : c.Within fs) : fs <:+ c'.frames := by
  obtain ⟨hsuffix, hne⟩ := h
  cases hmove with
  | additive | multiplicative | minus | parens | operator =>
    exact hsuffix.trans (List.suffix_cons _ _)
  | primary | leaf | last => exact hsuffix
  | first | right | negate | close =>
    exact (List.suffix_cons_iff.1 hsuffix).resolve_left fun heq => hne _ rfl heq.symm

/-- A run is in the call as long as it has not returned. -/
theorem Reaches.returns_or_within {p : Procedure} (hreaches : Reaches limit ts c c')
    (h : Valid ts c) (hcall : c.control = .call p) :
    (∃ c'', Returns limit ts c c'') ∨ c'.Within c.frames := by
  induction hreaches with
  | refl => exact .inr ⟨List.suffix_rfl, fun u hu => by simp [hcall] at hu⟩
  | @tail c₁ c₂ hreaches hstep ih =>
    rcases ih with hreturns | hwithin
    · exact .inl hreturns
    · have hmove := (Reaches.valid hreaches h).move_of_step hstep
      by_cases hend : (∃ u, c₂.control = .give u) ∧ c₂.frames = c.frames
      · exact .inl ⟨c₂, hreaches.tail hstep, ⟨p, hcall⟩, hend.1, hend.2⟩
      · exact .inr ⟨hmove.suffix hwithin, fun u hu hframes => hend ⟨⟨u, hu⟩, hframes⟩⟩

/-- Every call returns, unless the run ends with an error. -/
theorem Valid.returns_or_ends {p : Procedure} (h : Valid ts c) (hcall : c.control = .call p) :
    (∃ c', Returns limit ts c c') ∨
      ∃ c' e, Reaches limit ts c c' ∧ step (marked ts) limit c' = .error (.error e) := by
  obtain ⟨c', r, hreaches, hstep, hhalt⟩ := h.exists_ends limit
  rcases hreaches.returns_or_within h hcall with hreturns | hwithin
  · exact .inl hreturns
  · cases r with
    | error e => exact .inr ⟨c', e, hreaches, hstep⟩
    | ok e =>
      -- No call is left where a run ends with a value, so this one cannot be waiting.
      cases hhalt with
      | value _ =>
        have hnil := List.eq_nil_of_suffix_nil hwithin.suffix
        exact absurd hnil.symm (hwithin.not_returned _ rfl)

end

end ExprFold.Expr.Descent
