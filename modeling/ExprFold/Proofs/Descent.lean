import ExprFold.Proofs.ByteScan
import ExprFold.Proofs.DescentSteps

/-!
# Recursive descent is safe and ends

The calls that have not returned stand for what the parser that reads one token at a time has
pending: `AtSlot`, `AtChain` and `AtLevel` say how. With that, a configuration means the result
which that parser has for the rest of the text (`Means`). A move keeps the meaning (`Move.means`),
and a run that ends has it for its result (`Halt.means`). Main statement: `descent_safe`.
-/

namespace ExprFold.Expr.Descent

open ExprFold.Expr.Parser

/-! ## The parser that reads one token at a time -/

/-- What that parser makes of the remaining tokens. -/
def resume (limit : Limit) (s : State) (ts : List Token) : Except Error Expr := do
  Parser.finish limit (← ts.foldlM (Parser.step limit) s)

section
variable {limit : Limit} {s : State} {t : Token} {ts : List Token} {i n : Nat} {slot : Slot}
  {outer : List Slot} {u : Operand}

theorem resume_drop_eq_finish (h : ts[i]? = none) :
    resume limit s (ts.drop i) = Parser.finish limit s := by
  rw [List.drop_of_length_le (List.getElem?_eq_none_iff.1 h)]
  rfl

theorem resume_drop_eq_step (h : ts[i]? = some t) :
    resume limit s (ts.drop i) = (do resume limit (← Parser.step limit s t) (ts.drop (i + 1))) := by
  obtain ⟨hi, rfl⟩ := List.getElem?_eq_some_iff.1 h
  rw [resume, List.drop_eq_getElem_cons hi, List.foldlM_cons, bind_assoc]
  rfl

/-! ### Where an operand has to come -/

theorem resume_minus (h : ts[i]? = some (.op .sub)) :
    resume limit (.awaiting slot outer) (ts.drop i) = (do
      limit.check (slot.level + 1)
      resume limit (.awaiting { slot with minuses := slot.minuses + 1 } outer)
        (ts.drop (i + 1))) := by
  have hlevel : Slot.level { slot with minuses := slot.minuses + 1 } = slot.level + 1 := rfl
  simp [resume_drop_eq_step h, Parser.step, hlevel]

theorem resume_leftParen (h : ts[i]? = some .leftParen) :
    resume limit (.awaiting slot outer) (ts.drop i) = (do
      limit.check (slot.level + 1)
      resume limit (.awaiting (.first (slot.level + 1)) (slot :: outer)) (ts.drop (i + 1))) := by
  simp [resume_drop_eq_step h, Parser.step]

theorem resume_leaf {k : Kind} {text : String} (h : ts[i]? = some t) (hleaf : LeafToken t k text) :
    resume limit (.awaiting slot outer) (ts.drop i) = (do
      let u ← slot.fill limit (.leaf k text)
      resume limit (.holding u slot.chain outer) (ts.drop (i + 1))) := by
  rw [resume_drop_eq_step h]
  cases hleaf <;> simp [Parser.step, placeLeaf]

/-- Anything else is a fault. -/
theorem resume_expectedOperand (hleaf : ∀ t k s, ts[i]? = some t → ¬LeafToken t k s)
    (hparen : ts[i]? ≠ some .leftParen) (hminus : ts[i]? ≠ some (.op .sub)) :
    resume limit (.awaiting slot outer) (ts.drop i) =
      .error (.invalidText (.expectedOperand ts[i]?)) := by
  cases ht : ts[i]? with
  | none => exact resume_drop_eq_finish ht
  | some t =>
    rw [resume_drop_eq_step ht]
    cases t with
    | integer s => exact absurd (.integer s) (hleaf _ _ _ ht)
    | decimal s => exact absurd (.decimal s) (hleaf _ _ _ ht)
    | name s => exact absurd (.name s) (hleaf _ _ _ ht)
    | leftParen => exact absurd ht hparen
    | rightParen => rfl
    | op o =>
      cases o with
      | sub => exact absurd ht hminus
      | add | mul | div => rfl

/-! ### Behind an operand -/

theorem resume_factor {chain : Chain} {o : Op} (h : ts[i]? = some (.op o)) (ho : o.isTight = true) :
    resume limit (.holding u chain outer) (ts.drop i) =
      resume limit (.awaiting ⟨chain, some ⟨u, o⟩, 0⟩ outer) (ts.drop (i + 1)) := by
  simp [resume_drop_eq_step h, Parser.step, ho]

theorem resume_term {o : Op} (h : ts[i]? = some (.op o)) (ho : o.isTight = false) :
    resume limit (.holding u ⟨n, none⟩ outer) (ts.drop i) =
      resume limit (.awaiting ⟨⟨n, some ⟨u, o⟩⟩, none, 0⟩ outer) (ts.drop (i + 1)) := by
  simp [resume_drop_eq_step h, Parser.step, ho, supply]

theorem resume_rightParen (h : ts[i]? = some .rightParen) :
    resume limit (.holding u ⟨n, none⟩ (slot :: outer)) (ts.drop i) = (do
      let u ← slot.fill limit u
      resume limit (.holding u slot.chain outer) (ts.drop (i + 1))) := by
  simp [resume_drop_eq_step h, Parser.step, supply]

theorem resume_unclosedParen (hop : ∀ tight, ¬Continues tight ts[i]?)
    (hparen : ts[i]? ≠ some .rightParen) :
    resume limit (.holding u ⟨n, none⟩ (slot :: outer)) (ts.drop i) =
      .error (.invalidText (.unclosedParen ts[i]?)) := by
  cases ht : ts[i]? with
  | none => exact resume_drop_eq_finish ht
  | some t =>
    rw [resume_drop_eq_step ht]
    cases t with
    | rightParen => exact absurd ht hparen
    | op o => exact absurd ⟨o, ht, rfl⟩ (hop o.isTight)
    | integer _ | decimal _ | name _ | leftParen => rfl

theorem resume_trailing (hop : ∀ tight, ¬Continues tight ts[i]?) (h : ts[i]? = some t) :
    resume limit (.holding u ⟨n, none⟩ []) (ts.drop i) = .error (.invalidText (.trailing t)) := by
  rw [resume_drop_eq_step h]
  cases t with
  | op o => exact absurd ⟨o, h, rfl⟩ (hop o.isTight)
  | integer _ | decimal _ | name _ | leftParen | rightParen => rfl

/-- A token that is no further factor finds the sum of the term and what is in front. -/
theorem step_supply {sum : Option Pending} (h : ¬Continues true (some t)) :
    Parser.step limit (.holding u ⟨n, sum⟩ outer) t =
      (do Parser.step limit (.holding (← supply limit sum u) ⟨n, none⟩ outer) t) := by
  cases t with
  | op o =>
    have ho : ¬o.isTight = true := fun ho => h ⟨o, rfl, ho⟩
    simp only [Parser.step, if_neg ho]
    cases supply limit sum u <;> rfl
  | integer _ | decimal _ | name _ | leftParen | rightParen =>
    simp only [Parser.step]
    cases supply limit sum u <;> rfl

theorem resume_supply {sum : Option Pending} (h : ¬Continues true ts[i]?) :
    resume limit (.holding u ⟨n, sum⟩ outer) (ts.drop i) =
      (do resume limit (.holding (← supply limit sum u) ⟨n, none⟩ outer) (ts.drop i)) := by
  cases ht : ts[i]? with
  | none =>
    simp only [resume_drop_eq_finish ht, Parser.finish]
    cases supply limit sum u <;> rfl
  | some t =>
    rw [ht] at h
    rw [resume_drop_eq_step ht, step_supply h, bind_assoc]
    simp only [resume_drop_eq_step ht]

/-! ### The operand at a slot -/

theorem fill_first (chain : Chain) : Slot.fill limit ⟨chain, none, 0⟩ u = .ok u := rfl

theorem fill_right (chain : Chain) (l : Operand) (o : Op) :
    Slot.fill limit ⟨chain, some ⟨l, o⟩, 0⟩ u = combine limit o l u := rfl

/-- Behind a minus sign the operand is negated for the slot in front of it. -/
theorem fill_minus :
    Slot.fill limit { slot with minuses := slot.minuses + 1 } u =
      (do slot.fill limit (← Parser.negate limit u)) := by
  simp only [Slot.fill, negateTimes, bind_assoc]

end

/-! ## What is pending in the calls -/

mutual

/-- The calls at the slot, with the slots that wait for the parentheses around it. -/
inductive AtSlot : List Frame → Slot → List Slot → Prop
  | first {fs : List Frame} {chain : Chain} {outer : List Slot} : AtChain fs chain outer →
      AtSlot (.first true :: fs) ⟨chain, none, 0⟩ outer
  | right {fs : List Frame} {chain : Chain} {outer : List Slot} {l : Operand} {o : Op} :
      AtChain fs chain outer → AtSlot (.right true o l :: fs) ⟨chain, some ⟨l, o⟩, 0⟩ outer
  | minus {fs : List Frame} {slot : Slot} {outer : List Slot} : AtSlot fs slot outer →
      AtSlot (.minus :: fs) { slot with minuses := slot.minuses + 1 } outer

/-- The calls at a term of the chain. -/
inductive AtChain : List Frame → Chain → List Slot → Prop
  | first {fs : List Frame} {n : Nat} {outer : List Slot} : AtLevel fs n outer →
      AtChain (.first false :: fs) ⟨n, none⟩ outer
  | right {fs : List Frame} {n : Nat} {outer : List Slot} {l : Operand} {o : Op} :
      AtLevel fs n outer → AtChain (.right false o l :: fs) ⟨n, some ⟨l, o⟩⟩ outer

/-- The calls at the beginning of a chain, with so much open around it. -/
inductive AtLevel : List Frame → Nat → List Slot → Prop
  | outermost : AtLevel [] 0 []
  | parens {fs : List Frame} {slot : Slot} {outer : List Slot} : AtSlot fs slot outer →
      AtLevel (.parens :: fs) (slot.level + 1) (slot :: outer)

end

/-! Both count the same as open. -/

mutual

theorem AtSlot.level_eq {fs : List Frame} {slot : Slot} {outer : List Slot} :
    AtSlot fs slot outer → slot.level = opened fs
  | .first h => by simpa [Slot.level, Frame.opens] using h.level_eq
  | .right h => by simpa [Slot.level, Frame.opens] using h.level_eq
  | .minus h => by
    have hlevel := h.level_eq
    simp only [Slot.level] at hlevel
    simp [Slot.level, Frame.opens, ← hlevel, Nat.add_assoc]

theorem AtChain.level_eq {fs : List Frame} {chain : Chain} {outer : List Slot} :
    AtChain fs chain outer → chain.level = opened fs
  | .first h => by simpa [Frame.opens] using h.level_eq
  | .right h => by simpa [Frame.opens] using h.level_eq

theorem AtLevel.level_eq {fs : List Frame} {n : Nat} {outer : List Slot} :
    AtLevel fs n outer → n = opened fs
  | .outermost => rfl
  | .parens h => by simp [Frame.opens, h.level_eq]

end

theorem Valid.nesting_eq_level {ts : List Token} {control : Control} {fs : List Frame} {i n : Nat}
    {slot : Slot} {outer : List Slot} (h : Valid ts ⟨control, fs, i, n⟩)
    (hslot : AtSlot fs slot outer) : n = slot.level :=
  h.nesting.trans hslot.level_eq.symm

/-! ## What a configuration means -/

/-- The other parser has this result for the rest of the text where the run stands. -/
inductive Means (limit : Limit) (ts : List Token) : Config → Except Error Expr → Prop
  | additive {fs : List Frame} {i n m : Nat} {outer : List Slot} : AtLevel fs m outer →
      Means limit ts ⟨.call .additive, fs, i, n⟩
        (resume limit (.awaiting (.first m) outer) (ts.drop i))
  | multiplicative {fs : List Frame} {i n : Nat} {chain : Chain} {outer : List Slot} :
      AtChain fs chain outer →
      Means limit ts ⟨.call .multiplicative, fs, i, n⟩
        (resume limit (.awaiting ⟨chain, none, 0⟩ outer) (ts.drop i))
  | unary {fs : List Frame} {i n : Nat} {slot : Slot} {outer : List Slot} : AtSlot fs slot outer →
      Means limit ts ⟨.call .unary, fs, i, n⟩ (resume limit (.awaiting slot outer) (ts.drop i))
  | primary {fs : List Frame} {i n : Nat} {slot : Slot} {outer : List Slot} :
      AtSlot fs slot outer → ts[i]? ≠ some (.op .sub) →
      Means limit ts ⟨.call .primary, fs, i, n⟩ (resume limit (.awaiting slot outer) (ts.drop i))
  | extendTight {fs : List Frame} {i n : Nat} {chain : Chain} {outer : List Slot} {l : Operand} :
      AtChain fs chain outer →
      Means limit ts ⟨.extend true l, fs, i, n⟩ (resume limit (.holding l chain outer) (ts.drop i))
  | extendLoose {fs : List Frame} {i n m : Nat} {outer : List Slot} {l : Operand} :
      AtLevel fs m outer → ¬Continues true ts[i]? →
      Means limit ts ⟨.extend false l, fs, i, n⟩
        (resume limit (.holding l ⟨m, none⟩ outer) (ts.drop i))
  | giveFactor {fs : List Frame} {i n : Nat} {slot : Slot} {outer : List Slot} {u : Operand} :
      AtSlot fs slot outer →
      Means limit ts ⟨.give u, fs, i, n⟩
        (do resume limit (.holding (← slot.fill limit u) slot.chain outer) (ts.drop i))
  | giveTerm {fs : List Frame} {i n : Nat} {chain : Chain} {outer : List Slot} {u : Operand} :
      AtChain fs chain outer → ¬Continues true ts[i]? →
      Means limit ts ⟨.give u, fs, i, n⟩ (resume limit (.holding u chain outer) (ts.drop i))
  | giveSum {fs : List Frame} {i n m : Nat} {outer : List Slot} {u : Operand} :
      AtLevel fs m outer → (∀ tight, ¬Continues tight ts[i]?) →
      Means limit ts ⟨.give u, fs, i, n⟩ (resume limit (.holding u ⟨m, none⟩ outer) (ts.drop i))

theorem means_start (limit : Limit) (ts : List Token) :
    Means limit ts start (Parser.run limit ts) := .additive .outermost

section
variable {limit : Limit} {ts : List Token} {fs : List Frame} {i n : Nat} {u : Operand}
  {r : Except Error Expr}

/-! ### The result of a call for each frame that can wait for it -/

theorem Means.of_first {tight : Bool} (h : Means limit ts ⟨.give u, .first tight :: fs, i, n⟩ r) :
    Means limit ts ⟨.extend tight u, fs, i, n⟩ r := by
  cases h with
  | giveFactor hslot =>
    cases hslot with
    | first hchain =>
      rw [fill_first, ok_bind]
      exact .extendTight hchain
  | giveTerm hchain ht =>
    cases hchain with
    | first hlevel => exact .extendLoose hlevel ht
  | giveSum hlevel _ => cases hlevel

theorem Means.of_right {tight : Bool} {o : Op} {l : Operand}
    (h : Means limit ts ⟨.give u, .right tight o l :: fs, i, n⟩ r) :
    ∃ f, r = combine limit o l u >>= f ∧ ∀ v, Means limit ts ⟨.extend tight v, fs, i, n⟩ (f v) := by
  cases h with
  | giveFactor hslot =>
    cases hslot with
    | right hchain => exact ⟨_, by rw [fill_right], fun v => .extendTight hchain⟩
  | giveTerm hchain ht =>
    cases hchain with
    | right hlevel => exact ⟨_, by rw [resume_supply ht, supply], fun v => .extendLoose hlevel ht⟩
  | giveSum hlevel _ => cases hlevel

theorem Means.of_minus (m : Nat) (h : Means limit ts ⟨.give u, .minus :: fs, i, n⟩ r) :
    ∃ f, r = Parser.negate limit u >>= f ∧ ∀ v, Means limit ts ⟨.give v, fs, i, m⟩ (f v) := by
  cases h with
  | giveFactor hslot =>
    cases hslot with
    | minus hslot => exact ⟨_, by rw [fill_minus, bind_assoc], fun v => .giveFactor hslot⟩
  | giveTerm hchain _ => cases hchain
  | giveSum hlevel _ => cases hlevel

theorem Means.of_parens (h : Means limit ts ⟨.give u, .parens :: fs, i, n⟩ r) :
    (∀ tight, ¬Continues tight ts[i]?) ∧ ∃ slot outer, AtSlot fs slot outer ∧
      r = resume limit (.holding u ⟨slot.level + 1, none⟩ (slot :: outer)) (ts.drop i) := by
  cases h with
  | giveFactor hslot => cases hslot
  | giveTerm hchain _ => cases hchain
  | giveSum hlevel hop =>
    cases hlevel with
    | parens hslot => exact ⟨hop, _, _, hslot, rfl⟩

theorem Means.of_nil (h : Means limit ts ⟨.give u, [], i, n⟩ r) :
    (∀ tight, ¬Continues tight ts[i]?) ∧
      r = resume limit (.holding u ⟨0, none⟩ []) (ts.drop i) := by
  cases h with
  | giveFactor hslot => cases hslot
  | giveTerm hchain _ => cases hchain
  | giveSum hlevel hop =>
    cases hlevel with
    | outermost => exact ⟨hop, rfl⟩

end

section
variable {limit : Limit} {ts : List Token} {c c' : Config} {r r' : Except Error Expr}

/-- A move keeps the meaning. -/
theorem Move.means (hmove : Move limit ts c c') (hvalid : Valid ts c) (h : Means limit ts c r) :
    Means limit ts c' r := by
  cases hmove with
  | additive =>
    cases h with
    | additive hlevel => exact .multiplicative (.first hlevel)
  | multiplicative =>
    cases h with
    | multiplicative hchain => exact .unary (.first hchain)
  | minus ht hc =>
    cases h with
    | unary hslot =>
      rw [resume_minus ht, ← hvalid.nesting_eq_level hslot, hc, ok_bind]
      exact .unary (.minus hslot)
  | primary ht =>
    cases h with
    | unary hslot => exact .primary hslot ht
  | leaf ht hleaf =>
    cases h with
    | primary hslot _ =>
      rw [resume_leaf ht hleaf]
      exact .giveFactor hslot
  | parens ht hc =>
    cases h with
    | primary hslot _ =>
      have hn := hvalid.nesting_eq_level hslot
      rw [resume_leftParen ht, ← hn, hc, ok_bind, hn]
      exact .additive (.parens hslot)
  | operator ht ho =>
    cases h with
    | extendTight hchain =>
      rw [resume_factor ht ho]
      exact .unary (.right hchain)
    | extendLoose hlevel _ =>
      rw [resume_term ht ho]
      exact .multiplicative (.right hlevel)
  | last ht =>
    cases h with
    | extendTight hchain => exact .giveTerm hchain ht
    | extendLoose hlevel htight =>
      exact .giveSum hlevel fun tight => by cases tight <;> assumption
  | first => exact h.of_first
  | right hcombine =>
    obtain ⟨f, rfl, hf⟩ := h.of_right
    rw [hcombine, ok_bind]
    exact hf _
  | negate hnegate =>
    obtain ⟨f, rfl, hf⟩ := h.of_minus _
    rw [hnegate, ok_bind]
    exact hf _
  | close ht =>
    obtain ⟨-, slot, outer, hslot, rfl⟩ := h.of_parens
    rw [resume_rightParen ht]
    exact .giveFactor hslot

/-- Where a run ends, the other parser has its result. -/
theorem Halt.means (hhalt : Halt limit ts c r) (hvalid : Valid ts c) (h : Means limit ts c r') :
    r' = r := by
  cases hhalt with
  | minus ht hc =>
    cases h with
    | unary hslot => rw [resume_minus ht, ← hvalid.nesting_eq_level hslot, hc, error_bind]
  | parens ht hc =>
    cases h with
    | primary hslot _ =>
      rw [resume_leftParen ht, ← hvalid.nesting_eq_level hslot, hc, error_bind]
  | operand hleaf hparen =>
    cases h with
    | primary _ hminus => exact resume_expectedOperand hleaf hparen hminus
  | right hcombine =>
    obtain ⟨f, rfl, -⟩ := h.of_right
    rw [hcombine, error_bind]
  | @negate _ _ n _ _ hnegate =>
    obtain ⟨f, rfl, -⟩ := h.of_minus n
    rw [hnegate, error_bind]
  | unclosed ht =>
    obtain ⟨hop, slot, outer, -, rfl⟩ := h.of_parens
    exact resume_unclosedParen hop ht
  | trailing ht =>
    obtain ⟨hop, rfl⟩ := h.of_nil
    exact resume_trailing hop ht
  | value ht =>
    obtain ⟨-, rfl⟩ := h.of_nil
    exact resume_drop_eq_finish ht

theorem Reaches.means (hreaches : Reaches limit ts c c') (hvalid : Valid ts c)
    (h : Means limit ts c r) : Means limit ts c' r := by
  induction hreaches with
  | refl => exact h
  | tail hreaches hstep ih =>
    have hv := Reaches.valid hreaches hvalid
    exact (hv.move_of_step hstep).means hv ih

/-- A run ends with what the other parser has for the whole. -/
theorem exists_reaches_run (limit : Limit) (ts : List Token) : ∃ c, Reaches limit ts start c ∧
    step (marked ts) limit c = .error (.of (Parser.run limit ts)) := by
  obtain ⟨c, r, hreaches, hstep, hhalt⟩ := (valid_start : Valid ts start).exists_ends limit
  have hmeans := hreaches.means valid_start (means_start limit ts)
  have hr : Parser.run limit ts = r := hhalt.means (hreaches.valid valid_start) hmeans
  exact ⟨c, hreaches, hr ▸ hstep⟩

end

/-! ## Every run is safe -/

/-- What holds at every point of a run. -/
structure Sound (limit : Limit) (ts : List Token) (c : Config) : Prop where
  pos : c.pos < (marked ts).length
  nesting : c.nesting = opened c.frames
  /-- The next step does not read outside of the tokens. -/
  inside : step (marked ts) limit c ≠ .error .outside
  /-- It does not take one from zero. -/
  covered : step (marked ts) limit c ≠ .error .underflow
  /-- It makes less what remains. -/
  remaining : ∀ c', step (marked ts) limit c = .ok c' → remaining ts c' < remaining ts c
  /-- A call that is made here returns, or an error comes in between. -/
  settles : ∀ p, c.control = .call p → (∃ c', Returns limit ts c c') ∨
    ∃ c' e, Reaches limit ts c c' ∧ step (marked ts) limit c' = .error (.error e)
  /-- When it returns, it has moved on, at most to the end, and has closed what it opened. -/
  returns : ∀ c', Returns limit ts c c' →
    c.pos < c'.pos ∧ c'.pos < (marked ts).length ∧ c'.nesting = c.nesting

theorem Ending.of_ne (r : Except Error Expr) :
    Ending.of r ≠ .outside ∧ Ending.of r ≠ .underflow := by
  cases r <;> simp [of]

theorem Valid.sound {limit : Limit} {ts : List Token} {c : Config} (h : Valid ts c) :
    Sound limit ts c where
  pos := h.pos
  nesting := h.nesting
  inside hstep := by
    obtain ⟨r, hr, -⟩ := h.halt_of_step hstep
    exact (Ending.of_ne r).1 hr.symm
  covered hstep := by
    obtain ⟨r, hr, -⟩ := h.halt_of_step hstep
    exact (Ending.of_ne r).2 hr.symm
  remaining _ hstep := (h.move_of_step hstep).remaining_lt
  settles _ hcall := h.returns_or_ends hcall
  returns _ hreturns :=
    ⟨hreturns.pos_lt h, (hreturns.reaches.valid h).pos, hreturns.nesting_eq h⟩

/-- **Recursive descent is safe and ends.** The tokens of a text are followed by the mark of the
end, which stands last and nowhere else. Whatever the limit and the tokens, a run never leaves them,
its count is what is open, and no call that returns has stayed in place or left something open.
What remains becomes less at each step, and at the end the run has the result of the parser that
reads one token at a time. -/
theorem descent_safe (limit : Limit) (ts : List Token) :
    (∀ s, tokenize s = .ok ts →
        ByteScan.scan s 0 = some ((marked ts).map (Option.map .token)) ∧
          parse limit s = (Parser.run limit ts).mapError ([·])) ∧
      (marked ts ≠ [] ∧ ∀ i, (marked ts)[i]? = some none ↔ i + 1 = (marked ts).length) ∧
      (∀ c, Reaches limit ts start c → Sound limit ts c) ∧
      ∃ c, Reaches limit ts start c ∧
        step (marked ts) limit c = .error (.of (Parser.run limit ts)) := by
  refine ⟨?text, ⟨by simp [marked], fun i => getElem?_marked_eq_none_iff⟩, ?safe,
    exists_reaches_run limit ts⟩
  case text =>
    intro s hs
    constructor
    · rw [ByteScan.scan_eq, tokenize_eq_ok_iff.1 hs]
      simp [marked]
    · rw [parse, hs, ok_bind]
  case safe =>
    intro c hc
    exact (Reaches.valid hc valid_start).sound

/-- In the parentheses behind the sign two are open, and the run gets to the end. -/
theorem descent_safe_parens :
    let ts : List Token := [.op .sub, .leftParen, .integer "1", .op .add, .name "x", .rightParen]
    let c : Config := ⟨.call .additive, [.parens, .minus, .first true, .first false], 2, 2⟩
    let t : Expr := .binary (.op .mul) (.integer "-1")
      (.binary (.op .add) (.integer "1") (.var "x"))
    tokenize "-(1+x)" = .ok ts ∧
      ByteScan.scan "-(1+x)" 0 = some ((marked ts).map (Option.map .token)) ∧
      parse (some 3) "-(1+x)" = .ok t ∧
      Reaches (some 3) ts start c ∧ Sound (some 3) ts c ∧
      ∃ c', Reaches (some 3) ts start c' ∧ step (marked ts) (some 3) c' = .error (.value t) := by
  intro ts c t
  have hts : tokenize "-(1+x)" = .ok ts := by cbv
  have hrun : Parser.run (some 3) ts = .ok t := by cbv
  have hc : Reaches (some 3) ts start c :=
    .head (b := ⟨.call .multiplicative, [.first false], 0, 0⟩) rfl <|
    .head (b := ⟨.call .unary, [.first true, .first false], 0, 0⟩) rfl <|
    .head (b := ⟨.call .unary, [.minus, .first true, .first false], 1, 1⟩) rfl <|
    .head (b := ⟨.call .primary, [.minus, .first true, .first false], 1, 1⟩) rfl <|
    .single rfl
  obtain ⟨htext, -, hsound, hend⟩ := descent_safe (some 3) ts
  obtain ⟨hscan, hparse⟩ := htext _ hts
  rw [hrun] at hparse hend
  exact ⟨hts, hscan, hparse, hc, hsound c hc, hend⟩

end ExprFold.Expr.Descent
