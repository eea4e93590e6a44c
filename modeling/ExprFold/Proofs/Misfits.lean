import ExprFold.Proofs.EndMark
import ExprFold.Proofs.Parsing
import Mathlib

/-!
# The first token that does not fit

Tokens are viable when some expression begins with them, the end of the text counting as a token of
its own. Without a limit the parser reads just the viable ones (`Parser.viable_iff`): from any state
the text can be completed, by an operand if one is awaited and by a parenthesis for each that is open
(`Parser.exists_completion`). So the token that it refuses is the first that no expression has in
this place, its misfit, and the state tells what had to come instead. Main statement: `parse_misfit`.
-/

namespace ExprFold.Expr

/-! ## Viable tokens -/

/-- Some expression begins with the tokens, or is all of them when they have the mark of the end. -/
def Viable (ts : List (Option Token)) : Prop := ∃ us t, Derives .expr us t ∧ ts <+: marked us

/-- In the text, `found` comes behind the tokens `before` and is the first that does not fit there:
some expression begins with `before`, and none goes on with `found`. -/
structure Misfit (ts before : List Token) (found : Option Token) : Prop where
  stands : before.map some ++ [found] <+: marked ts
  viable : Viable (before.map some)
  not_viable : ¬Viable (before.map some ++ [found])

section
variable {ts us : List Token}

theorem Viable.of_prefix {ts us : List (Option Token)} (h : Viable us) (hp : ts <+: us) :
    Viable ts := by
  obtain ⟨vs, t, ht, hv⟩ := h
  exact ⟨vs, t, ht, hp.trans hv⟩

theorem viable_marked_iff : Viable (marked ts) ↔ ∃ t, Derives .expr ts t := by
  constructor
  · rintro ⟨us, t, ht, hp⟩
    obtain rfl := marked_prefix_marked_iff.1 hp
    exact ⟨t, ht⟩
  · rintro ⟨t, ht⟩
    exact ⟨ts, t, ht, List.prefix_refl _⟩

/-- A misfit never stands in front of another one. -/
theorem Misfit.prefix_eq {before before' : List Token} {found found' : Option Token}
    (h : Misfit ts before found) (h' : Misfit ts before' found')
    (hp : before.map some ++ [found] <+: before'.map some ++ [found']) :
    before = before' ∧ found = found' := by
  rcases List.prefix_concat_iff.1 hp with he | hp
  · obtain ⟨hb, hf⟩ := List.append_inj' he rfl
    exact ⟨(List.map_inj_right fun _ _ => Option.some.inj).1 hb, by simpa using hf⟩
  · exact absurd (h'.viable.of_prefix hp) h.not_viable

theorem Misfit.unique {before before' : List Token} {found found' : Option Token}
    (h : Misfit ts before found) (h' : Misfit ts before' found') :
    before = before' ∧ found = found' := by
  rcases List.prefix_or_prefix_of_prefix h.stands h'.stands with hp | hp
  · exact h.prefix_eq h' hp
  · obtain ⟨hb, hf⟩ := h'.prefix_eq h hp
    exact ⟨hb.symm, hf.symm⟩

end

/-! ## What has to come next -/

/-- An operand has to come: there are no tokens, or the last one is an operator or opens a
parenthesis. -/
def AwaitsOperand (ts : List Token) : Prop :=
  ts = [] ∨ (∃ o, ts.getLast? = some (.op o)) ∨ ts.getLast? = some .leftParen

/-- The tokens end in a complete operand. -/
def EndsInOperand (ts : List Token) : Prop := ∃ us vs t, ts = us ++ vs ∧ Derives .primary vs t

/-- More parentheses have been opened than closed. -/
def HasOpenParen (ts : List Token) : Prop := ts.count .rightParen < ts.count .leftParen

section
variable {ts us : List Token} {p : Phrase} {t : Expr}

theorem EndsInOperand.append (ts : List Token) (h : EndsInOperand us) :
    EndsInOperand (ts ++ us) := by
  obtain ⟨vs, ws, t, rfl, ht⟩ := h
  exact ⟨ts ++ vs, ws, t, by simp, ht⟩

theorem Derives.endsInOperand (h : Derives p ts t) : EndsInOperand ts := by
  induction h with
  | ofTerm _ ih | ofUnary _ ih | ofPrimary _ ih => exact ih
  | @sum ts us _ _ o _ _ _ _ ih | @product ts us _ _ o _ _ _ _ ih =>
    have := ih.append (ts ++ [.op o])
    rwa [List.append_assoc] at this
  | minus _ _ ih => exact ih.append [.op .sub]
  | integer s => exact ⟨[], _, _, rfl, .integer s⟩
  | decimal s => exact ⟨[], _, _, rfl, .decimal s⟩
  | name s => exact ⟨[], _, _, rfl, .name s⟩
  | parens h _ => exact ⟨[], _, _, rfl, .parens h⟩

theorem exists_getLast?_of_primary (h : Derives .primary ts t) :
    ∃ u, ts.getLast? = some u ∧ (∀ o, u ≠ .op o) ∧ u ≠ .leftParen := by
  cases h with
  | integer _ | decimal _ | name _ => exact ⟨_, rfl, nofun, nofun⟩
  | parens _ => exact ⟨_, List.getLast?_concat, nofun, nofun⟩

theorem EndsInOperand.not_awaitsOperand (h : EndsInOperand ts) : ¬AwaitsOperand ts := by
  obtain ⟨us, vs, t, rfl, ht⟩ := h
  obtain ⟨u, hu, hop, hparen⟩ := exists_getLast?_of_primary ht
  have hlast : (us ++ vs).getLast? = some u := by rw [List.getLast?_append, hu]; rfl
  rintro (hnil | ⟨o, ho⟩ | ho)
  · rw [hnil] at hlast
    cases hlast
  · cases hlast.symm.trans ho
    exact hop o rfl
  · cases hlast.symm.trans ho
    exact hparen rfl

/-- A phrase closes just the parentheses that it opens. -/
theorem Derives.count_eq (h : Derives p ts t) : ts.count .leftParen = ts.count .rightParen := by
  induction h with
  | ofTerm _ ih | ofUnary _ ih | ofPrimary _ ih => exact ih
  | sum _ _ _ ihl ihr | product _ _ _ ihl ihr => simp [List.count_append, ihl, ihr]
  | minus _ _ ih => simpa using ih
  | integer _ | decimal _ | name _ => simp
  | parens _ ih => simp [ih]

theorem Derives.not_hasOpenParen (h : Derives p ts t) : ¬HasOpenParen ts := by
  rw [HasOpenParen, h.count_eq]
  exact Nat.lt_irrefl _

end

namespace Parser

/-! ## Without a limit nothing that is built is refused -/

theorem exists_negate_none (u : Operand) : ∃ v, negate none u = .ok v := by
  unfold negate
  split
  · exact ⟨_, rfl⟩
  · exact ⟨_, rfl⟩
  · exact ⟨_, combine_none _ _ _⟩

theorem exists_negateTimes_none (n : Nat) (u : Operand) : ∃ v, negateTimes none n u = .ok v := by
  induction n generalizing u with
  | zero => exact ⟨u, rfl⟩
  | succ n ih =>
    obtain ⟨w, hw⟩ := exists_negate_none u
    obtain ⟨v, hv⟩ := ih w
    exact ⟨v, by rw [negateTimes, hw]; exact hv⟩

theorem exists_supply_none (pending : Option Pending) (u : Operand) :
    ∃ v, supply none pending u = .ok v := by
  cases pending with
  | none => exact ⟨u, rfl⟩
  | some p => exact ⟨_, combine_none _ _ _⟩

theorem exists_fill_none (slot : Slot) (u : Operand) : ∃ v, slot.fill none u = .ok v := by
  obtain ⟨w, hw⟩ := exists_negateTimes_none slot.minuses u
  obtain ⟨v, hv⟩ := exists_supply_none slot.product w
  exact ⟨v, by rw [Slot.fill, hw]; exact hv⟩

/-! ## What a state awaits -/

section
variable {ts : List Token}

theorem Chain.After.last {chain : Chain} (h : chain.After ts) :
    ts = [] ∨ ∃ o, ts.getLast? = some (.op o) := by
  cases h with
  | first _ => exact .inl rfl
  | sum _ _ => exact .inr ⟨_, List.getLast?_concat⟩

theorem Chain.After.count_eq {chain : Chain} (h : chain.After ts) :
    ts.count .leftParen = ts.count .rightParen := by
  cases h with
  | first _ => rfl
  | sum _ hl => simp [List.count_append, hl.count_eq]

theorem Slot.After.last {slot : Slot} (h : slot.After ts) :
    ts = [] ∨ ∃ o, ts.getLast? = some (.op o) := by
  obtain @⟨chain, product, n, us, vs, hc, hp⟩ := h
  cases n with
  | zero =>
    cases hp with
    | first => simpa using hc.last
    | product _ _ =>
      rw [List.replicate_zero, List.append_nil, ← List.append_assoc]
      exact .inr ⟨_, List.getLast?_concat⟩
  | succ n =>
    rw [List.replicate_succ', ← List.append_assoc]
    exact .inr ⟨_, List.getLast?_concat⟩

theorem Slot.After.count_eq {slot : Slot} (h : slot.After ts) :
    ts.count .leftParen = ts.count .rightParen := by
  obtain ⟨hc, hp⟩ := h
  cases hp with
  | first => simp [List.count_append, hc.count_eq, List.count_replicate]
  | product _ hl => simp [List.count_append, hc.count_eq, hl.count_eq, List.count_replicate]

theorem Outer.After.last {outer : List Slot} (h : Outer.After outer ts) :
    ts = [] ∨ ts.getLast? = some .leftParen := by
  cases h with
  | nil => exact .inl rfl
  | cons _ _ => exact .inr List.getLast?_concat

/-- Each slot outside waits for a parenthesis of its own to be closed. -/
theorem Outer.After.count_eq {outer : List Slot} (h : Outer.After outer ts) :
    ts.count .leftParen = ts.count .rightParen + outer.length := by
  induction h with
  | nil => rfl
  | cons _ hs ih =>
    simp only [List.count_append, ih, hs.count_eq, List.length_cons, List.count_singleton_self,
      List.count_singleton, beq_iff_eq, reduceCtorEq, if_false]
    omega

theorem State.After.awaitsOperand {slot : Slot} {outer : List Slot}
    (h : State.After (.awaiting slot outer) ts) : AwaitsOperand ts := by
  cases h with
  | awaiting ho hs =>
    rcases hs.last with rfl | ⟨o, hl⟩
    · rw [List.append_nil]
      exact ho.last.imp_right .inr
    · exact .inr (.inl ⟨o, by simp [List.getLast?_append, hl]⟩)

theorem State.After.endsInOperand {term : Operand} {chain : Chain} {outer : List Slot}
    (h : State.After (.holding term chain outer) ts) : EndsInOperand ts := by
  cases h with
  | holding _ _ ht => exact (ht.endsInOperand.append _).append _

theorem State.After.exists_derives {term : Operand} {chain : Chain}
    (h : State.After (.holding term chain []) ts) : ∃ t, Derives .expr ts t := by
  obtain ⟨u, hu⟩ := exists_supply_none chain.sum term
  exact ⟨u.expr, h.finish (by simp [Parser.finish, hu])⟩

theorem State.After.hasOpenParen {term : Operand} {chain : Chain} {slot : Slot}
    {outer : List Slot} (h : State.After (.holding term chain (slot :: outer)) ts) :
    HasOpenParen ts := by
  cases h with
  | holding ho hc ht =>
    simp only [HasOpenParen, List.count_append, ho.count_eq, hc.count_eq, ht.count_eq,
      List.length_cons]
    omega

end

/-! ## Completing a text -/

/-- Behind a complete operand it is enough to close what is open. -/
theorem exists_closing (term : Operand) (chain : Chain) (outer : List Slot) :
    ∃ us s t, Reads none (.holding term chain outer) us s ∧ finish none s = .ok t := by
  obtain ⟨u, hu⟩ := exists_supply_none chain.sum term
  induction outer generalizing term chain u with
  | nil => exact ⟨[], _, u.expr, reads_nil.2 rfl, by simp [finish, hu]⟩
  | cons slot outer ih =>
    obtain ⟨v, hv⟩ := exists_fill_none slot u
    obtain ⟨w, hw⟩ := exists_supply_none slot.chain.sum v
    obtain ⟨us, s, t, hr, ht⟩ := ih v slot.chain w hw
    exact ⟨_, s, t, .cons (.rightParen hu hv) hr, ht⟩

theorem placeLeaf_none_ne_error (slot : Slot) (outer : List Slot) (k : Kind) (text : String)
    (e : Error) : placeLeaf none slot outer k text ≠ .error e := by
  obtain ⟨v, hv⟩ := exists_fill_none slot (.leaf k text)
  simp [placeLeaf, hv]

/-- From every state some tokens lead to the end of an expression. -/
theorem exists_completion (s : State) :
    ∃ us s' t, Reads none s us s' ∧ finish none s' = .ok t := by
  cases s with
  | holding term chain outer => exact exists_closing term chain outer
  | awaiting slot outer =>
    obtain ⟨v, hv⟩ := exists_fill_none slot (.leaf .integer "0")
    obtain ⟨us, s', t, hr, ht⟩ := exists_closing v slot.chain outer
    exact ⟨_, s', t, .cons (.leaf (.integer "0") hv) hr, ht⟩

/-- Without a limit the parser reads just the tokens that some expression begins with. -/
theorem viable_iff {ts : List Token} : Viable (ts.map some) ↔ ∃ s, Reads none .start ts s := by
  constructor
  · rintro ⟨us, t, ht, hp⟩
    obtain ⟨vs, rfl⟩ := map_some_prefix_marked_iff.1 hp
    rw [← run_none_eq_ok_iff] at ht
    obtain ⟨s, hs, -⟩ := bind_eq_ok_iff.1 ht
    obtain ⟨s₁, h₁, -⟩ := reads_append.1 hs
    exact ⟨s₁, h₁⟩
  · rintro ⟨s, hs⟩
    obtain ⟨us, s', t, hr, ht⟩ := exists_completion s
    refine ⟨ts ++ us, t, ?_, map_some_prefix_marked_iff.2 (List.prefix_append _ _)⟩
    exact run_none_eq_ok_iff.1 (bind_eq_ok_iff.2 ⟨s', hs.trans hr, ht⟩)

/-! ## What is refused -/

/-- The fault of a token, or of the end of the text, that a state refuses. -/
inductive Refuses : State → Option Token → TextFault → Prop
  | operand {slot : Slot} {outer : List Slot} {found : Option Token} :
      Refuses (.awaiting slot outer) found (.expectedOperand found)
  | unclosed {term : Operand} {chain : Chain} {slot : Slot} {outer : List Slot}
      {found : Option Token} :
      Refuses (.holding term chain (slot :: outer)) found (.unclosedParen found)
  | trailing {term : Operand} {chain : Chain} {t : Token} :
      Refuses (.holding term chain []) (some t) (.trailing t)

section
variable {s : State} {t : Token} {e : Error}

/-- Without a limit nothing but the token can be at fault. -/
theorem Refuses.of_step (h : step none s t = .error e) :
    ∃ fault, e = .invalidText fault ∧ Refuses s t fault := by
  cases s with
  | awaiting slot outer =>
    cases t with
    | integer text | decimal text | name text =>
      exact absurd h (placeLeaf_none_ne_error slot outer _ text e)
    | leftParen => cases h
    | rightParen =>
      cases h
      exact ⟨_, rfl, .operand⟩
    | op o =>
      cases o with
      | sub => cases h
      | add | mul | div =>
        cases h
        exact ⟨_, rfl, .operand⟩
  | holding term chain outer =>
    obtain ⟨u, hu⟩ := exists_supply_none chain.sum term
    cases t with
    | op o => cases ho : o.isTight <;> simp [step, ho, hu] at h
    | rightParen =>
      cases outer with
      | nil =>
        simp only [step, hu, ok_bind] at h
        cases h
        exact ⟨_, rfl, .trailing⟩
      | cons slot outer =>
        obtain ⟨v, hv⟩ := exists_fill_none slot u
        simp [step, hu, hv] at h
    | integer _ | decimal _ | name _ | leftParen =>
      simp only [step, hu, ok_bind] at h
      cases outer with
      | nil => cases h; exact ⟨_, rfl, .trailing⟩
      | cons slot outer => cases h; exact ⟨_, rfl, .unclosed⟩

theorem Refuses.of_finish (h : finish none s = .error e) :
    ∃ fault, e = .invalidText fault ∧ Refuses s none fault := by
  cases s with
  | awaiting slot outer =>
    cases h
    exact ⟨_, rfl, .operand⟩
  | holding term chain outer =>
    obtain ⟨u, hu⟩ := exists_supply_none chain.sum term
    simp only [finish, hu, ok_bind] at h
    cases outer with
    | nil => cases h
    | cons slot outer => cases h; exact ⟨_, rfl, .unclosed⟩

/-- Reading fails at a token, with those before it read. -/
theorem exists_of_foldlM_eq_error {limit : Limit} {ts : List Token}
    (h : ts.foldlM (step limit) s = .error e) :
    ∃ us t vs s', ts = us ++ t :: vs ∧ Reads limit s us s' ∧ step limit s' t = .error e := by
  induction ts generalizing s with
  | nil => cases h
  | cons t ts ih =>
    rw [List.foldlM_cons, bind_eq_error_iff] at h
    rcases h with h | ⟨s₁, hs, h⟩
    · exact ⟨[], t, ts, s, rfl, reads_nil.2 rfl, h⟩
    · obtain ⟨us, u, vs, s', rfl, hr, hu⟩ := ih h
      exact ⟨t :: us, u, vs, s', rfl, .cons (.of_step hs) hr, hu⟩

end

/-- A run without a limit fails at the misfit of its tokens. -/
theorem exists_misfit_of_run {ts : List Token} {e : Error} (h : run none ts = .error e) :
    ∃ before found s fault, e = .invalidText fault ∧ Misfit ts before found ∧
      Reads none .start before s ∧ Refuses s found fault := by
  rcases bind_eq_error_iff.1 h with hstep | ⟨s, hs, hfinish⟩
  · obtain ⟨before, t, rest, s, rfl, hr, ht⟩ := exists_of_foldlM_eq_error hstep
    obtain ⟨fault, rfl, hf⟩ := Refuses.of_step ht
    refine ⟨before, t, s, fault, rfl, ⟨?_, viable_iff.2 ⟨s, hr⟩, ?_⟩, hr, hf⟩
    · simp [marked]
    · intro hv
      have hmap : before.map some ++ [some t] = (before ++ [t]).map some := by simp
      rw [hmap, viable_iff] at hv
      obtain ⟨s₂, hs₂⟩ := hv
      obtain ⟨s₁, h₁, h₂⟩ := reads_append.1 hs₂
      -- the tokens before lead to one state only, and there the token is refused
      cases h₁.symm.trans hr
      obtain ⟨s₃, h₃, -⟩ := reads_cons.1 h₂
      cases ht.symm.trans h₃.step_eq_ok
  · obtain ⟨fault, rfl, hf⟩ := Refuses.of_finish hfinish
    refine ⟨ts, none, s, fault, rfl, ⟨List.prefix_refl _, viable_iff.2 ⟨s, hs⟩, ?_⟩, hs, hf⟩
    intro hv
    obtain ⟨t, ht⟩ := viable_marked_iff.1 hv
    cases h.symm.trans (run_none_eq_ok_iff.2 ht)

end Parser

theorem parse_eq_error_of_run {limit : Limit} {s : String} {ts : List Token} {e : Error}
    (hts : tokenize s = .ok ts) (h : Parser.run limit ts = .error e) :
    parse limit s = .error [e] := by
  simp [parse, hts, h, Except.mapError]

/-- **A syntax error names the first token that cannot continue any expression.** A text whose
tokens are no expression has just one misfit, which may be its end. The parse fails with one fault,
that of the misfit: where an operand has to come, it is that there is none; behind a complete
operand with a parenthesis open, that it does not close it; and behind a complete expression, that
there is more. One of these is the case. -/
theorem parse_misfit {s : String} {ts : List Token} (hts : tokenize s = .ok ts)
    (hno : ∀ t, ¬Derives .expr ts t) :
    (∃! place : List Token × Option Token, Misfit ts place.1 place.2) ∧
    ∀ before found, Misfit ts before found →
      ∃ fault, parse none s = .error [.invalidText fault] ∧
        (AwaitsOperand before ∨ (EndsInOperand before ∧ HasOpenParen before) ∨
          ∃ t, Derives .expr before t) ∧
        (AwaitsOperand before → fault = .expectedOperand found ∧
          fault.message = "expected number, identifier, or '(', found " ++
            Token.describeNext found) ∧
        (EndsInOperand before ∧ HasOpenParen before → fault = .unclosedParen found ∧
          fault.message = "expected RParen, found " ++ Token.describeNext found) ∧
        ((∃ t, Derives .expr before t) → (∃ t, found = some t ∧ fault = .trailing t) ∧
          fault.message = "trailing tokens starting at " ++ Token.describeNext found) := by
  obtain ⟨e, he⟩ : ∃ e, Parser.run none ts = .error e := by
    cases h : Parser.run none ts with
    | ok t => exact absurd (Parser.run_none_eq_ok_iff.1 h) (hno t)
    | error e => exact ⟨e, rfl⟩
  obtain ⟨before, found, state, fault, rfl, hm, hr, hf⟩ := Parser.exists_misfit_of_run he
  refine ⟨⟨(before, found), hm, fun place hp => ?_⟩, ?_⟩
  · obtain ⟨hb, hf⟩ := hp.unique hm
    exact Prod.ext hb hf
  · intro before' found' hm'
    obtain ⟨rfl, rfl⟩ := hm'.unique hm
    refine ⟨fault, parse_eq_error_of_run hts he, ?_⟩
    have hafter : state.After before' := Parser.State.After.start.reads hr
    cases hf with
    | operand =>
      have hawaits := hafter.awaitsOperand
      refine ⟨.inl hawaits, fun _ => ⟨rfl, rfl⟩, fun h => ?_, fun ⟨t, ht⟩ => ?_⟩
      · exact absurd hawaits h.1.not_awaitsOperand
      · exact absurd hawaits ht.endsInOperand.not_awaitsOperand
    | unclosed =>
      have hends := hafter.endsInOperand
      have hopen := hafter.hasOpenParen
      refine ⟨.inr (.inl ⟨hends, hopen⟩), fun h => ?_, fun _ => ⟨rfl, rfl⟩, fun ⟨t, ht⟩ => ?_⟩
      · exact absurd h hends.not_awaitsOperand
      · exact absurd hopen ht.not_hasOpenParen
    | trailing =>
      obtain ⟨t, ht⟩ := hafter.exists_derives
      refine ⟨.inr (.inr ⟨t, ht⟩), fun h => ?_, fun h => ?_, fun _ => ⟨⟨_, rfl, rfl⟩, rfl⟩⟩
      · exact absurd h ht.endsInOperand.not_awaitsOperand
      · exact absurd h.2 ht.not_hasOpenParen

/-- Two numbers side by side do not fit where a parenthesis is open. What is wrong behind them is
not looked at. -/
theorem parse_misfit_paren :
    let s := "7 - (x * 2 3) + )"
    let ts : List Token := [.integer "7", .op .sub, .leftParen, .name "x", .op .mul, .integer "2",
      .integer "3", .rightParen, .op .add, .rightParen]
    tokenize s = .ok ts ∧ (∀ t, ¬Derives .expr ts t) ∧
      parse none s = .error [.invalidText (.unclosedParen (some (.integer "3")))] ∧
      ∃ before, Misfit ts before (some (.integer "3")) ∧ EndsInOperand before ∧
        HasOpenParen before := by
  intro s ts
  have hts : tokenize s = .ok ts := by cbv
  have hrun : Parser.run none ts =
      .error (.invalidText (.unclosedParen (some (.integer "3")))) := by cbv
  have hno : ∀ t, ¬Derives .expr ts t := by
    intro t ht
    cases hrun.symm.trans (Parser.run_none_eq_ok_iff.2 ht)
  obtain ⟨⟨⟨before, found⟩, hm, -⟩, h⟩ := parse_misfit hts hno
  obtain ⟨fault, hp, hplace, hoperand, hparen, htrailing⟩ := h before found hm
  cases hp.symm.trans (parse_eq_error_of_run hts hrun)
  refine ⟨hts, hno, hp, before, ?_⟩
  rcases hplace with hawaits | hopen | hexpr
  · cases (hoperand hawaits).1
  · cases (hparen hopen).1
    exact ⟨hm, hopen⟩
  · obtain ⟨t, -, ht⟩ := (htrailing hexpr).1
    cases ht

end ExprFold.Expr
