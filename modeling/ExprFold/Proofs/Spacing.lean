import ExprFold.Proofs.Lexemes

/-!
# The scan piece by piece

The first character of a text decides what its first lexeme is, so induction over a scan has one
case for each class of characters (`Lexeme.scanRec`). What no word goes on with starts a new lexeme
(`Lexeme.scan_append_rest`); therefore the tokens of a text are found wherever it stands
(`Spells.of_tokenize`), blanks can be put around words, and words with blanks between them are read
back one by one (`Spaced.spells`).
-/

namespace ExprFold

namespace Lexeme

/-! ## The first lexeme -/

section
variable {c : Char} {rest : List Char} {offset : Nat}

theorem scan_of_beginsNumber (h : beginsNumber c = true) :
    scan (c :: rest) offset =
      token (ofNumeral (Numeral.scan (c :: rest)).1) ::
        scan (Numeral.scan (c :: rest)).2 (offset + (Numeral.scan (c :: rest)).1.text.length) :=
  scan_number (isBlank_of_class rfl h) (single?_of_class rfl h) h

theorem scan_of_beginsName (h : beginsName c = true) :
    scan (c :: rest) offset =
      token (.name (String.ofList (c :: rest.takeWhile continuesName))) ::
        scan (rest.dropWhile continuesName)
          (offset + (c :: rest.takeWhile continuesName).length) :=
  scan_name (isBlank_of_class rfl h) (single?_of_class rfl h) (beginsNumber_of_beginsName h) h

theorem name_append (c : Char) (rest : List Char) :
    (c :: rest.takeWhile continuesName) ++ rest.dropWhile continuesName = c :: rest := by
  rw [List.cons_append, List.takeWhile_append_dropWhile]

theorem scan_of_single {t : Token} (h : single? c = some t) :
    scan (c :: rest) offset = token t :: scan rest (offset + c.utf8Size) :=
  scan_single (isBlank_of_single h) h

end

/-- Induction over a scan: what its first character is decides what comes first. -/
@[elab_as_elim]
theorem scanRec {motive : List Char → Nat → Prop}
    (nil : ∀ offset, motive [] offset)
    (blank : ∀ c rest offset, isBlank c = true → motive rest (offset + c.utf8Size) →
      motive (c :: rest) offset)
    (single : ∀ c t rest offset, single? c = some t → motive rest (offset + c.utf8Size) →
      motive (c :: rest) offset)
    (number : ∀ c rest offset, beginsNumber c = true →
      motive (Numeral.scan (c :: rest)).2
        (offset + (Numeral.scan (c :: rest)).1.text.length) →
      motive (c :: rest) offset)
    (name : ∀ c rest offset, beginsName c = true →
      motive (rest.dropWhile continuesName)
        (offset + (c :: rest.takeWhile continuesName).length) →
      motive (c :: rest) offset)
    (stray : ∀ c rest offset, isBlank c = false → single? c = none → beginsNumber c = false →
      beginsName c = false → motive rest (offset + c.utf8Size) → motive (c :: rest) offset) :
    ∀ cs offset, motive cs offset := by
  intro cs offset
  fun_induction scan cs offset with
  | case1 offset => exact nil offset
  | case2 offset c rest hb ih => exact blank c rest offset hb ih
  | case3 offset c rest _ t ht ih => exact single c t rest offset ht ih
  | case4 offset c rest _ hn _ _ _ ih => exact number c rest offset hn ih
  | case5 offset c rest _ _ hm _ _ _ ih => exact name c rest offset hm ih
  | case6 offset c rest hb hn hm hs ih =>
    have hs : single? c = none := Option.eq_none_iff_forall_not_mem.2 hs
    exact stray c rest offset (by simpa using hb) hs (by simpa using hn) (by simpa using hm) ih

/-! ## Where a new lexeme starts -/

/-- What no word goes on with is scanned as if nothing stood in front of it. -/
theorem scan_append_rest {rest : List Char} (hr : Stops rest) (cs : List Char) (offset : Nat) :
    ∃ offset', scan (cs ++ rest) offset = scan cs offset ++ scan rest offset' := by
  have hname : ∀ c ∈ rest.head?, continuesName c = false := fun c hc => (hr c hc).1
  induction cs, offset using scanRec with
  | nil offset => exact ⟨offset, by simp [scan_nil]⟩
  | blank c cs offset hc ih =>
    obtain ⟨offset', h⟩ := ih
    exact ⟨offset', by rw [List.cons_append, scan_blank hc, scan_blank hc, h]⟩
  | single c t cs offset hc ih =>
    obtain ⟨offset', h⟩ := ih
    refine ⟨offset', ?_⟩
    rw [List.cons_append, scan_of_single hc, scan_of_single hc, h, List.cons_append]
  | number c cs offset hc ih =>
    obtain ⟨offset', h⟩ := ih
    refine ⟨offset', ?_⟩
    rw [List.cons_append, scan_of_beginsNumber hc, scan_of_beginsNumber hc, ← List.cons_append,
      Numeral.scan_append_rest _ hr.ends, h, List.cons_append]
  | name c cs offset hc ih =>
    obtain ⟨offset', h⟩ := ih
    refine ⟨offset', ?_⟩
    rw [List.cons_append, scan_of_beginsName hc, scan_of_beginsName hc,
      takeWhile_append_of_head _ hname, dropWhile_append_of_head _ hname, h, List.cons_append]
  | stray c cs offset hb hs hn hm ih =>
    obtain ⟨offset', h⟩ := ih
    refine ⟨offset', ?_⟩
    rw [List.cons_append, scan_stray hb hs hn hm, scan_stray hb hs hn hm, h, List.cons_append]

/-- Where a text begins makes no difference to its tokens. -/
theorem scan_eq_map_token {cs : List Char} {offset : Nat} {ts : List Token}
    (h : scan cs offset = ts.map .token) (offset' : Nat) : scan cs offset' = ts.map .token := by
  induction cs, offset using scanRec generalizing offset' ts with
  | nil offset => rw [scan_nil] at h ⊢; exact h
  | blank c cs offset hc ih => rw [scan_blank hc] at h ⊢; exact ih h _
  | single c t cs offset hc ih =>
    rw [scan_of_single hc] at h ⊢
    obtain ⟨u, us, rfl, hu, hus⟩ := List.map_eq_cons_iff.1 h.symm
    rw [ih hus.symm, List.map_cons, hu]
  | number c cs offset hc ih =>
    rw [scan_of_beginsNumber hc] at h ⊢
    obtain ⟨u, us, rfl, hu, hus⟩ := List.map_eq_cons_iff.1 h.symm
    rw [ih hus.symm, List.map_cons, hu]
  | name c cs offset hc ih =>
    rw [scan_of_beginsName hc] at h ⊢
    obtain ⟨u, us, rfl, hu, hus⟩ := List.map_eq_cons_iff.1 h.symm
    rw [ih hus.symm, List.map_cons, hu]
  | stray c cs offset hb hs hn hm ih =>
    rw [scan_stray hb hs hn hm] at h
    obtain ⟨u, us, rfl, hu, -⟩ := List.map_eq_cons_iff.1 h.symm
    cases hu

theorem Stops.of_isBlank {c : Char} (hc : isBlank c = true) (rest : List Char) :
    Stops (c :: rest) := by
  rintro d ⟨⟩
  have hmem := mem_of_isBlank hc
  fin_cases hmem <;> decide

end Lexeme

/-! ## Blanks -/

namespace Spells

variable {cs ds : List Char} {ts us : List Token}

/-- A text that has tokens spells them wherever it stands. -/
theorem of_tokenize {s : String} (h : tokenize s = .ok ts) : Spells s.toList ts := by
  intro rest offset hr
  obtain ⟨offset', hs⟩ := Lexeme.scan_append_rest hr s.toList offset
  refine ⟨offset', ?_⟩
  rw [hs, Lexeme.scan_eq_map_token (tokenize_eq_ok_iff.1 h) offset]

theorem cons_blank {c : Char} (hc : Lexeme.isBlank c = true) (h : Spells cs ts) :
    Spells (c :: cs) ts := by
  intro rest offset hr
  obtain ⟨offset', hs⟩ := h rest (offset + c.utf8Size) hr
  exact ⟨offset', by rw [List.cons_append, Lexeme.scan_blank hc, hs]⟩

theorem snoc_blank {c : Char} (hc : Lexeme.isBlank c = true) (h : Spells cs ts) :
    Spells (cs ++ [c]) ts := by
  intro rest offset hr
  obtain ⟨offset', hs⟩ := h (c :: rest) offset (.of_isBlank hc rest)
  refine ⟨offset' + c.utf8Size, ?_⟩
  rw [List.append_assoc, List.singleton_append, hs, Lexeme.scan_blank hc]

theorem append_blanks {blanks : List Char} (hb : ∀ c ∈ blanks, Lexeme.isBlank c = true)
    (h : Spells cs ts) : Spells (blanks ++ cs) ts := by
  induction blanks with
  | nil => exact h
  | cons c blanks ih =>
    exact cons_blank (hb c (by simp)) (ih fun d hd => hb d (List.mem_cons_of_mem c hd))

/-- Words that do not go on with what follows them. -/
theorem append_of_stops (h : Spells cs ts) (h' : Spells ds us) (hd : ds ≠ [])
    (hs : Lexeme.Stops ds) : Spells (cs ++ ds) (ts ++ us) := by
  intro rest offset hr
  have hrest : Lexeme.Stops (ds ++ rest) := by
    cases ds with
    | nil => exact absurd rfl hd
    | cons d ds => exact hs
  obtain ⟨mid, hcs⟩ := h (ds ++ rest) offset hrest
  obtain ⟨offset', hds⟩ := h' rest mid hr
  refine ⟨offset', ?_⟩
  rw [List.append_assoc, hcs, hds, List.map_append, List.append_assoc]

end Spells

/-- The texts of the tokens, with one blank or more between each two of them. -/
inductive Spaced : List Token → List Char → Prop
  | nil : Spaced [] []
  | single (t : Token) : Spaced [t] t.text
  | cons {t u : Token} {us : List Token} {blanks cs : List Char} : blanks ≠ [] →
      (∀ c ∈ blanks, Lexeme.isBlank c = true) → Spaced (u :: us) cs →
      Spaced (t :: u :: us) (t.text ++ (blanks ++ cs))

theorem Spaced.spells {ts : List Token} {cs : List Char} (h : Spaced ts cs)
    (ht : ∀ t ∈ ts, t.IsWord) : Spells cs ts := by
  induction h with
  | nil => exact fun rest offset _ => ⟨offset, rfl⟩
  | single t => exact .word (ht t (by simp))
  | @cons t u us blanks cs hne hb _ ih =>
    have hrest : Spells (blanks ++ cs) (u :: us) :=
      (ih fun v hv => ht v (List.mem_cons_of_mem t hv)).append_blanks hb
    have hstop : Lexeme.Stops (blanks ++ cs) := by
      cases blanks with
      | nil => exact absurd rfl hne
      | cons c blanks => exact .of_isBlank (hb c (by simp)) _
    exact (Spells.word (ht t (by simp))).append_of_stops hrest (by simp [hne]) hstop

end ExprFold
