import ExprFold.Proofs.Numerals
import ExprFold.Token.Lexer
import Mathlib

/-!
# Words of the text language

`Token.IsWord` says with which characters a token can be written. The scan of a text finds no other
tokens (`isWord_of_mem_scan`), and it finds each of these where it stands in front of something that
does not go on with it (`scan_text_append`). So a token is a word just when its text on its own is
that token (`Token.isWord_iff`). `Spells` puts words together.
-/

namespace ExprFold

/-! ## The characters of a token -/

/-- One digit or more. -/
def IsDigits (cs : List Char) : Prop := cs ≠ [] ∧ ∀ c ∈ cs, c.isDigit = true

/-- A number with a point or an exponent, the exponent not coming first. -/
def IsDecimal (cs : List Char) : Prop :=
  ∃ n : Numeral, n.WellFormed ∧ n.isWhole = false ∧ (n.whole ≠ [] ∨ n.fraction.isSome = true) ∧
    n.text = cs

/-- A letter or underscore, and then letters, underscores and digits. -/
def IsName (cs : List Char) : Prop :=
  ∃ c rest, cs = c :: rest ∧ Lexeme.beginsName c = true ∧
    ∀ d ∈ rest, Lexeme.continuesName d = true

/-- The token has a text that such a token can have. -/
def Token.IsWord : Token → Prop
  | .integer s => IsDigits s.toList
  | .decimal s => IsDecimal s.toList
  | .name s => IsName s.toList
  | .op _ | .leftParen | .rightParen => True

theorem IsDigits.beginsNumber {cs : List Char} (h : IsDigits cs) :
    ∃ c rest, cs = c :: rest ∧ Lexeme.beginsNumber c = true := by
  obtain ⟨hne, hd⟩ := h
  cases cs with
  | nil => exact absurd rfl hne
  | cons c rest => exact ⟨c, rest, rfl, by simp [Lexeme.beginsNumber, hd c (by simp)]⟩

/-- A number with a digit or a point in front of its exponent begins with one of them. -/
theorem Numeral.WellFormed.text_eq_cons {n : Numeral} (hn : n.WellFormed)
    (hb : n.whole ≠ [] ∨ n.fraction.isSome = true) :
    ∃ c rest, n.text = c :: rest ∧ Lexeme.beginsNumber c = true := by
  obtain ⟨whole, fraction, exponent⟩ := n
  cases whole with
  | cons c whole => exact ⟨c, _, rfl, by simp [Lexeme.beginsNumber, hn.whole c (by simp)]⟩
  | nil =>
    cases fraction with
    | none => simp at hb
    | some ds => exact ⟨'.', _, rfl, rfl⟩

theorem IsDecimal.beginsNumber {cs : List Char} (h : IsDecimal cs) :
    ∃ c rest, cs = c :: rest ∧ Lexeme.beginsNumber c = true := by
  obtain ⟨n, hn, -, hb, rfl⟩ := h
  exact hn.text_eq_cons hb

namespace Lexeme

/-! ## Kinds of characters

The first character of a lexeme decides what it is, so the classes of first characters must not
overlap.
-/

theorem mem_of_isBlank {c : Char} (h : isBlank c = true) :
    c ∈ [' ', '\t', '\n', '\x0c', '\r'] := by
  simpa [isBlank, or_assoc] using h

theorem isBlank_of_single {c : Char} {t : Token} (h : single? c = some t) : isBlank c = false := by
  unfold single? at h
  split at h <;> first | rfl | cases h

section

variable {p : Char → Bool} {c : Char}

/-- A character of a class without blanks is none. -/
theorem isBlank_of_class (hp : [' ', '\t', '\n', '\x0c', '\r'].all (!p ·) = true) (h : p c = true) :
    isBlank c = false := by
  rw [Bool.eq_false_iff]
  intro hb
  simpa [h] using List.all_eq_true.1 hp c (mem_of_isBlank hb)

/-- A character of a class without signs and parentheses is no token on its own. -/
theorem single?_of_class (hp : ['(', ')', '+', '-', '*', '/'].all (!p ·) = true) (h : p c = true) :
    single? c = none := by
  unfold single?
  split
  case h_7 => rfl
  all_goals simp [h] at hp

end

theorem beginsNumber_of_beginsName {c : Char} (h : beginsName c = true) :
    beginsNumber c = false := by
  rw [Bool.eq_false_iff]
  intro hn
  simp only [beginsNumber, Bool.or_eq_true, beq_iff_eq] at hn
  rcases hn with hn | rfl
  · rw [Char.isDigit_iff_toNat] at hn
    simp [beginsName, Char.isAlpha, Char.isUpper, Char.isLower, UInt32.le_iff_toNat_le] at h hn
    rcases h with h | rfl
    · omega
    · exact absurd hn (by decide)
  · exact absurd h (by decide)

/-! ## Every token that is found is a word -/

theorem isWord_of_single {c : Char} {t : Token} (h : single? c = some t) : t.IsWord := by
  unfold single? at h
  split at h <;> cases h <;> trivial

/-- What a scan takes off a text that begins like a number begins like a number itself. -/
theorem begins_of_scan {c : Char} {rest : List Char} (h : beginsNumber c = true) :
    (Numeral.scan (c :: rest)).1.whole ≠ [] ∨
      (Numeral.scan (c :: rest)).1.fraction.isSome = true := by
  simp only [beginsNumber, Bool.or_eq_true, beq_iff_eq] at h
  rcases h with h | rfl
  · left
    simp [Numeral.scan, h]
  · right
    simp [Numeral.scan, Numeral.scanFraction, Char.isDigit]

theorem isWord_ofNumeral {n : Numeral} (hn : n.WellFormed)
    (hb : n.whole ≠ [] ∨ n.fraction.isSome = true) : (ofNumeral n).IsWord := by
  unfold ofNumeral
  split
  · rename_i hw
    obtain ⟨whole, fraction, exponent⟩ := n
    obtain ⟨rfl, rfl⟩ : fraction = none ∧ exponent = none := by simpa [Numeral.isWhole] using hw
    have hne : whole ≠ [] := by simpa using hb
    simpa [Token.IsWord, IsDigits, Numeral.text] using ⟨hne, hn.whole⟩
  · rename_i hw
    exact ⟨n, hn, by simpa using hw, hb, by simp⟩

theorem isWord_of_mem_scan {cs : List Char} {offset : Nat} {t : Token}
    (h : token t ∈ scan cs offset) : t.IsWord := by
  fun_induction scan cs offset with
  | case1 => cases h
  | case2 _ _ _ _ ih => exact ih h
  | case3 offset c rest hb u hs ih =>
    rcases List.mem_cons.1 h with h | h
    · cases h; exact isWord_of_single hs
    · exact ih h
  | case4 offset c rest hb hn n _ _ ih =>
    rcases List.mem_cons.1 h with h | h
    · cases h; exact isWord_ofNumeral (Numeral.wellFormed_scan _) (begins_of_scan hn)
    · exact ih h
  | case5 offset c rest hb hn hm name _ _ ih =>
    rcases List.mem_cons.1 h with h | h
    · cases h
      exact ⟨c, rest.takeWhile continuesName, by simp [name], hm,
        fun d hd => List.mem_takeWhile_imp hd⟩
    · exact ih h
  | case6 _ _ _ _ _ _ _ ih =>
    rcases List.mem_cons.1 h with h | h
    · cases h
    · exact ih h

/-! ## Every word is found -/

/-- A text that no word goes on with. -/
def Stops (rest : List Char) : Prop :=
  ∀ c ∈ rest.head?, continuesName c = false ∧ c ∉ ['.', '+', '-']

theorem Stops.ends {rest : List Char} (h : Stops rest) : Numeral.Ends rest := by
  intro c hc
  obtain ⟨hn, hm⟩ := h c hc
  simp only [continuesName, Char.isAlphanum, Bool.or_eq_false_iff] at hn
  refine ⟨hn.1.2, ?_⟩
  -- the exponent marks are letters
  have he : c ≠ 'e' := by rintro rfl; exact absurd hn.1.1 (by decide)
  have hE : c ≠ 'E' := by rintro rfl; exact absurd hn.1.1 (by decide)
  simp_all

theorem scan_numeral {n : Numeral} (hn : n.WellFormed)
    (hb : n.whole ≠ [] ∨ n.fraction.isSome = true) {rest : List Char} (hr : Stops rest)
    (offset : Nat) :
    scan (n.text ++ rest) offset = token (ofNumeral n) :: scan rest (offset + n.text.length) := by
  have hscan := Numeral.scan_text_append hn hr.ends
  obtain ⟨c, cs, ht, hc⟩ := hn.text_eq_cons hb
  rw [ht, List.cons_append] at hscan ⊢
  rw [scan_number (isBlank_of_class rfl hc) (single?_of_class rfl hc) hc, hscan, ht]

/-- A word is found whole in front of a text that does not go on with it. -/
theorem scan_text_append {t : Token} (ht : t.IsWord) {rest : List Char} (hr : Stops rest)
    (offset : Nat) :
    ∃ offset', scan (t.text ++ rest) offset = token t :: scan rest offset' := by
  cases t with
  | integer s =>
    obtain ⟨hne, hd⟩ := ht
    have hn : Numeral.WellFormed ⟨s.toList, none, none⟩ := ⟨hd, nofun, nofun, nofun, nofun⟩
    have h := scan_numeral hn (.inl hne) hr offset
    exact ⟨_, by simpa [Token.text, Numeral.text, ofNumeral, Numeral.isWhole] using h⟩
  | decimal s =>
    obtain ⟨n, hn, hw, hb, hs⟩ := ht
    have h := scan_numeral hn hb hr offset
    exact ⟨_, by simpa [Token.text, ofNumeral, hw, hs] using h⟩
  | name s =>
    obtain ⟨c, cs, hs, hc, hcs⟩ := ht
    have hstop : ∀ d ∈ rest.head?, continuesName d = false := fun d hd => (hr d hd).1
    have h : scan (c :: (cs ++ rest)) offset = _ := scan_name (isBlank_of_class rfl hc)
      (single?_of_class rfl hc) (beginsNumber_of_beginsName hc) hc
    rw [takeWhile_append_of_stop hcs hstop, dropWhile_append_of_stop hcs hstop, ← hs,
      String.ofList_toList] at h
    exact ⟨_, by rw [Token.text, hs]; exact h⟩
  | op o =>
    have hs : single? o.symbol = some (.op o) := by cases o <;> rfl
    exact ⟨_, scan_single (isBlank_of_single hs) hs⟩
  | leftParen => exact ⟨_, scan_single rfl rfl⟩
  | rightParen => exact ⟨_, scan_single rfl rfl⟩

end Lexeme

/-! ## Texts of several words -/

/-- Wherever the text stands in front of something that does not go on with it, the scan finds the
tokens and then the rest. -/
def Spells (cs : List Char) (ts : List Token) : Prop :=
  ∀ rest offset, Lexeme.Stops rest → ∃ offset',
    Lexeme.scan (cs ++ rest) offset = ts.map .token ++ Lexeme.scan rest offset'

namespace Spells

variable {cs ds : List Char} {ts us : List Token}

theorem word {t : Token} (ht : t.IsWord) : Spells t.text [t] :=
  fun _ offset hr => Lexeme.scan_text_append ht hr offset

/-- A token of one character can stand directly in front. -/
theorem cons {c : Char} {t : Token} (hc : Lexeme.single? c = some t) (h : Spells cs ts) :
    Spells (c :: cs) (t :: ts) := by
  intro rest offset hr
  obtain ⟨offset', hs⟩ := h rest (offset + c.utf8Size) hr
  refine ⟨offset', ?_⟩
  rw [List.cons_append, Lexeme.scan_single (Lexeme.isBlank_of_single hc) hc, hs]
  rfl

/-- Words with a blank between them. -/
theorem append (h : Spells cs ts) (h' : Spells ds us) : Spells (cs ++ ' ' :: ds) (ts ++ us) := by
  intro rest offset hr
  obtain ⟨mid, hs⟩ := h (' ' :: (ds ++ rest)) offset (by rintro c ⟨⟩; decide)
  obtain ⟨offset', hs'⟩ := h' rest (mid + (' ' : Char).utf8Size) hr
  refine ⟨offset', ?_⟩
  rw [List.append_assoc, List.cons_append, hs, Lexeme.scan_blank rfl, hs', List.map_append,
    List.append_assoc]

/-- A closing parenthesis can stand directly behind. -/
theorem close (h : Spells cs ts) : Spells (cs ++ [')']) (ts ++ [.rightParen]) := by
  intro rest offset hr
  obtain ⟨mid, hs⟩ := h (')' :: rest) offset (by rintro c ⟨⟩; decide)
  refine ⟨mid + (')' : Char).utf8Size, ?_⟩
  rw [List.append_assoc, List.singleton_append, hs, Lexeme.scan_single rfl rfl, List.map_append,
    List.append_assoc]
  rfl

/-- Words between parentheses. -/
theorem parens (h : Spells cs ts) :
    Spells ('(' :: cs ++ [')']) (.leftParen :: ts ++ [.rightParen]) :=
  cons rfl h.close

theorem scan_eq (h : Spells cs ts) (offset : Nat) :
    Lexeme.scan cs offset = ts.map .token := by
  obtain ⟨offset', hs⟩ := h [] offset nofun
  simpa [Lexeme.scan_nil] using hs

end Spells

/-! ## The tokens of a text -/

theorem eq_map_token_of_faults {ls : List Lexeme} (h : ls.filterMap Lexeme.fault? = []) :
    ls = (ls.filterMap Lexeme.token?).map .token := by
  induction ls with
  | nil => rfl
  | cons l ls ih =>
    cases l with
    | token t => simpa [Lexeme.fault?, Lexeme.token?] using ih h
    | stray c offset => simp [Lexeme.fault?] at h

/-- A text has tokens when the scan finds nothing else. -/
theorem tokenize_eq_ok_iff {s : String} {ts : List Token} :
    tokenize s = .ok ts ↔ Lexeme.scan s.toList 0 = ts.map .token := by
  simp only [tokenize]
  constructor
  · intro h
    split at h
    · rename_i hf
      cases h
      exact eq_map_token_of_faults hf
    · cases h
  · intro h
    have hfault : (ts.map Lexeme.token).filterMap Lexeme.fault? = [] := by
      simp [List.filterMap_map, Function.comp_def, Lexeme.fault?]
    have htoken : (ts.map Lexeme.token).filterMap Lexeme.token? = ts := by
      simp [List.filterMap_map, Function.comp_def, Lexeme.token?]
    simp only [h, hfault, htoken]

theorem isWord_of_tokenize {s : String} {ts : List Token} (h : tokenize s = .ok ts) :
    ∀ t ∈ ts, t.IsWord := by
  intro t ht
  have hmem : Lexeme.token t ∈ Lexeme.scan s.toList 0 := by
    rw [tokenize_eq_ok_iff.1 h]
    exact List.mem_map_of_mem ht
  exact Lexeme.isWord_of_mem_scan hmem

theorem Spells.tokenize_eq_ok {cs : List Char} {ts : List Token} (h : Spells cs ts) :
    tokenize (String.ofList cs) = .ok ts := by
  rw [tokenize_eq_ok_iff, String.toList_ofList]
  exact h.scan_eq 0

/-- The words are the tokens whose text is read as just that token. -/
theorem Token.isWord_iff {t : Token} :
    t.IsWord ↔ tokenize (String.ofList t.text) = .ok [t] :=
  ⟨fun h => (Spells.word h).tokenize_eq_ok, fun h => isWord_of_tokenize h t (by simp)⟩

end ExprFold
