import ExprFold.Proofs.ByteScan

/-!
# Maximal munch

The texts of names and of numbers are regular languages, and a name or number token is the longest
of them that stands where the token begins. `Munches` cuts a text into such tokens and the blanks
around them, and the tokens of a text are just those that it is cut into
(`tokenize_eq_ok_iff_munches`). Main statement: `tokenize_munches`.
-/

namespace ExprFold

open Computability

/-! ## The languages of names and numbers -/

/-- The texts of one character of a class. -/
def oneOf (p : Char → Bool) : Language Char := {cs | ∃ c, p c = true ∧ cs = [c]}

/-- A letter or an underscore, and then letters, digits and underscores. -/
def nameTexts : Language Char := oneOf Lexeme.beginsName * (oneOf Lexeme.continuesName)∗

/-- A point with digits. -/
def fractionTexts : Language Char := oneOf (· == '.') * (oneOf Char.isDigit)∗

/-- The mark of an exponent with digits, and with a sign or without. -/
def exponentTexts : Language Char :=
  oneOf (fun c => c == 'e' || c == 'E') * (oneOf (fun c => c == '+' || c == '-') + 1) *
    (oneOf Char.isDigit)∗

/-- Digits, a point with more of them, and an exponent. Each of these may be missing. -/
def numberTexts : Language Char :=
  (oneOf Char.isDigit)∗ * (fractionTexts + 1) * (exponentTexts + 1)

section
variable {p : Char → Bool} {cs : List Char}

theorem mem_oneOf : cs ∈ oneOf p ↔ ∃ c, p c = true ∧ cs = [c] := Iff.rfl

theorem mem_kstar_oneOf : cs ∈ (oneOf p)∗ ↔ ∀ c ∈ cs, p c = true := by
  rw [Language.mem_kstar]
  constructor
  · rintro ⟨words, rfl, hwords⟩ c hc
    obtain ⟨word, hword, hc⟩ := List.mem_flatten.1 hc
    obtain ⟨d, hd, rfl⟩ := hwords word hword
    rwa [List.mem_singleton.1 hc]
  · intro h
    refine ⟨cs.map ([·]), by rw [← List.flatMap_def, List.flatMap_singleton'], ?_⟩
    intro word hword
    obtain ⟨c, hc, rfl⟩ := List.mem_map.1 hword
    exact ⟨c, h c hc, rfl⟩

theorem mem_nameTexts : cs ∈ nameTexts ↔ IsName cs := by
  simp only [nameTexts, Language.mem_mul, mem_oneOf, mem_kstar_oneOf, IsName]
  constructor
  · rintro ⟨_, ⟨c, hc, rfl⟩, rest, hrest, rfl⟩
    exact ⟨c, rest, rfl, hc, hrest⟩
  · rintro ⟨c, rest, rfl, hc, hrest⟩
    exact ⟨[c], ⟨c, hc, rfl⟩, rest, hrest, rfl⟩

/-- A part that may be missing. -/
theorem mem_add_one {l : Language Char} : cs ∈ l + 1 ↔ cs ∈ l ∨ cs = [] := by
  rw [Language.mem_add, Language.mem_one]

theorem mem_fractionTexts :
    cs ∈ fractionTexts ↔ ∃ ds, (∀ c ∈ ds, c.isDigit = true) ∧ '.' :: ds = cs := by
  simp only [fractionTexts, Language.mem_mul, mem_oneOf, mem_kstar_oneOf, beq_iff_eq]
  constructor
  · rintro ⟨_, ⟨_, rfl, rfl⟩, ds, hds, rfl⟩
    exact ⟨ds, hds, rfl⟩
  · rintro ⟨ds, hds, rfl⟩
    exact ⟨['.'], ⟨'.', rfl, rfl⟩, ds, hds, rfl⟩

theorem mem_sign :
    cs ∈ (oneOf fun c => c == '+' || c == '-') + 1 ↔
      ∃ sign : Option Char, (∀ c ∈ sign, c = '+' ∨ c = '-') ∧ sign.toList = cs := by
  rw [mem_add_one, mem_oneOf]
  constructor
  · rintro (⟨c, hc, rfl⟩ | rfl)
    · refine ⟨some c, ?_, rfl⟩
      rintro d ⟨⟩
      simpa using hc
    · exact ⟨none, nofun, rfl⟩
  · rintro ⟨_ | c, hc, rfl⟩
    · exact .inr rfl
    · exact .inl ⟨c, by simpa using hc c rfl, rfl⟩

theorem mem_exponentTexts :
    cs ∈ exponentTexts ↔ ∃ e : Numeral.Exponent, (e.mark = 'e' ∨ e.mark = 'E') ∧
      (∀ c ∈ e.sign, c = '+' ∨ c = '-') ∧ (∀ c ∈ e.digits, c.isDigit = true) ∧ e.text = cs := by
  simp only [exponentTexts, Language.mem_mul, mem_sign, mem_oneOf, mem_kstar_oneOf, Bool.or_eq_true,
    beq_iff_eq]
  constructor
  · rintro ⟨_, ⟨_, ⟨mark, hm, rfl⟩, _, ⟨sign, hs, rfl⟩, rfl⟩, ds, hds, rfl⟩
    exact ⟨⟨mark, sign, ds⟩, hm, hs, hds, rfl⟩
  · rintro ⟨⟨mark, sign, ds⟩, hm, hs, hds, rfl⟩
    exact ⟨_, ⟨_, ⟨mark, hm, rfl⟩, _, ⟨sign, hs, rfl⟩, rfl⟩, ds, hds, rfl⟩

/-- These are the texts of well-formed numbers. -/
theorem mem_numberTexts : cs ∈ numberTexts ↔ ∃ n : Numeral, n.WellFormed ∧ n.text = cs := by
  simp only [numberTexts, Language.mem_mul, mem_add_one, mem_kstar_oneOf, mem_fractionTexts,
    mem_exponentTexts]
  constructor
  · rintro ⟨_, ⟨whole, hw, _, ⟨ds, hf, rfl⟩ | rfl, rfl⟩, _, ⟨e, hm, hs, hd, rfl⟩ | rfl, rfl⟩
    · exact ⟨⟨whole, some ds, some e⟩, ⟨hw, by simpa using hf, by simpa using hm,
        by simpa using hs, by simpa using hd⟩, rfl⟩
    · exact ⟨⟨whole, some ds, none⟩, ⟨hw, by simpa using hf, nofun, nofun, nofun⟩, rfl⟩
    · exact ⟨⟨whole, none, some e⟩, ⟨hw, nofun, by simpa using hm, by simpa using hs,
        by simpa using hd⟩, rfl⟩
    · exact ⟨⟨whole, none, none⟩, ⟨hw, nofun, nofun, nofun, nofun⟩, rfl⟩
  · rintro ⟨⟨whole, fraction, exponent⟩, ⟨hw, hf, hm, hs, hd⟩, rfl⟩
    refine ⟨_, ⟨whole, hw, _, ?_, rfl⟩, _, ?_, rfl⟩
    · cases fraction with
      | none => exact .inr rfl
      | some ds => exact .inl ⟨ds, hf ds rfl, rfl⟩
    · cases exponent with
      | none => exact .inr rfl
      | some e => exact .inl ⟨e, hm e rfl, hs e rfl, hd e rfl, rfl⟩

end

/-! ## The longest text -/

/-- The longest text of a language that the characters begin with. -/
structure IsLongest (l : Language Char) (cs text : List Char) : Prop where
  mem : text ∈ l
  isPrefix : text <+: cs
  length_le : ∀ other ∈ l, other <+: cs → other.length ≤ text.length

section
variable {l : Language Char} {cs text other : List Char}

theorem IsLongest.unique (h : IsLongest l cs text) (h' : IsLongest l cs other) : text = other := by
  have hprefix := List.prefix_of_prefix_length_le h.isPrefix h'.isPrefix
    (h'.length_le text h.mem h.isPrefix)
  exact hprefix.eq_of_length_le (h.length_le other h'.mem h'.isPrefix)

/-- A run of a class at the beginning is part of the longest one. -/
theorem length_le_takeWhile {p : Char → Bool} {ds rest : List Char} (h : ∀ c ∈ ds, p c = true) :
    ds.length ≤ ((ds ++ rest).takeWhile p).length := by
  rw [List.takeWhile_append_of_pos h, List.length_append]
  exact Nat.le_add_right _ _

theorem isLongest_name {c : Char} {rest : List Char} (hc : Lexeme.beginsName c = true) :
    IsLongest nameTexts (c :: rest) (c :: rest.takeWhile Lexeme.continuesName) where
  mem := mem_nameTexts.2 ⟨c, _, rfl, hc, fun d hd => List.mem_takeWhile_imp hd⟩
  isPrefix := List.cons_prefix_cons.2 ⟨rfl, List.takeWhile_prefix _⟩
  length_le := by
    intro other hother hprefix
    obtain ⟨d, ds, rfl, -, hds⟩ := mem_nameTexts.1 hother
    obtain ⟨-, behind, rfl⟩ := List.cons_prefix_cons.1 hprefix
    exact Nat.succ_le_succ (length_le_takeWhile hds)

end

namespace Numeral

variable {rest : List Char}

/-- An exponent at the beginning is part of the one that is scanned. -/
theorem length_text_le_scanExponent {e : Exponent} (hm : e.mark = 'e' ∨ e.mark = 'E')
    (hs : ∀ c ∈ e.sign, c = '+' ∨ c = '-') (hd : ∀ c ∈ e.digits, c.isDigit = true) :
    e.text.length ≤ ((scanExponent (e.text ++ rest)).1.elim [] Exponent.text).length := by
  obtain ⟨mark, sign, ds⟩ := e
  have hdigits : ds.length ≤ _ := @length_le_takeWhile Char.isDigit ds rest hd
  -- a sign may only be read in front of no digits, where it is not missed
  have hsign : (ds = [] ∧ sign = none) ∨
      scanSign (sign.toList ++ (ds ++ rest)) = (sign, ds ++ rest) := by
    cases sign with
    | some c => exact .inr (by simp [scanSign, hs c rfl])
    | none =>
      cases ds with
      | nil => exact .inl ⟨rfl, rfl⟩
      | cons d ds =>
        refine .inr (@scanSign_append_of none _ (by simp) fun c hc => ?_)
        cases hc
        have := hd d (by simp)
        constructor <;> rintro rfl <;> exact absurd this (by decide)
  rcases hsign with ⟨rfl, rfl⟩ | hsign
  · simp [Exponent.text, scanExponent, hm]
  · simp [Exponent.text, scanExponent, hm, hsign]
    omega

/-- What is scanned behind the digits has what stands there of a number. -/
theorem length_le_scanFraction {n : Numeral} (hn : n.WellFormed) :
    let cs := n.fraction.elim [] ('.' :: ·) ++ (n.exponent.elim [] Exponent.text ++ rest)
    (n.fraction.elim [] ('.' :: ·) ++ n.exponent.elim [] Exponent.text).length ≤
      ((scanFraction cs).1.elim [] ('.' :: ·) ++
        (scanExponent (scanFraction cs).2).1.elim [] Exponent.text).length := by
  obtain ⟨whole, fraction, exponent⟩ := n
  cases exponent with
  | none =>
    cases fraction with
    | none => exact Nat.zero_le _
    | some ds =>
      have hdigits : ds.length ≤ _ := @length_le_takeWhile Char.isDigit ds rest (hn.fraction ds rfl)
      simp [scanFraction]
      omega
  | some e =>
    have hexponent : e.text.length ≤ _ :=
      @length_text_le_scanExponent rest e (hn.mark e rfl) (hn.sign e rfl) (hn.digits e rfl)
    -- the mark goes on with no digits, and it is no point
    have hmark : ∀ c ∈ (e.text ++ rest).head?, c.isDigit = false ∧ c ≠ '.' := by
      rintro c ⟨⟩
      rcases hn.mark e rfl with h | h <;> rw [h] <;> decide
    have hscan : scanFraction (fraction.elim [] ('.' :: ·) ++ (e.text ++ rest)) =
        (fraction, e.text ++ rest) := scanFraction_append_of hn.fraction hmark
    simp only [Option.elim_some, hscan, List.length_append]
    omega

/-- No longer number stands at the beginning than the one that is scanned. -/
theorem length_text_le_scan {n : Numeral} (hn : n.WellFormed) :
    n.text.length ≤ (scan (n.text ++ rest)).1.text.length := by
  by_cases hwhole : n.fraction = none ∧ n.exponent = none
  · have hdigits : n.whole.length ≤ _ := @length_le_takeWhile Char.isDigit n.whole rest hn.whole
    simp [text, scan, hwhole]
    omega
  · have htail := @length_le_scanFraction rest n hn
    -- what stands behind the whole digits is a point or a mark
    have hhead : ∀ c ∈ (n.fraction.elim [] ('.' :: ·) ++
        (n.exponent.elim [] Exponent.text ++ rest)).head?, c.isDigit = false := by
      intro c hc
      cases hf : n.fraction with
      | some ds => rw [hf] at hc; cases hc; rfl
      | none =>
        cases he : n.exponent with
        | none => exact absurd ⟨hf, he⟩ hwhole
        | some e =>
          rw [hf, he] at hc
          cases hc
          rcases hn.mark e he with h | h <;> rw [h] <;> rfl
    simp only [List.length_append] at htail
    simp only [text, scan, List.append_assoc, takeWhile_append_of_stop hn.whole hhead,
      dropWhile_append_of_stop hn.whole hhead, List.length_append]
    omega

end Numeral

/-! ## Tokens as long as can be -/

theorem isLongest_number (cs : List Char) :
    IsLongest numberTexts cs (Numeral.scan cs).1.text where
  mem := mem_numberTexts.2 ⟨_, Numeral.wellFormed_scan cs, rfl⟩
  isPrefix := ⟨_, Numeral.scan_append cs⟩
  length_le := by
    intro other hother hprefix
    obtain ⟨n, hn, rfl⟩ := mem_numberTexts.1 hother
    obtain ⟨rest, rfl⟩ := hprefix
    exact Numeral.length_text_le_scan hn

/-- Without a point and the mark of an exponent. -/
def IsPlain (text : List Char) : Prop := ∀ c ∈ text, c ∉ ['.', 'e', 'E']

/-- The token is the longest of its kind that the characters begin with. A number begins with a
digit or a point, and it is an integer just when it is plain. -/
def Token.IsMunched (cs : List Char) : Token → Prop
  | .name s => IsLongest nameTexts cs s.toList
  | .integer s => IsLongest numberTexts cs s.toList ∧
      (∃ c ∈ s.toList.head?, Lexeme.beginsNumber c = true) ∧ IsPlain s.toList
  | .decimal s => IsLongest numberTexts cs s.toList ∧
      (∃ c ∈ s.toList.head?, Lexeme.beginsNumber c = true) ∧ ¬IsPlain s.toList
  | .op _ | .leftParen | .rightParen => True

/-- Runs of blanks in turn with the texts of the tokens, each of these as long as can be. -/
inductive Munches : List Token → List Char → Prop
  | nil {blanks : List Char} : (∀ c ∈ blanks, Lexeme.isBlank c = true) → Munches [] blanks
  | cons {blanks cs : List Char} {t : Token} {ts : List Token} :
      (∀ c ∈ blanks, Lexeme.isBlank c = true) → t.IsMunched (t.text ++ cs) → Munches ts cs →
      Munches (t :: ts) (blanks ++ (t.text ++ cs))

/-- The numbers without a point and an exponent are plain, and no others. -/
theorem Numeral.WellFormed.isPlain_iff {n : Numeral} (hn : n.WellFormed) :
    IsPlain n.text ↔ n.isWhole = true := by
  obtain ⟨whole, fraction, exponent⟩ := n
  constructor
  · intro h
    cases fraction with
    | some ds => exact absurd (by simp) (h '.' (by simp [text]))
    | none =>
      cases exponent with
      | some e =>
        have hmark := h e.mark (by simp [text, Exponent.text])
        rcases hn.mark e rfl with he | he <;> simp [he] at hmark
      | none => rfl
  · intro h c hc
    obtain ⟨rfl, rfl⟩ : fraction = none ∧ exponent = none := by simpa [isWhole] using h
    have hdigit := hn.whole c (by simpa [text] using hc)
    intro hm
    fin_cases hm <;> cases hdigit

section
variable {c : Char} {cs : List Char} {t : Token} {ts : List Token} {offset : Nat}

/-! ### The tokens of a text are as long as can be -/

theorem isMunched_ofNumeral (h : Lexeme.beginsNumber c = true) :
    (Lexeme.ofNumeral (Numeral.scan (c :: cs)).1).IsMunched (c :: cs) := by
  have hn := Numeral.wellFormed_scan (c :: cs)
  have hlongest := isLongest_number (c :: cs)
  have hplain := hn.isPlain_iff
  obtain ⟨d, ds, htext, hd⟩ := hn.text_eq_cons (Lexeme.begins_of_scan h)
  have hbegins : ∃ e ∈ (Numeral.scan (c :: cs)).1.text.head?, Lexeme.beginsNumber e = true :=
    ⟨d, by rw [htext]; rfl, hd⟩
  unfold Lexeme.ofNumeral
  split
  · rename_i hw
    simpa only [Token.IsMunched, String.toList_ofList] using ⟨hlongest, hbegins, hplain.2 hw⟩
  · rename_i hw
    simpa only [Token.IsMunched, String.toList_ofList] using ⟨hlongest, hbegins, mt hplain.1 hw⟩

theorem text_ofNumeral (n : Numeral) : (Lexeme.ofNumeral n).text = n.text := by
  unfold Lexeme.ofNumeral
  split <;> simp [Token.text]

theorem text_of_single (h : Lexeme.single? c = some t) : t.text = [c] := by
  unfold Lexeme.single? at h
  split at h <;> cases h <;> rfl

theorem isMunched_of_single (h : Lexeme.single? c = some t) : t.IsMunched cs := by
  unfold Lexeme.single? at h
  split at h <;> cases h <;> trivial

theorem Munches.cons_blank (hc : Lexeme.isBlank c = true) (h : Munches ts cs) :
    Munches ts (c :: cs) := by
  cases h with
  | nil hb => exact .nil (List.forall_mem_cons.2 ⟨hc, hb⟩)
  | cons hb ht h => exact .cons (List.forall_mem_cons.2 ⟨hc, hb⟩) ht h

/-- A token that stands in front without a blank. -/
theorem Munches.cons_text {text rest : List Char} (ht : t.text = text) (hcs : cs = text ++ rest)
    (h : t.IsMunched cs) (hrest : Munches ts rest) : Munches (t :: ts) cs := by
  subst ht hcs
  exact @Munches.cons [] _ _ _ nofun h hrest

theorem munches_of_scan (h : Lexeme.scan cs offset = ts.map .token) : Munches ts cs := by
  induction cs, offset using Lexeme.scanRec generalizing ts with
  | nil offset =>
    rw [Lexeme.scan_nil] at h
    obtain rfl := List.map_eq_nil_iff.1 h.symm
    exact .nil nofun
  | blank c cs offset hc ih =>
    rw [Lexeme.scan_blank hc] at h
    exact (ih h).cons_blank hc
  | single c t cs offset hc ih =>
    rw [Lexeme.scan_of_single hc] at h
    obtain ⟨u, us, rfl, hu, hus⟩ := List.map_eq_cons_iff.1 h.symm
    cases hu
    exact .cons_text (text_of_single hc) rfl (isMunched_of_single hc) (ih hus.symm)
  | number c cs offset hc ih =>
    rw [Lexeme.scan_of_beginsNumber hc] at h
    obtain ⟨u, us, rfl, hu, hus⟩ := List.map_eq_cons_iff.1 h.symm
    cases hu
    exact .cons_text (text_ofNumeral _) (Numeral.scan_append (c :: cs)).symm
      (isMunched_ofNumeral hc) (ih hus.symm)
  | name c cs offset hc ih =>
    rw [Lexeme.scan_of_beginsName hc] at h
    obtain ⟨u, us, rfl, hu, hus⟩ := List.map_eq_cons_iff.1 h.symm
    cases hu
    have hname : (Token.name (String.ofList (c :: cs.takeWhile Lexeme.continuesName))).IsMunched
        (c :: cs) := by
      rw [Token.IsMunched, String.toList_ofList]
      exact isLongest_name hc
    exact .cons_text String.toList_ofList (Lexeme.name_append c cs).symm hname (ih hus.symm)
  | stray c cs offset hb hs hn hm ih =>
    rw [Lexeme.scan_stray hb hs hn hm] at h
    obtain ⟨u, us, rfl, hu, -⟩ := List.map_eq_cons_iff.1 h.symm
    cases hu

/-! ### The longest tokens are those of the text -/

theorem scan_of_isLongest_number {text : List Char} (h : IsLongest numberTexts (text ++ cs) text)
    (hb : ∃ c ∈ text.head?, Lexeme.beginsNumber c = true) :
    ∃ n : Numeral, n.WellFormed ∧ n.text = text ∧ ∃ offset',
      Lexeme.scan (text ++ cs) offset = .token (Lexeme.ofNumeral n) :: Lexeme.scan cs offset' := by
  have htext := (isLongest_number (text ++ cs)).unique h
  have hrest : (Numeral.scan (text ++ cs)).2 = cs := by
    have happend := Numeral.scan_append (text ++ cs)
    rw [htext] at happend
    exact List.append_cancel_left happend
  refine ⟨_, Numeral.wellFormed_scan (text ++ cs), htext, ?_⟩
  obtain ⟨c, hc, hb⟩ := hb
  obtain ⟨rest, rfl⟩ := List.head?_eq_some_iff.1 hc
  rw [List.cons_append] at hrest ⊢
  rw [Lexeme.scan_of_beginsNumber hb, hrest]
  exact ⟨_, rfl⟩

theorem scan_of_isLongest_name {text : List Char} (h : IsLongest nameTexts (text ++ cs) text) :
    ∃ offset', Lexeme.scan (text ++ cs) offset =
      .token (.name (String.ofList text)) :: Lexeme.scan cs offset' := by
  obtain ⟨c, rest, rfl, hc, -⟩ := mem_nameTexts.1 h.mem
  have htext : c :: (rest ++ cs).takeWhile Lexeme.continuesName = c :: rest :=
    (isLongest_name hc).unique h
  have hrest : (rest ++ cs).dropWhile Lexeme.continuesName = cs := by
    have happend := List.takeWhile_append_dropWhile (p := Lexeme.continuesName) (l := rest ++ cs)
    rw [(List.cons.inj htext).2] at happend
    exact List.append_cancel_left happend
  rw [List.cons_append, Lexeme.scan_of_beginsName hc, htext, hrest]
  exact ⟨_, rfl⟩

/-- A token that is as long as can be is found. -/
theorem scan_of_isMunched (h : t.IsMunched (t.text ++ cs)) :
    ∃ offset', Lexeme.scan (t.text ++ cs) offset = .token t :: Lexeme.scan cs offset' := by
  cases t with
  | integer s =>
    obtain ⟨hlongest, hbegins, hplain⟩ := h
    obtain ⟨n, hn, htext, hscan⟩ := @scan_of_isLongest_number cs offset s.toList hlongest hbegins
    have hs : Lexeme.ofNumeral n = .integer s := by
      rw [← htext, hn.isPlain_iff] at hplain
      rw [Lexeme.ofNumeral, if_pos hplain, htext, String.ofList_toList]
    rwa [hs] at hscan
  | decimal s =>
    obtain ⟨hlongest, hbegins, hplain⟩ := h
    obtain ⟨n, hn, htext, hscan⟩ := @scan_of_isLongest_number cs offset s.toList hlongest hbegins
    have hs : Lexeme.ofNumeral n = .decimal s := by
      rw [← htext, hn.isPlain_iff] at hplain
      rw [Lexeme.ofNumeral, if_neg hplain, htext, String.ofList_toList]
    rwa [hs] at hscan
  | name s =>
    have hscan := @scan_of_isLongest_name cs offset s.toList h
    rwa [String.ofList_toList] at hscan
  | op o =>
    have hs : Lexeme.single? o.symbol = some (.op o) := by cases o <;> rfl
    exact ⟨_, Lexeme.scan_of_single hs⟩
  | leftParen => exact ⟨_, Lexeme.scan_of_single rfl⟩
  | rightParen => exact ⟨_, Lexeme.scan_of_single rfl⟩

theorem scan_of_blanks {blanks : List Char} (hb : ∀ c ∈ blanks, Lexeme.isBlank c = true) :
    ∃ offset', Lexeme.scan (blanks ++ cs) offset = Lexeme.scan cs offset' := by
  induction blanks generalizing offset with
  | nil => exact ⟨offset, rfl⟩
  | cons c blanks ih =>
    rw [List.cons_append, Lexeme.scan_blank (hb c (by simp))]
    exact ih fun d hd => hb d (List.mem_cons_of_mem c hd)

theorem scan_of_munches (h : Munches ts cs) : Lexeme.scan cs offset = ts.map .token := by
  induction h generalizing offset with
  | @nil blanks hb =>
    obtain ⟨offset', hscan⟩ := @scan_of_blanks [] offset blanks hb
    rw [← List.append_nil blanks, hscan, Lexeme.scan_nil]
    rfl
  | cons hb ht _ ih =>
    obtain ⟨mid, hblanks⟩ := scan_of_blanks hb
    obtain ⟨offset', hscan⟩ := scan_of_isMunched ht
    rw [hblanks, hscan, ih]
    rfl

end

/-! ## The tokens of a text -/

/-- A text is cut into its tokens in just one way. -/
theorem tokenize_eq_ok_iff_munches {s : String} {ts : List Token} :
    tokenize s = .ok ts ↔ Munches ts s.toList := by
  rw [tokenize_eq_ok_iff]
  exact ⟨munches_of_scan, fun h => scan_of_munches h⟩

/-- **The tokens of a text are cut off it one by one, each as long as can be, and nothing but blanks
is lost.** The scan of its bytes finds them and then the end. With blanks between them their texts
have the same tokens again. -/
theorem tokenize_munches {s : String} {ts : List Token} (h : tokenize s = .ok ts) :
    ByteScan.scan s 0 = some (ts.map (fun t => some (.token t)) ++ [none]) ∧
      Munches ts s.toList ∧
      ∀ cs, Spaced ts cs → tokenize (String.ofList cs) = .ok ts := by
  refine ⟨?_, tokenize_eq_ok_iff_munches.1 h, ?_⟩
  · rw [ByteScan.scan_eq, tokenize_eq_ok_iff.1 h, List.map_map]
    rfl
  · intro cs hcs
    exact (hcs.spells (isWord_of_tokenize h)).tokenize_eq_ok

/-- A second point begins another number, and a second sign is none of the exponent. -/
theorem tokenize_munches_points :
    let s := " 1..2e+-x1"
    let ts : List Token := [.decimal "1.", .decimal ".2e+", .op .sub, .name "x1"]
    let cs := "1. .2e+\n-\t\rx1".toList
    tokenize s = .ok ts ∧ Munches ts s.toList ∧ Spaced ts cs ∧
      tokenize (String.ofList cs) = .ok ts := by
  intro s ts cs
  have hs : tokenize s = .ok ts := by cbv
  obtain ⟨-, hmunches, hspaced⟩ := tokenize_munches hs
  have hcs : Spaced ts cs := by
    have hname : Spaced ([.op .sub, .name "x1"] : List Token) _ :=
      @Spaced.cons _ _ _ ['\t', '\r'] _ (List.cons_ne_nil _ _) (by simp [Lexeme.isBlank])
        (.single _)
    have hnumber : Spaced ts _ :=
      @Spaced.cons _ _ _ [' '] _ (List.cons_ne_nil _ _) (by simp [Lexeme.isBlank])
        (@Spaced.cons _ _ _ ['\n'] _ (List.cons_ne_nil _ _) (by simp [Lexeme.isBlank]) hname)
    simpa [cs, Token.text, Op.symbol] using hnumber
  exact ⟨hs, hmunches, hcs, hspaced cs hcs⟩

end ExprFold
