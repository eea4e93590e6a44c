import ExprFold.Proofs.ByteScan
import ExprFold.Proofs.Walks

/-!
# Stray characters

The words of the language and the blanks between them are written in one alphabet, and a character
outside of it belongs to no word. So the scan reports each of these characters just where it stands
(`Lexeme.faults_scan`), a text without them has tokens, and with them all that reading it gives is
their report: `tokenize_strays`.
-/

namespace ExprFold

open String (utf8Len)

/-! ## The alphabet -/

/-- The characters of the language: ASCII letters, ASCII digits and these. -/
def inAlphabet (c : Char) : Bool :=
  c.isAlphanum ||
    ['_', '.', '(', ')', '+', '-', '*', '/', ' ', '\t', '\n', '\x0c', '\r'].contains c

section
variable {c : Char}

theorem inAlphabet_of_isDigit (h : c.isDigit = true) : inAlphabet c = true := by
  simp [inAlphabet, Char.isAlphanum, h]

theorem inAlphabet_of_isBlank (h : Lexeme.isBlank c = true) : inAlphabet c = true := by
  have hmem := Lexeme.mem_of_isBlank h
  fin_cases hmem <;> decide

theorem inAlphabet_of_single {t : Token} (h : Lexeme.single? c = some t) : inAlphabet c = true := by
  unfold Lexeme.single? at h
  split at h <;> first | decide | cases h

theorem inAlphabet_of_continuesName (h : Lexeme.continuesName c = true) : inAlphabet c = true := by
  simp only [Lexeme.continuesName, Bool.or_eq_true, beq_iff_eq] at h
  rcases h with h | rfl
  · simp [inAlphabet, h]
  · decide

theorem inAlphabet_of_mem_text {n : Numeral} (hn : n.WellFormed) (h : c ∈ n.text) :
    inAlphabet c = true := by
  rcases hn.isDigit_or_mem h with hd | hm
  · exact inAlphabet_of_isDigit hd
  · fin_cases hm <;> decide

/-- What is in the alphabet is a blank or begins a word. -/
theorem inAlphabet_eq_false (hb : Lexeme.isBlank c = false) (hs : Lexeme.single? c = none)
    (hn : Lexeme.beginsNumber c = false) (hm : Lexeme.beginsName c = false) :
    inAlphabet c = false := by
  rw [Bool.eq_false_iff]
  intro h
  simp only [inAlphabet, Char.isAlphanum, Bool.or_eq_true, List.contains_iff_mem] at h
  obtain (h | h) | h := h
  · simp [Lexeme.beginsName, h] at hm
  · simp [Lexeme.beginsNumber, h] at hn
  · revert hb hs hn hm
    fin_cases h <;> decide

end

/-! ## Where the stray characters stand -/

/-- The characters outside of the alphabet, each with the number of bytes before it. -/
def strays : List Char → Nat → List (Nat × Char)
  | [], _ => []
  | c :: cs, offset =>
    if inAlphabet c then strays cs (offset + c.utf8Size)
    else (offset, c) :: strays cs (offset + c.utf8Size)

/-- The error that a stray character is. -/
def strayFault (place : Nat × Char) : Error := .invalidText (.strayChar place.2 place.1)

section
variable {c : Char} {cs ds : List Char} {offset : Nat}

theorem strays_of_inAlphabet (h : inAlphabet c = true) :
    strays (c :: cs) offset = strays cs (offset + c.utf8Size) := by
  rw [strays, if_pos h]

theorem strays_of_not (h : inAlphabet c = false) :
    strays (c :: cs) offset = (offset, c) :: strays cs (offset + c.utf8Size) := by
  rw [strays, h, if_neg nofun]

theorem strays_append (h : ∀ c ∈ cs, inAlphabet c = true) :
    strays (cs ++ ds) offset = strays ds (offset + utf8Len cs) := by
  induction cs generalizing offset with
  | nil => rfl
  | cons c cs ih =>
    rw [List.cons_append, strays_of_inAlphabet (h c (by simp)),
      ih fun d hd => h d (List.mem_cons_of_mem c hd), String.utf8Len_cons, Nat.add_assoc,
      Nat.add_comm c.utf8Size]

/-- A character stands in front, or behind what stands in front. -/
theorem exists_cons_eq_iff {n : Nat} {d : Char} :
    (∃ before behind, c :: cs = before ++ d :: behind ∧ n = offset + utf8Len before) ↔
      c = d ∧ n = offset ∨
        ∃ before behind, cs = before ++ d :: behind ∧ n = offset + c.utf8Size + utf8Len before := by
  constructor
  · rintro ⟨before, behind, hcs, rfl⟩
    cases before with
    | nil =>
      cases hcs
      exact .inl ⟨rfl, rfl⟩
    | cons b before =>
      cases hcs
      refine .inr ⟨before, behind, rfl, ?_⟩
      rw [String.utf8Len_cons]
      omega
  · rintro (⟨rfl, rfl⟩ | ⟨before, behind, rfl, rfl⟩)
    · exact ⟨[], cs, rfl, rfl⟩
    · refine ⟨c :: before, behind, rfl, ?_⟩
      rw [String.utf8Len_cons]
      omega

/-- The stray characters are those of the text outside the alphabet, each at its own place. -/
theorem mem_strays_iff {n : Nat} {d : Char} :
    (n, d) ∈ strays cs offset ↔ inAlphabet d = false ∧
      ∃ before behind, cs = before ++ d :: behind ∧ n = offset + utf8Len before := by
  induction cs generalizing offset with
  | nil => simp [strays]
  | cons c cs ih =>
    rw [exists_cons_eq_iff]
    cases hc : inAlphabet c with
    | true =>
      rw [strays_of_inAlphabet hc, ih]
      refine and_congr_right fun hd => (or_iff_right ?_).symm
      rintro ⟨rfl, -⟩
      rw [hc] at hd
      cases hd
    | false =>
      rw [strays_of_not hc, List.mem_cons, ih, Prod.mk.injEq]
      constructor
      · rintro (⟨rfl, rfl⟩ | ⟨hd, h⟩)
        · exact ⟨hc, .inl ⟨rfl, rfl⟩⟩
        · exact ⟨hd, .inr h⟩
      · rintro ⟨hd, ⟨rfl, rfl⟩ | h⟩
        · exact .inl ⟨rfl, rfl⟩
        · exact .inr ⟨hd, h⟩

/-- The places are in order, and none comes twice. -/
theorem pairwise_strays : (strays cs offset).Pairwise (·.1 < ·.1) := by
  induction cs generalizing offset with
  | nil => exact .nil
  | cons c cs ih =>
    cases hc : inAlphabet c with
    | true => rw [strays_of_inAlphabet hc]; exact ih
    | false =>
      rw [strays_of_not hc]
      refine .cons ?_ ih
      rintro ⟨n, d⟩ hn
      obtain ⟨-, before, behind, -, rfl⟩ := mem_strays_iff.1 hn
      have := c.utf8Size_pos
      show offset < _
      omega

/-- The faults of a scan are its stray characters. -/
theorem Lexeme.faults_scan (cs : List Char) (offset : Nat) :
    (Lexeme.scan cs offset).filterMap Lexeme.fault? = (strays cs offset).map strayFault := by
  induction cs, offset using Lexeme.scanRec with
  | nil offset => rw [scan_nil]; rfl
  | blank c cs offset hc ih =>
    rw [scan_blank hc, strays_of_inAlphabet (inAlphabet_of_isBlank hc), ih]
  | single c t cs offset hc ih =>
    rw [scan_of_single hc, strays_of_inAlphabet (inAlphabet_of_single hc), ← ih]
    rfl
  | number c cs offset hc ih =>
    have hn := Numeral.wellFormed_scan (c :: cs)
    rw [scan_of_beginsNumber hc, ← Numeral.scan_append (c :: cs),
      strays_append fun d hd => inAlphabet_of_mem_text hn hd, ByteScan.utf8Len_text hn,
      Numeral.scan_append]
    exact ih
  | name c cs offset hc ih =>
    have hname : ∀ d ∈ c :: cs.takeWhile continuesName, continuesName d = true := by
      rintro d (_ | ⟨_, hd⟩)
      · exact continuesName_of_beginsName hc
      · exact List.mem_takeWhile_imp hd
    have hlen := ByteScan.utf8Len_of_ascii fun d hd => ByteScan.ascii_continuesName d (hname d hd)
    rw [scan_of_beginsName hc, ← name_append c cs,
      strays_append fun d hd => inAlphabet_of_continuesName (hname d hd), hlen]
    exact ih
  | stray c cs offset hb hs hn hm ih =>
    rw [scan_stray hb hs hn hm, strays_of_not (inAlphabet_eq_false hb hs hn hm), List.map_cons,
      ← ih]
    rfl

end

/-! ## What is reported -/

section
variable {s : String} {faults : List Error}

/-- A text has tokens or stray characters. -/
theorem tokenize_eq_error_iff :
    tokenize s = .error faults ↔
      strays s.toList 0 ≠ [] ∧ faults = (strays s.toList 0).map strayFault := by
  simp only [tokenize, Lexeme.faults_scan]
  cases strays s.toList 0 with
  | nil => exact iff_of_false (by simp) fun h => h.1 rfl
  | cons place places =>
    rw [List.map_cons, Except.error.injEq]
    exact ⟨fun h => ⟨List.cons_ne_nil _ _, h.symm⟩, fun h => h.2.symm⟩

theorem strays_ne_nil_iff : strays s.toList 0 ≠ [] ↔ ∃ c ∈ s.toList, inAlphabet c = false := by
  rw [ne_eq, List.eq_nil_iff_forall_not_mem, not_forall]
  constructor
  · rintro ⟨⟨n, c⟩, h⟩
    obtain ⟨hc, before, behind, hs, -⟩ := mem_strays_iff.1 (Classical.not_not.1 h)
    exact ⟨c, by simp [hs], hc⟩
  · rintro ⟨c, hmem, hc⟩
    obtain ⟨before, behind, hs⟩ := List.append_of_mem hmem
    exact ⟨(0 + utf8Len before, c), not_not_intro (mem_strays_iff.2 ⟨hc, before, behind, hs, rfl⟩)⟩

/-- A text with stray characters is not empty, and reading it gives their report. -/
theorem parse_of_tokenize_eq_error (h : tokenize s = .error faults) (limit : Limit) :
    Expr.parse limit s = .error faults ∧
      (Engine.evaluateText ⟨limit⟩ s).result = .error faults := by
  have hparse : Expr.parse limit s = .error faults := by
    rw [Expr.parse, h]
    rfl
  have hs : s ≠ "" := by
    rintro rfl
    exact (tokenize_eq_error_iff.1 h).1 rfl
  refine ⟨hparse, ?_⟩
  rw [Engine.result_evaluateText_of_ne _ hs, hparse]
  rfl

end

/-- A character outside of the alphabet stands in the text behind so many bytes. -/
def IsStray (s : String) (place : Nat × Char) : Prop :=
  inAlphabet place.2 = false ∧
    ∃ before behind : String, s = before ++ String.singleton place.2 ++ behind ∧
      before.utf8ByteSize = place.1

theorem isStray_iff {s : String} {place : Nat × Char} :
    IsStray s place ↔ place ∈ strays s.toList 0 := by
  rw [← Prod.mk.eta (p := place), mem_strays_iff]
  refine and_congr_right fun _ => ?_
  constructor
  · rintro ⟨before, behind, rfl, hsize⟩
    refine ⟨before.toList, behind.toList, by simp, ?_⟩
    rw [String.utf8Len_toList, hsize, Nat.zero_add]
  · rintro ⟨before, behind, hs, hsize⟩
    refine ⟨String.ofList before, String.ofList behind, ?_, ?_⟩
    · rw [← String.toList_inj, hs]
      simp
    · rw [String.utf8ByteSize_ofList, hsize, Nat.zero_add]

theorem message_strayFault (place : Nat × Char) :
    (strayFault place).message =
      "parse error: unexpected character '" ++ place.2.toString ++ "' at offset " ++
        toString place.1 := by
  have htext :
      "parse error: unexpected character '" = "parse error: " ++ "unexpected character '" := by
    decide
  have hmessage : (strayFault place).message = "parse error: " ++
      ("unexpected character '" ++ place.2.toString ++ "' at offset " ++ toString place.1) := rfl
  rw [hmessage, htext, String.append_assoc, String.append_assoc, String.append_assoc,
    String.append_assoc, String.append_assoc]

/-- **Reading a text reports exactly its stray characters.** The scan of its bytes comes to an end,
and slices the text between characters only. -/
theorem tokenize_strays (s : String) :
    ByteScan.scan s 0 = some ((Lexeme.scan s.toList 0).map some ++ [none]) ∧
      ((∃ faults, tokenize s = .error faults) ↔ ∃ c ∈ s.toList, inAlphabet c = false) ∧
      ∀ faults, tokenize s = .error faults →
        (∃ places : List (Nat × Char), places.Pairwise (·.1 < ·.1) ∧
          (∀ place, place ∈ places ↔ IsStray s place) ∧ faults = places.map strayFault ∧
          faults.map Error.message = places.map fun place =>
            "parse error: unexpected character '" ++ place.2.toString ++ "' at offset " ++
              toString place.1) ∧
        ∀ limit, Expr.parse limit s = .error faults ∧
          (Engine.evaluateText ⟨limit⟩ s).result = .error faults := by
  refine ⟨ByteScan.scan_eq s, ?_, ?_⟩
  · rw [← strays_ne_nil_iff]
    constructor
    · rintro ⟨faults, h⟩
      exact (tokenize_eq_error_iff.1 h).1
    · intro h
      exact ⟨_, tokenize_eq_error_iff.2 ⟨h, rfl⟩⟩
  · intro faults h
    obtain ⟨-, rfl⟩ := tokenize_eq_error_iff.1 h
    refine ⟨⟨strays s.toList 0, pairwise_strays, fun place => isStray_iff.symm, rfl, ?_⟩,
      parse_of_tokenize_eq_error h⟩
    rw [List.map_map]
    exact List.map_congr_left fun place _ => message_strayFault place

/-- A number does not swallow the character behind it, and two bytes are one character. -/
theorem tokenize_strays_accent :
    let s := "2e\u00e9 $x"
    let faults := [strayFault (2, '\u00e9'), strayFault (5, '$')]
    tokenize s = .error faults ∧ Expr.parse (some 0) s = .error faults ∧
      (Engine.evaluateText ⟨some 0⟩ s).result = .error faults := by
  intro s faults
  have hs : tokenize s = .error faults := by cbv
  exact ⟨hs, ((tokenize_strays s).2.2 faults hs).2 (some 0)⟩

end ExprFold
