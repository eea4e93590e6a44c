import ExprFold.Numeral
import Mathlib.Data.List.TakeWhile

/-!
# Scanning written numbers

What `Numeral.scan` takes off a text is well formed (`wellFormed_scan`), and a well-formed number is
taken off whole from every text that has something behind it that no number goes on with
(`scan_text_append`).
-/

namespace ExprFold

/-! ## Runs of characters -/

section
variable {p : Char → Bool} {cs rest : List Char}

theorem takeWhile_append_of_stop (hp : ∀ c ∈ cs, p c = true) (hr : ∀ c ∈ rest.head?, p c = false) :
    (cs ++ rest).takeWhile p = cs := by
  rw [List.takeWhile_append_of_pos hp]
  cases rest with
  | nil => simp
  | cons c rest => simp [hr c rfl]

theorem dropWhile_append_of_stop (hp : ∀ c ∈ cs, p c = true) (hr : ∀ c ∈ rest.head?, p c = false) :
    (cs ++ rest).dropWhile p = rest := by
  rw [List.dropWhile_append_of_pos hp]
  cases rest with
  | nil => rfl
  | cons c rest => simp [hr c rfl]

/-- A run ends at the latest where a text begins that does not go on with it. -/
theorem takeWhile_append_of_head (cs : List Char) (hr : ∀ c ∈ rest.head?, p c = false) :
    (cs ++ rest).takeWhile p = cs.takeWhile p := by
  induction cs with
  | nil => exact takeWhile_append_of_stop nofun hr
  | cons c cs ih => rw [List.cons_append, List.takeWhile_cons, List.takeWhile_cons, ih]

theorem dropWhile_append_of_head (cs : List Char) (hr : ∀ c ∈ rest.head?, p c = false) :
    (cs ++ rest).dropWhile p = cs.dropWhile p ++ rest := by
  induction cs with
  | nil => exact dropWhile_append_of_stop nofun hr
  | cons c cs ih =>
    rw [List.cons_append, List.dropWhile_cons, List.dropWhile_cons, ih]
    split <;> rfl

/-- Behind a run stands nothing that goes on with it. -/
theorem eq_false_of_mem_head?_dropWhile {c : Char} (h : c ∈ (cs.dropWhile p).head?) :
    p c = false := by
  have hnot := List.head?_dropWhile_not p cs
  rw [Option.mem_def.1 h] at hnot
  exact hnot

end

namespace Numeral

/-- Digits count by their places. -/
theorem ofDigits_eq (ds : List Char) : ofDigits ds = Nat.ofDigitChars 10 ds 0 := rfl

/-- Each part has the characters that such a part can have. -/
structure WellFormed (n : Numeral) : Prop where
  whole : ∀ c ∈ n.whole, c.isDigit = true
  fraction : ∀ ds ∈ n.fraction, ∀ c ∈ ds, c.isDigit = true
  mark : ∀ e ∈ n.exponent, e.mark = 'e' ∨ e.mark = 'E'
  sign : ∀ e ∈ n.exponent, ∀ c ∈ e.sign, c = '+' ∨ c = '-'
  digits : ∀ e ∈ n.exponent, ∀ c ∈ e.digits, c.isDigit = true

/-- The characters that a number can be written with. -/
theorem WellFormed.isDigit_or_mem {n : Numeral} (hn : n.WellFormed) {c : Char} (hc : c ∈ n.text) :
    c.isDigit = true ∨ c ∈ ['.', 'e', 'E', '+', '-'] := by
  obtain ⟨whole, fraction, exponent⟩ := n
  simp only [text, List.mem_append] at hc
  obtain (hc | hc) | hc := hc
  · exact .inl (hn.whole c hc)
  · cases fraction with
    | none => cases hc
    | some ds =>
      rcases List.mem_cons.1 hc with rfl | hc
      · exact .inr (by decide)
      · exact .inl (hn.fraction ds rfl c hc)
  · cases exponent with
    | none => cases hc
    | some e =>
      simp only [Option.elim, Exponent.text, List.cons_append, List.mem_cons, List.mem_append,
        Option.mem_toList] at hc
      obtain rfl | hc | hc := hc
      · rcases hn.mark e rfl with h | h <;> exact .inr (by simp [h])
      · rcases hn.sign e rfl c hc with h | h <;> exact .inr (by simp [h])
      · exact .inl (hn.digits e rfl c hc)

/-! ## What is scanned is well formed -/

theorem eq_sign_of_scanSign {cs : List Char} : ∀ c ∈ (scanSign cs).1, c = '+' ∨ c = '-' := by
  intro c hc
  cases cs with
  | nil => cases hc
  | cons d cs =>
    simp only [scanSign] at hc
    split at hc
    · cases hc; assumption
    · cases hc

theorem isDigit_of_scanFraction {cs : List Char} :
    ∀ ds ∈ (scanFraction cs).1, ∀ c ∈ ds, c.isDigit = true := by
  intro ds hds c hc
  cases cs with
  | nil => cases hds
  | cons d cs =>
    simp only [scanFraction] at hds
    split at hds
    · cases hds; exact List.mem_takeWhile_imp hc
    · cases hds

theorem parts_of_scanExponent {cs : List Char} {e : Exponent} (he : e ∈ (scanExponent cs).1) :
    (e.mark = 'e' ∨ e.mark = 'E') ∧ (∀ c ∈ e.sign, c = '+' ∨ c = '-') ∧
      ∀ c ∈ e.digits, c.isDigit = true := by
  cases cs with
  | nil => cases he
  | cons d cs =>
    simp only [scanExponent] at he
    split at he
    · cases he
      exact ⟨by assumption, eq_sign_of_scanSign, fun c hc => List.mem_takeWhile_imp hc⟩
    · cases he

theorem wellFormed_scan (cs : List Char) : (scan cs).1.WellFormed where
  whole _ hc := List.mem_takeWhile_imp hc
  fraction := isDigit_of_scanFraction
  mark _ he := (parts_of_scanExponent he).1
  sign _ he := (parts_of_scanExponent he).2.1
  digits _ he := (parts_of_scanExponent he).2.2

/-! ## What is well formed is scanned whole -/

/-- A text that no number goes on with, whatever its parts. -/
def Ends (rest : List Char) : Prop :=
  ∀ c ∈ rest.head?, c.isDigit = false ∧ c ∉ ['.', 'e', 'E', '+', '-']

theorem scanSign_append_of {sign : Option Char} {rest : List Char}
    (hs : ∀ c ∈ sign, c = '+' ∨ c = '-') (hr : ∀ c ∈ rest.head?, c ≠ '+' ∧ c ≠ '-') :
    scanSign (sign.toList ++ rest) = (sign, rest) := by
  cases sign with
  | some c => simp [scanSign, hs c rfl]
  | none =>
    cases rest with
    | nil => rfl
    | cons c rest => simp [scanSign, hr c rfl]

theorem scanFraction_append_of {fraction : Option (List Char)} {rest : List Char}
    (hf : ∀ ds ∈ fraction, ∀ c ∈ ds, c.isDigit = true)
    (hr : ∀ c ∈ rest.head?, c.isDigit = false ∧ c ≠ '.') :
    scanFraction (fraction.elim [] ('.' :: ·) ++ rest) = (fraction, rest) := by
  cases fraction with
  | some ds =>
    have hstop : ∀ c ∈ rest.head?, c.isDigit = false := fun c hc => (hr c hc).1
    simp [scanFraction, takeWhile_append_of_stop (hf ds rfl) hstop,
      dropWhile_append_of_stop (hf ds rfl) hstop]
  | none =>
    cases rest with
    | nil => rfl
    | cons c rest => simp [scanFraction, (hr c rfl).2]

theorem scanExponent_append_of {exponent : Option Exponent} {rest : List Char}
    (hm : ∀ e ∈ exponent, e.mark = 'e' ∨ e.mark = 'E')
    (hs : ∀ e ∈ exponent, ∀ c ∈ e.sign, c = '+' ∨ c = '-')
    (hd : ∀ e ∈ exponent, ∀ c ∈ e.digits, c.isDigit = true) (hr : Ends rest) :
    scanExponent (exponent.elim [] Exponent.text ++ rest) = (exponent, rest) := by
  cases exponent with
  | some e =>
    obtain ⟨mark, sign, ds⟩ := e
    have hds : ∀ c ∈ ds, c.isDigit = true := hd _ rfl
    have hstop : ∀ c ∈ rest.head?, c.isDigit = false := fun c hc => (hr c hc).1
    -- behind the sign stands a digit of the exponent, or the rest
    have hhead : ∀ c ∈ (ds ++ rest).head?, c ≠ '+' ∧ c ≠ '-' := by
      intro c hc
      cases ds with
      | nil => have := (hr c hc).2; simp_all
      | cons d ds =>
        cases hc
        have := hds c (by simp)
        constructor <;> rintro rfl <;> simp_all
    have hsign := scanSign_append_of (hs _ rfl) hhead
    simp [scanExponent, Exponent.text, hm _ rfl, hsign, takeWhile_append_of_stop hds hstop,
      dropWhile_append_of_stop hds hstop]
  | none =>
    cases rest with
    | nil => rfl
    | cons c rest =>
      have := (hr c rfl).2
      simp_all [scanExponent]

theorem scan_text_append {n : Numeral} (hn : n.WellFormed) {rest : List Char} (hr : Ends rest) :
    scan (n.text ++ rest) = (n, rest) := by
  obtain ⟨whole, fraction, exponent⟩ := n
  obtain ⟨hw, hf, hm, hs, hd⟩ := hn
  -- each part is followed by a character that does not belong to it
  have hexp : ∀ c ∈ (exponent.elim [] Exponent.text ++ rest).head?,
      c.isDigit = false ∧ c ≠ '.' := by
    intro c hc
    cases exponent with
    | none => have := hr c hc; simp_all
    | some e =>
      cases hc
      rcases hm e rfl with h | h <;> rw [h] <;> decide
  have hfrac : ∀ c ∈ (fraction.elim [] ('.' :: ·) ++
      (exponent.elim [] Exponent.text ++ rest)).head?, c.isDigit = false := by
    intro c hc
    cases fraction with
    | none => exact (hexp c hc).1
    | some ds => cases hc; decide
  rw [text, List.append_assoc, List.append_assoc]
  simp only [scan, takeWhile_append_of_stop hw hfrac, dropWhile_append_of_stop hw hfrac,
    scanFraction_append_of hf hexp, scanExponent_append_of hm hs hd hr]

/-! ## What no number goes on with is left alone -/

section
variable {rest : List Char}

theorem Ends.isDigit_eq_false (hr : Ends rest) : ∀ c ∈ rest.head?, c.isDigit = false :=
  fun c hc => (hr c hc).1

theorem scanSign_append_rest (cs : List Char) (hr : ∀ c ∈ rest.head?, c ≠ '+' ∧ c ≠ '-') :
    scanSign (cs ++ rest) = ((scanSign cs).1, (scanSign cs).2 ++ rest) := by
  cases cs with
  | nil => exact @scanSign_append_of none rest nofun hr
  | cons c cs =>
    simp only [List.cons_append, scanSign]
    split <;> rfl

theorem scanFraction_append_rest (cs : List Char)
    (hr : ∀ c ∈ rest.head?, c.isDigit = false ∧ c ≠ '.') :
    scanFraction (cs ++ rest) = ((scanFraction cs).1, (scanFraction cs).2 ++ rest) := by
  have hd : ∀ c ∈ rest.head?, c.isDigit = false := fun c hc => (hr c hc).1
  cases cs with
  | nil => exact @scanFraction_append_of none rest nofun hr
  | cons c cs =>
    simp only [List.cons_append, scanFraction, takeWhile_append_of_head _ hd,
      dropWhile_append_of_head _ hd]
    split <;> rfl

theorem scanExponent_append_rest (cs : List Char) (hr : Ends rest) :
    scanExponent (cs ++ rest) = ((scanExponent cs).1, (scanExponent cs).2 ++ rest) := by
  have hd := hr.isDigit_eq_false
  have hs : ∀ c ∈ rest.head?, c ≠ '+' ∧ c ≠ '-' := by
    intro c hc
    have := (hr c hc).2
    simp_all
  cases cs with
  | nil => exact @scanExponent_append_of none rest nofun nofun nofun hr
  | cons c cs =>
    simp only [List.cons_append, scanExponent, scanSign_append_rest cs hs,
      takeWhile_append_of_head _ hd, dropWhile_append_of_head _ hd]
    split <;> rfl

theorem scan_append_rest (cs : List Char) (hr : Ends rest) :
    scan (cs ++ rest) = ((scan cs).1, (scan cs).2 ++ rest) := by
  have hd := hr.isDigit_eq_false
  have hf : ∀ c ∈ rest.head?, c.isDigit = false ∧ c ≠ '.' := by
    intro c hc
    have := (hr c hc).2
    exact ⟨hd c hc, by simp_all⟩
  simp only [scan, takeWhile_append_of_head _ hd, dropWhile_append_of_head _ hd,
    scanFraction_append_rest _ hf, scanExponent_append_rest _ hr]

end

end Numeral

end ExprFold
