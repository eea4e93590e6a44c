import ExprFold.NumberText
import ExprFold.Proofs.Lexemes

/-!
# Which texts are doubles

A text is read as a double when, behind a sign or without one, it is a number with the digits that a
number needs, or the name of an infinity or of NaN in any letter case: `NumberText.float?_eq_some_iff`
says so by a relation that does not mention the reading.
-/

namespace ExprFold

namespace Numeral

/-- There are digits in front of the exponent and, if there is one, in it. -/
def IsReadable (n : Numeral) : Prop := n.mantissa ≠ [] ∧ ∀ e ∈ n.exponent, e.digits ≠ []

variable {n : Numeral}

theorem isComplete_iff : n.isComplete = true ↔ n.IsReadable := by
  simp [isComplete, IsReadable, Option.all_eq_true]

/-- A number with digits in front of its exponent does not begin with the exponent. -/
theorem IsReadable.begins (h : n.IsReadable) : n.whole ≠ [] ∨ n.fraction.isSome = true := by
  by_contra hnot
  obtain ⟨hwhole, hfraction⟩ : n.whole = [] ∧ n.fraction = none := by simpa using hnot
  exact h.1 (by simp [mantissa, hwhole, hfraction])

theorem WellFormed.scan_text (hn : n.WellFormed) : scan n.text = (n, []) := by
  have h := @scan_text_append n hn [] nofun
  rwa [List.append_nil] at h

end Numeral

namespace NumberText

variable {n : Numeral} {cs : List Char} {s : String} {x : Float}

/-! ## Without a sign -/

/-- No number is written like a name. -/
theorem text_ne_name (hn : n.WellFormed) (hb : n.whole ≠ [] ∨ n.fraction.isSome = true)
    (name : String) (hname : name.toList.head?.any Char.isAlpha = true) :
    String.ofList (n.text.map Char.toLower) ≠ name := by
  rintro rfl
  obtain ⟨c, rest, htext, hc⟩ := hn.text_eq_cons hb
  have hletter : c.isAlpha = true := by simpa [htext] using hname
  have hbegins : Lexeme.beginsName c = true := by simp [Lexeme.beginsName, hletter]
  simp [Lexeme.beginsNumber_of_beginsName hbegins] at hc

/-- A number that does not begin with its exponent is read as a number or not at all. -/
theorem unsigned?_text (hn : n.WellFormed) (hb : n.whole ≠ [] ∨ n.fraction.isSome = true) :
    unsigned? n.text = if n.isComplete then some n.value.toFloat else none := by
  simp only [unsigned?, hn.scan_text, List.isEmpty_nil, Bool.true_and]
  by_cases hcomplete : n.isComplete = true
  · rw [if_pos hcomplete, if_pos hcomplete]
  · rw [if_neg hcomplete, if_neg hcomplete]
    split
    · exact absurd ‹_› (text_ne_name hn hb "inf" rfl)
    · exact absurd ‹_› (text_ne_name hn hb "infinity" rfl)
    · exact absurd ‹_› (text_ne_name hn hb "nan" rfl)
    · rfl

/-- The characters stand for this double, and there is no sign among them but that of an
exponent. -/
inductive Unsigned : List Char → Float → Prop
  | number {n : Numeral} : n.WellFormed → n.IsReadable → Unsigned n.text n.value.toFloat
  | infinity {cs : List Char} : String.ofList (cs.map Char.toLower) ∈ ["inf", "infinity"] →
      Unsigned cs Binary64.infinity
  | nan {cs : List Char} : String.ofList (cs.map Char.toLower) = "nan" → Unsigned cs Binary64.nan

/-- A name is not scanned as a number. -/
theorem not_isComplete_of_name {name : String}
    (hname : name.toList.head?.any Char.isAlpha = true)
    (hcs : String.ofList (cs.map Char.toLower) = name) :
    ((Numeral.scan cs).2.isEmpty && (Numeral.scan cs).1.isComplete) = false := by
  rw [Bool.eq_false_iff]
  intro h
  obtain ⟨hrest, hcomplete⟩ := Bool.and_eq_true_iff.1 h
  have htext := Numeral.scan_append cs
  rw [List.isEmpty_iff.1 hrest, List.append_nil] at htext
  rw [← htext] at hcs
  exact text_ne_name (Numeral.wellFormed_scan cs) (Numeral.isComplete_iff.1 hcomplete).begins
    name hname hcs

theorem unsigned?_eq_some_iff : unsigned? cs = some x ↔ Unsigned cs x := by
  constructor
  · intro h
    simp only [unsigned?] at h
    split at h
    · rename_i hread
      obtain ⟨hrest, hcomplete⟩ := Bool.and_eq_true_iff.1 hread
      have htext := Numeral.scan_append cs
      rw [List.isEmpty_iff.1 hrest, List.append_nil] at htext
      have hnumber : Unsigned (Numeral.scan cs).1.text (Numeral.scan cs).1.value.toFloat :=
        .number (Numeral.wellFormed_scan cs) (Numeral.isComplete_iff.1 hcomplete)
      rw [htext] at hnumber
      cases h
      exact hnumber
    · split at h
      · cases h; exact .infinity (by simp [*])
      · cases h; exact .infinity (by simp [*])
      · cases h; exact .nan ‹_›
      · cases h
  · intro h
    cases h with
    | number hn hreadable =>
      rw [unsigned?_text hn hreadable.begins, if_pos (Numeral.isComplete_iff.2 hreadable)]
    | infinity hname =>
      rcases List.mem_pair.1 hname with hname | hname
      · simp only [unsigned?, not_isComplete_of_name rfl hname, hname]
        rfl
      · simp only [unsigned?, not_isComplete_of_name rfl hname, hname]
        rfl
    | nan hname =>
      simp only [unsigned?, not_isComplete_of_name rfl hname, hname]
      rfl

/-! ## With a sign -/

/-- The text stands for this double: a number that has the digits it needs, or in any letter case
the name of an infinity or of NaN, behind a sign or without one. -/
inductive Stands : String → Float → Prop
  | unsigned {s : String} {x : Float} : Unsigned s.toList x → Stands s x
  | plus {s : String} {x : Float} : Unsigned s.toList x → Stands ("+" ++ s) x
  | minus {s : String} {x : Float} : Unsigned s.toList x → Stands ("-" ++ s) (-x)

theorem head?_ne_sign_of_name {name : String}
    (hname : name.toList.head?.any Char.isAlpha = true)
    (hcs : String.ofList (cs.map Char.toLower) = name) : ∀ c ∈ cs.head?, c ≠ '+' ∧ c ≠ '-' := by
  intro c hc
  have hletter : c.isAlpha = true := by
    rw [← hcs] at hname
    simpa [Option.mem_def.1 hc] using hname
  constructor <;> rintro rfl <;> exact absurd hletter (by decide)

/-- What stands for a double without a sign does not begin with one. -/
theorem Unsigned.head?_ne_sign (h : Unsigned cs x) : ∀ c ∈ cs.head?, c ≠ '+' ∧ c ≠ '-' := by
  cases h with
  | number hn hreadable =>
    obtain ⟨c, rest, htext, hc⟩ := hn.text_eq_cons hreadable.begins
    intro d hd
    rw [htext] at hd
    cases hd
    constructor <;> rintro rfl <;> exact absurd hc (by decide)
  | infinity hname =>
    rcases List.mem_pair.1 hname with hname | hname
    · exact head?_ne_sign_of_name rfl hname
    · exact head?_ne_sign_of_name rfl hname
  | nan hname => exact head?_ne_sign_of_name rfl hname

theorem Unsigned.scanSign_eq (h : Unsigned cs x) : Numeral.scanSign cs = (none, cs) :=
  @Numeral.scanSign_append_of none _ nofun h.head?_ne_sign

/-- **The texts that are doubles.** -/
theorem float?_eq_some_iff : float? s = some x ↔ Stands s x := by
  constructor
  · intro h
    have hsplit := Numeral.scanSign_append s.toList
    have hsign := @Numeral.eq_sign_of_scanSign s.toList
    simp only [float?] at h
    obtain ⟨y, hy, rfl⟩ := Option.map_eq_some_iff.1 h
    rw [unsigned?_eq_some_iff] at hy
    generalize Numeral.scanSign s.toList = signed at hsplit hsign hy ⊢
    obtain ⟨sign, cs⟩ := signed
    have hrest : Unsigned (String.ofList cs).toList y := by rwa [String.toList_ofList]
    cases sign with
    | none =>
      have hs : String.ofList cs = s := by simpa [← String.toList_inj] using hsplit
      rw [if_neg nofun, ← hs]
      exact .unsigned hrest
    | some c =>
      have hs : String.singleton c ++ String.ofList cs = s := by
        simpa [← String.toList_inj] using hsplit
      rcases hsign c rfl with rfl | rfl
      · rw [if_neg (by simp), ← hs]
        exact .plus hrest
      · rw [if_pos rfl, ← hs]
        exact .minus hrest
  · rintro (h | h | h)
    · simp [float?, h.scanSign_eq, unsigned?_eq_some_iff.2 h]
    · simp [float?, Numeral.scanSign, unsigned?_eq_some_iff.2 h]
    · simp [float?, Numeral.scanSign, unsigned?_eq_some_iff.2 h]

end NumberText

end ExprFold
