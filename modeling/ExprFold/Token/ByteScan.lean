import ExprFold.Token.Lexer

/-!
# From bytes to tokens

The scan of a text on its UTF-8 bytes: a position moves on over the bytes, what stands there is told
by one byte alone, and the texts of numbers, names and stray characters are sliced out of the text.
A slice that begins or ends inside a character is refused, and then the scan finds nothing at all.
-/

namespace ExprFold.ByteScan

variable (s : String)

/-- The byte at a position, as the character of that number. -/
def byteAt? (i : Nat) : Option Char := s.toByteArray[i]?.map Char.ofUInt8

theorem lt_of_byteAt?_eq_some {s : String} {i : Nat} {b : Char} (h : byteAt? s i = some b) :
    i < s.utf8ByteSize := by
  obtain ⟨_, hb, -⟩ := Option.map_eq_some_iff.1 h
  exact (getElem?_eq_some_iff.1 hb).1

/-- The part of the text between two positions, which have to be boundaries of characters. -/
def slice? (start stop : Nat) : Option String :=
  if start ≤ stop ∧ String.Pos.Raw.IsValid s ⟨start⟩ ∧ String.Pos.Raw.IsValid s ⟨stop⟩ then
    some (String.Pos.Raw.extract s ⟨start⟩ ⟨stop⟩)
  else none

/-- The position behind the bytes of a class. -/
def runEnd (p : Char → Bool) (i : Nat) : Nat :=
  match h : byteAt? s i with
  | some b => if p b then runEnd p (i + 1) else i
  | none => i
termination_by s.utf8ByteSize - i
decreasing_by
  have := lt_of_byteAt?_eq_some h
  omega

/-- The position behind a sign, if there is one. -/
def signEnd (i : Nat) : Nat :=
  if (byteAt? s i).any fun b => b == '+' || b == '-' then i + 1 else i

theorem le_runEnd (p : Char → Bool) (i : Nat) : i ≤ runEnd s p i := by
  fun_induction runEnd s p i <;> omega

theorem le_signEnd (i : Nat) : i ≤ signEnd s i := by
  unfold signEnd
  split <;> omega

/-- The position behind a number, and whether it has a point or an exponent. Of each there is at
most one, and no point behind the mark of an exponent. -/
def numberEnd (point mark : Bool) (i : Nat) : Nat × Bool :=
  match h : byteAt? s i with
  | none => (i, point || mark)
  | some b =>
    if b.isDigit then numberEnd point mark (i + 1)
    else if b == '.' && !point && !mark then numberEnd true mark (i + 1)
    else if (b == 'e' || b == 'E') && !mark then
      numberEnd point true (runEnd s Char.isDigit (signEnd s (i + 1)))
    else (i, point || mark)
termination_by s.utf8ByteSize - i
decreasing_by
  · have := lt_of_byteAt?_eq_some h
    omega
  · have := lt_of_byteAt?_eq_some h
    omega
  · have := lt_of_byteAt?_eq_some h
    have := le_signEnd s (i + 1)
    have := le_runEnd s Char.isDigit (signEnd s (i + 1))
    omega

theorem le_numberEnd (point mark : Bool) (i : Nat) : i ≤ (numberEnd s point mark i).1 := by
  fun_induction numberEnd s point mark i with
  | case1 | case5 => exact Nat.le_refl _
  | case2 _ _ _ _ _ _ ih | case3 _ _ _ _ _ _ _ ih => omega
  | case4 point mark i _ _ _ _ _ ih =>
    have := le_signEnd s (i + 1)
    have := le_runEnd s Char.isDigit (signEnd s (i + 1))
    omega

/-- The number at a position and the position behind it. -/
def number (i : Nat) : Option (Lexeme × Nat) := do
  let (stop, isDecimal) := numberEnd s false false i
  let text ← slice? s i stop
  return (.token (if isDecimal then .decimal text else .integer text), stop)

/-- The name at a position and the position behind it. -/
def name (i : Nat) : Option (Lexeme × Nat) := do
  let stop := runEnd s Lexeme.continuesName i
  return (.token (.name (← slice? s i stop)), stop)

/-- The stray character at a position and the position behind it. All of its bytes are passed over.
-/
def stray (i : Nat) : Option (Lexeme × Nat) := do
  let c := (← slice? s i s.utf8ByteSize).toList.headD '\ufffd'
  return (.stray c i, i + c.utf8Size)

/-- The lexeme at the position of a byte that is no blank, and the position behind it. -/
def lexeme (b : Char) (i : Nat) : Option (Lexeme × Nat) :=
  if let some t := Lexeme.single? b then some (.token t, i + 1)
  else if Lexeme.beginsNumber b then number s i
  else if Lexeme.beginsName b then name s i
  else stray s i

/-! ## One byte at a time -/

section
variable {s} {p : Char → Bool} {point mark : Bool} {i j : Nat} {b : Char} {l : Lexeme}

theorem runEnd_none (hb : byteAt? s i = none) : runEnd s p i = i := by
  rw [runEnd]
  split
  · rename_i hb'
    cases hb.symm.trans hb'
  · rfl

theorem runEnd_some (hb : byteAt? s i = some b) :
    runEnd s p i = if p b then runEnd s p (i + 1) else i := by
  rw [runEnd]
  split
  · rename_i hb'
    cases hb.symm.trans hb'
    rfl
  · rename_i hb'
    cases hb.symm.trans hb'

theorem numberEnd_none (hb : byteAt? s i = none) :
    numberEnd s point mark i = (i, point || mark) := by
  rw [numberEnd]
  split
  · rfl
  · rename_i hb'
    cases hb.symm.trans hb'

theorem numberEnd_some (hb : byteAt? s i = some b) :
    numberEnd s point mark i =
      if b.isDigit then numberEnd s point mark (i + 1)
      else if b == '.' && !point && !mark then numberEnd s true mark (i + 1)
      else if (b == 'e' || b == 'E') && !mark then
        numberEnd s point true (runEnd s Char.isDigit (signEnd s (i + 1)))
      else (i, point || mark) := by
  rw [numberEnd]
  split
  · rename_i hb'
    cases hb.symm.trans hb'
  · rename_i hb'
    cases hb.symm.trans hb'
    rfl

/-! ## The scan comes to an end -/

theorem lt_runEnd (hb : byteAt? s i = some b) (hp : p b = true) : i < runEnd s p i := by
  have hle := le_runEnd s p (i + 1)
  rw [runEnd_some hb, if_pos hp]
  omega

theorem lt_numberEnd (hb : byteAt? s i = some b) (hn : Lexeme.beginsNumber b = true) :
    i < (numberEnd s false false i).1 := by
  rw [numberEnd_some hb]
  have hdigits := le_numberEnd s false false (i + 1)
  have hpoint := le_numberEnd s true false (i + 1)
  simp only [Lexeme.beginsNumber, Bool.or_eq_true] at hn
  rcases hn with hn | hn
  · rw [if_pos hn]
    omega
  · simp only [hn, Bool.not_false, Bool.and_self, if_true]
    split <;> omega

theorem lt_of_number_eq_some (hb : byteAt? s i = some b) (hn : Lexeme.beginsNumber b = true)
    (h : number s i = some (l, j)) : i < j := by
  obtain ⟨_, -, h⟩ := Option.bind_eq_some_iff.1 h
  cases h
  exact lt_numberEnd hb hn

theorem lt_of_name_eq_some (hb : byteAt? s i = some b) (hn : Lexeme.beginsName b = true)
    (h : name s i = some (l, j)) : i < j := by
  obtain ⟨_, -, h⟩ := Option.bind_eq_some_iff.1 h
  cases h
  exact lt_runEnd hb (Lexeme.continuesName_of_beginsName hn)

theorem lt_of_stray_eq_some (h : stray s i = some (l, j)) : i < j := by
  obtain ⟨text, -, h⟩ := Option.bind_eq_some_iff.1 h
  cases h
  have := Char.utf8Size_pos (text.toList.headD '\ufffd')
  omega

/-- A lexeme has one byte or more. -/
theorem lt_of_lexeme_eq_some (hb : byteAt? s i = some b) (h : lexeme s b i = some (l, j)) :
    i < j := by
  unfold lexeme at h
  split at h
  · cases h
    omega
  · split at h
    · rename_i hn
      exact lt_of_number_eq_some hb hn h
    · split at h
      · rename_i hn
        exact lt_of_name_eq_some hb hn h
      · exact lt_of_stray_eq_some h

end

/-- All that stands from a position on, and then the mark of the end. -/
def scan (i : Nat) : Option (List (Option Lexeme)) :=
  let start := runEnd s Lexeme.isBlank i
  match _hb : byteAt? s start with
  | none => some [none]
  | some b =>
    match _hl : lexeme s b start with
    | none => none
    | some (l, j) => (scan j).map (some l :: ·)
termination_by s.utf8ByteSize - i
decreasing_by
  have := le_runEnd s Lexeme.isBlank i
  have := lt_of_byteAt?_eq_some _hb
  have := lt_of_lexeme_eq_some _hb _hl
  omega

end ExprFold.ByteScan
