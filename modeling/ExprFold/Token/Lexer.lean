import ExprFold.Error
import ExprFold.Numeral

/-!
# From characters to tokens

`scan` cuts a text into tokens and stray characters, leaving out the blanks between them. A number
or a name is the longest one that begins where it begins. A stray character stops nothing: the scan
goes on behind it, so that `tokenize` reports all of them.
-/

namespace ExprFold

/-- What a scan finds: a token, or a character that begins none and the number of bytes before
it. -/
inductive Lexeme where
  | token (t : Token)
  | stray (c : Char) (offset : Nat)
deriving DecidableEq, Repr

namespace Lexeme

/-- The blanks that may stand between tokens: space, tab, line feed, form feed, carriage return. -/
def isBlank (c : Char) : Bool :=
  c == ' ' || c == '\t' || c == '\n' || c == '\x0c' || c == '\r'

/-- Names begin with an ASCII letter or an underscore. -/
def beginsName (c : Char) : Bool := c.isAlpha || c == '_'

/-- Names go on with ASCII letters, digits and underscores. -/
def continuesName (c : Char) : Bool := c.isAlphanum || c == '_'

theorem continuesName_of_beginsName {c : Char} (h : beginsName c = true) :
    continuesName c = true := by
  simp only [beginsName, continuesName, Char.isAlphanum, Bool.or_eq_true] at h ⊢
  exact h.imp_left .inl

/-- Numbers begin with an ASCII digit or a point. -/
def beginsNumber (c : Char) : Bool := c.isDigit || c == '.'

/-- The tokens of one character. -/
def single? : Char → Option Token
  | '(' => some .leftParen
  | ')' => some .rightParen
  | '+' => some (.op .add)
  | '-' => some (.op .sub)
  | '*' => some (.op .mul)
  | '/' => some (.op .div)
  | _ => none

/-- The token of a number as it was written. -/
def ofNumeral (n : Numeral) : Token :=
  if n.isWhole then .integer (String.ofList n.text) else .decimal (String.ofList n.text)

/-- The tokens and stray characters of a text before which there are `offset` bytes. -/
def scan (cs : List Char) (offset : Nat) : List Lexeme :=
  match cs with
  | [] => []
  | c :: rest =>
    if isBlank c then scan rest (offset + c.utf8Size)
    else if let some t := single? c then token t :: scan rest (offset + c.utf8Size)
    else if h : beginsNumber c then
      let n := Numeral.scan (c :: rest)
      have : n.2.length < (c :: rest).length :=
        Numeral.length_scan_lt (by simpa [beginsNumber] using h)
      token (ofNumeral n.1) :: scan n.2 (offset + n.1.text.length)
    else if beginsName c then
      let name := c :: rest.takeWhile continuesName
      have : (rest.dropWhile continuesName).length ≤ rest.length :=
        (List.dropWhile_sublist continuesName).length_le
      token (.name (String.ofList name)) ::
        scan (rest.dropWhile continuesName) (offset + name.length)
    else stray c offset :: scan rest (offset + c.utf8Size)
termination_by cs.length
decreasing_by all_goals simp_all <;> omega

/-! ## One lexeme at a time -/

theorem scan_nil (offset : Nat) : scan [] offset = [] := by rw [scan]

theorem scan_blank {c : Char} {rest : List Char} {offset : Nat} (hb : isBlank c = true) :
    scan (c :: rest) offset = scan rest (offset + c.utf8Size) := by
  rw [scan, if_pos hb]

theorem scan_single {c : Char} {rest : List Char} {offset : Nat} {t : Token}
    (hb : isBlank c = false) (hs : single? c = some t) :
    scan (c :: rest) offset = token t :: scan rest (offset + c.utf8Size) := by
  rw [scan]; simp [hb, hs]

theorem scan_number {c : Char} {rest : List Char} {offset : Nat} (hb : isBlank c = false)
    (hs : single? c = none) (hn : beginsNumber c = true) :
    scan (c :: rest) offset =
      token (ofNumeral (Numeral.scan (c :: rest)).1) ::
        scan (Numeral.scan (c :: rest)).2
          (offset + (Numeral.scan (c :: rest)).1.text.length) := by
  rw [scan]; simp [hb, hs, hn]

theorem scan_name {c : Char} {rest : List Char} {offset : Nat} (hb : isBlank c = false)
    (hs : single? c = none) (hn : beginsNumber c = false) (hm : beginsName c = true) :
    scan (c :: rest) offset =
      token (.name (String.ofList (c :: rest.takeWhile continuesName))) ::
        scan (rest.dropWhile continuesName)
          (offset + (c :: rest.takeWhile continuesName).length) := by
  rw [scan]; simp [hb, hs, hn, hm]

theorem scan_stray {c : Char} {rest : List Char} {offset : Nat} (hb : isBlank c = false)
    (hs : single? c = none) (hn : beginsNumber c = false) (hm : beginsName c = false) :
    scan (c :: rest) offset = stray c offset :: scan rest (offset + c.utf8Size) := by
  rw [scan]; simp [hb, hs, hn, hm]

/-! ## What was found -/

/-- The token, if it is one. -/
def token? : Lexeme → Option Token
  | token t => some t
  | stray .. => none

/-- The error that a stray character is. -/
def fault? : Lexeme → Option Error
  | token _ => none
  | stray c offset => some (.invalidText (.strayChar c offset))

end Lexeme

/-- The tokens of a text, or one error for each stray character, in order. -/
def tokenize (s : String) : Except (List Error) (List Token) :=
  let lexemes := Lexeme.scan s.toList 0
  match lexemes.filterMap Lexeme.fault? with
  | [] => .ok (lexemes.filterMap Lexeme.token?)
  | faults => .error faults

end ExprFold
