import ExprFold.Json.Basic
import ExprFold.Numeral

/-!
# JSON values from text

A text is cut into words first: punctuation, and the values that have no parts. A machine with a
stack of the arrays and objects that are open then puts the words together, so that nesting has no
bound.
-/

namespace ExprFold.Json

/-- The words of a JSON text. -/
inductive Word where
  | openArray | closeArray | openObject | closeObject | colon | comma
  | value (j : Json)

/-! ## Strings -/

def hexValue? (c : Char) : Option Nat :=
  if c.isDigit then some (c.toNat - '0'.toNat)
  else if 'a' ≤ c ∧ c ≤ 'f' then some (c.toNat - 'a'.toNat + 10)
  else if 'A' ≤ c ∧ c ≤ 'F' then some (c.toNat - 'A'.toNat + 10)
  else none

/-- The number that four hexadecimal digits stand for. -/
def unit? (a b c d : Char) : Option Nat := do
  return ((← hexValue? a) * 16 + (← hexValue? b)) * 256 + (← hexValue? c) * 16 + (← hexValue? d)

/-- The escapes of one letter. -/
def unescape? : Char → Option Char
  | '"' => some '"'
  | '\\' => some '\\'
  | '/' => some '/'
  | 'b' => some '\x08'
  | 'f' => some '\x0c'
  | 'n' => some '\n'
  | 'r' => some '\r'
  | 't' => some '\t'
  | _ => none

/-- The characters of a string up to its closing quote, and what follows the quote. A pair of
escaped surrogates is one character, and a surrogate on its own is refused. -/
def scanString : List Char → Option (List Char × List Char)
  | '"' :: rest => some ([], rest)
  | '\\' :: 'u' :: a :: b :: c :: d :: rest =>
    match unit? a b c d with
    | none => none
    | some u =>
      if 0xd800 ≤ u ∧ u < 0xdc00 then
        match rest with
        | '\\' :: 'u' :: a :: b :: c :: d :: rest =>
          match unit? a b c d with
          | none => none
          | some v =>
            if 0xdc00 ≤ v ∧ v < 0xe000 then
              (scanString rest).map fun (cs, rest) =>
                (Char.ofNat (0x10000 + (u - 0xd800) * 0x400 + (v - 0xdc00)) :: cs, rest)
            else none
        | _ => none
      else if 0xdc00 ≤ u ∧ u < 0xe000 then none
      else (scanString rest).map fun (cs, rest) => (Char.ofNat u :: cs, rest)
  | '\\' :: c :: rest =>
    match unescape? c with
    | none => none
    | some c => (scanString rest).map fun (cs, rest) => (c :: cs, rest)
  | c :: rest =>
    if c.toNat < 32 then none else (scanString rest).map fun (cs, rest) => (c :: cs, rest)
  | [] => none

/-- The closing quote at least is taken off the text. -/
theorem length_scanString_lt {cs : List Char} {r : List Char × List Char}
    (h : scanString cs = some r) : r.2.length < cs.length := by
  fun_induction scanString cs generalizing r with
  | case1 => cases h; simp
  | case4 _ _ _ _ _ _ _ _ _ _ _ rest _ _ _ ih
  | case8 _ _ _ _ rest _ _ _ _ ih
  | case10 _ rest _ _ _ ih
  | case12 _ rest _ _ _ _ ih =>
    obtain ⟨r', hr, rfl⟩ := Option.map_eq_some_iff.1 h
    have := ih hr
    simp only [List.length_cons]
    omega
  | _ => cases h

/-! ## Numbers -/

/-- The value of a number: no zero in front of other digits, a digit on each side of a point, and
nothing that rounds to infinity. Minus zero is a double, for whole numbers have none. -/
def number? (negative : Bool) (n : Numeral) : Option Json :=
  if n.whole.isEmpty || !n.isComplete || n.fraction == some [] ||
      (n.whole.head? == some '0' && 1 < n.whole.length) then
    none
  else if n.isWhole && !(negative && n.value.digits == 0) then
    let magnitude : Int := n.value.digits
    some (integer (if negative then -magnitude else magnitude))
  else
    let x := { n.value with negative }.toFloat
    if x.isFinite then some (real x) else none

/-! ## Words -/

def isBlank (c : Char) : Bool := c == ' ' || c == '\t' || c == '\n' || c == '\r'

def punctuation? : Char → Option Word
  | '[' => some .openArray
  | ']' => some .closeArray
  | '\x7b' => some .openObject
  | '\x7d' => some .closeObject
  | ':' => some .colon
  | ',' => some .comma
  | _ => none

/-- The names of values. -/
def named? : List Char → Option Json
  | ['n', 'u', 'l', 'l'] => some null
  | ['t', 'r', 'u', 'e'] => some (bool true)
  | ['f', 'a', 'l', 's', 'e'] => some (bool false)
  | _ => none

/-- The words of a text. -/
def words (cs : List Char) : Option (List Word) :=
  match cs with
  | [] => some []
  | c :: rest =>
    if isBlank c then words rest
    else if let some w := punctuation? c then (words rest).map (w :: ·)
    else if c = '"' then
      match h : scanString rest with
      | none => none
      | some (s, rest') =>
        have := length_scanString_lt h
        (words rest').map (.value (string (String.ofList s)) :: ·)
    else if c = '-' then
      let n := Numeral.scan rest
      have := Numeral.length_scan_le rest
      (number? true n.1).bind fun j => (words n.2).map (.value j :: ·)
    else if h : c.isDigit then
      let n := Numeral.scan (c :: rest)
      have : n.2.length < (c :: rest).length := Numeral.length_scan_lt (Or.inl h)
      (number? false n.1).bind fun j => (words n.2).map (.value j :: ·)
    else
      have : (rest.dropWhile Char.isAlpha).length ≤ rest.length :=
        (List.dropWhile_sublist Char.isAlpha).length_le
      (named? (c :: rest.takeWhile Char.isAlpha)).bind fun j =>
        (words (rest.dropWhile Char.isAlpha)).map (.value j :: ·)
termination_by cs.length
decreasing_by all_goals simp_all <;> omega

/-! ## Structure -/

/-- An array or object that is open, with the parts it has so far, the last first. -/
inductive Frame where
  | array (items : List Json)
  | object (members : List (String × Json))
  /-- An object that waits for the value of a member. -/
  | member (name : String) (members : List (String × Json))

/-- What may come next. -/
inductive Expectation where
  | value
  /-- A value, or the end of an array that has no items yet. -/
  | firstItem
  | name
  /-- A name, or the end of an object that has no members yet. -/
  | firstName
  | colon
  /-- A comma or the end of what is open. -/
  | separator

/-- What has been read: the frames that are open, the innermost first, or the whole value. -/
inductive Progress where
  | inside (next : Expectation) (frames : List Frame)
  | finished (j : Json)

/-- A value is complete, and goes into the frame around it. -/
def place (j : Json) : List Frame → Option Progress
  | [] => some (.finished j)
  | .array items :: frames => some (.inside .separator (.array (j :: items) :: frames))
  | .member name members :: frames =>
    some (.inside .separator (.object ((name, j) :: members) :: frames))
  | .object _ :: _ => none

/-- Reads one word. -/
def step : Progress → Word → Option Progress
  | .inside next frames, w =>
    match next, w, frames with
    | .value, .value j, _ | .firstItem, .value j, _ => place j frames
    | .value, .openArray, _ | .firstItem, .openArray, _ =>
      some (.inside .firstItem (.array [] :: frames))
    | .value, .openObject, _ | .firstItem, .openObject, _ =>
      some (.inside .firstName (.object [] :: frames))
    | .firstItem, .closeArray, .array items :: frames
    | .separator, .closeArray, .array items :: frames => place (array items.reverse) frames
    | .firstName, .closeObject, .object members :: frames
    | .separator, .closeObject, .object members :: frames => place (object members.reverse) frames
    | .name, .value (string s), .object members :: frames
    | .firstName, .value (string s), .object members :: frames =>
      some (.inside .colon (.member s members :: frames))
    | .colon, .colon, _ => some (.inside .value frames)
    | .separator, .comma, .array _ :: _ => some (.inside .value frames)
    | .separator, .comma, .object _ :: _ => some (.inside .name frames)
    | _, _, _ => none
  | .finished _, _ => none

/-- The value that a text holds, when it holds exactly one. -/
def parse? (s : String) : Option Json := do
  let ws ← words s.toList
  match ← ws.foldlM step (.inside .value []) with
  | .finished j => return j
  | .inside .. => none

end ExprFold.Json
