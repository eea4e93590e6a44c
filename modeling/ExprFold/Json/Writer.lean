import ExprFold.Decimal.Layout
import ExprFold.Json.Basic

/-!
# JSON values as text

The compact form: no blanks, members in their order, and every double with a point or an exponent,
so that it is not taken for a whole number when it is read.
-/

namespace ExprFold.Json

/-- Doubles have the fewest digits that read back, of two equally near decimals the even one. They
are written out from `1e-5` up to below `1e16` and have an exponent outside. -/
def numberFormat : FloatFormat := ⟨.toEven, true, some (-4, 16)⟩

/-- Four hexadecimal digits. -/
def hex4 (n : Nat) : List Char :=
  let ds := Nat.toDigits 16 n
  List.replicate (4 - ds.length) '0' ++ ds

/-- Quotes, backslashes and controls are escaped and nothing else is. -/
def escape (c : Char) : List Char :=
  match c with
  | '"' => ['\\', '"']
  | '\\' => ['\\', '\\']
  | '\x08' => ['\\', 'b']
  | '\x0c' => ['\\', 'f']
  | '\n' => ['\\', 'n']
  | '\r' => ['\\', 'r']
  | '\t' => ['\\', 't']
  | c => if c.toNat < 32 then '\\' :: 'u' :: hex4 c.toNat else [c]

def writeString (s : String) : List Char := '"' :: s.toList.flatMap escape ++ ['"']

/-- A double as a JSON number. What no JSON number can stand for is written as null. -/
def writeReal (x : Float) : List Char :=
  if x.isFinite then (numberFormat.write x).toList else ['n', 'u', 'l', 'l']

mutual

/-- The characters of a value. -/
def chars : Json → List Char
  | null => ['n', 'u', 'l', 'l']
  | bool true => ['t', 'r', 'u', 'e']
  | bool false => ['f', 'a', 'l', 's', 'e']
  | integer n => (toString n).toList
  | real x => writeReal x
  | string s => writeString s
  | array items => '[' :: itemChars true items ++ [']']
  | object members => '\x7b' :: memberChars true members ++ ['\x7d']

/-- The items of an array, all but the first with a comma in front. -/
def itemChars (first : Bool) : List Json → List Char
  | [] => []
  | j :: js => (if first then [] else [',']) ++ chars j ++ itemChars false js

/-- The members of an object, all but the first with a comma in front. -/
def memberChars (first : Bool) : List (String × Json) → List Char
  | [] => []
  | (name, j) :: ms =>
    (if first then [] else [',']) ++ writeString name ++ ':' :: chars j ++ memberChars false ms

end

/-- The compact text of a value. -/
def write (j : Json) : String := String.ofList j.chars

end ExprFold.Json
