import ExprFold.Text.Unprintable

/-!
# Quoted text

How a piece of text is shown inside a message: between double quotes, with what cannot be shown as
it stands written as an escape.
-/

namespace ExprFold.Text

/-- The lower case hexadecimal digits of a number, without leading zeros. -/
def hex (n : Nat) : String := String.ofList (Nat.toDigits 16 n)

/-- NUL, tab, line feed, carriage return, quote and backslash have short escapes; every other
unprintable character is given by its code point, and the rest stand for themselves. -/
def escape (c : Char) : String :=
  match c with
  | '\x00' => "\\0"
  | '\t' => "\\t"
  | '\n' => "\\n"
  | '\r' => "\\r"
  | '"' => "\\\""
  | '\\' => "\\\\"
  | c => if isUnprintable c then "\\u\x7b" ++ hex c.toNat ++ "\x7d" else c.toString

def quote (s : String) : String := "\"" ++ String.join (s.toList.map escape) ++ "\""

end ExprFold.Text
