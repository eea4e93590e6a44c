import ExprFold.Kind
import ExprFold.Text.Quoted

/-!
# Tokens

The words of the text language. Numbers and names keep the characters they were written with.
-/

namespace ExprFold

inductive Token where
  /-- A number of digits alone. -/
  | integer (text : String)
  /-- A number with a point or an exponent. -/
  | decimal (text : String)
  | name (text : String)
  | op (o : Op)
  | leftParen
  | rightParen
deriving DecidableEq, Repr

namespace Token

/-- How a message shows a token. -/
def describe : Token → String
  | integer text => "Integer(" ++ Text.quote text ++ ")"
  | decimal text => "Decimal(" ++ Text.quote text ++ ")"
  | name text => "Ident(" ++ Text.quote text ++ ")"
  | op .add => "Plus"
  | op .sub => "Minus"
  | op .mul => "Star"
  | op .div => "Slash"
  | leftParen => "LParen"
  | rightParen => "RParen"

/-- How a message shows the place where a token was looked for, the end of the text included. -/
def describeNext : Option Token → String
  | some t => t.describe
  | none => "Eof"

/-- The characters that a token is written with. -/
def text : Token → List Char
  | integer s | decimal s | name s => s.toList
  | op o => [o.symbol]
  | leftParen => ['(']
  | rightParen => [')']

end Token

end ExprFold
