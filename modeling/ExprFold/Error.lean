import ExprFold.Token.Basic

/-!
# What can go wrong

Each failure is a value that says what was found; the wording is in `Error.message` alone.
-/

namespace ExprFold

/-- A node that cannot stand where it stands. -/
inductive NodeFault where
  /-- No kind has this tag. -/
  | unknownTag (tag : Nat)
  /-- A leaf of a tree has a child. -/
  | leafWithChildren (kind : Kind)
  /-- A variable was to be evaluated where nothing is bound. -/
  | unbound (name : String)
  /-- A node is marked as folded and is not the leaf that a folded node is. -/
  | foldedShape (kind : Kind)
  /-- A number in a folded tree is not marked as folded. -/
  | unfoldedLiteral (kind : Kind)
deriving DecidableEq, Repr

/-- A text that is no expression. A token that is missing is the end of the text. -/
inductive TextFault where
  /-- A character that begins no token, with the number of bytes before it. -/
  | strayChar (c : Char) (offset : Nat)
  | expectedOperand (found : Option Token)
  | unclosedParen (found : Option Token)
  /-- A complete expression is followed by something that does not continue it. -/
  | trailing (found : Token)
deriving DecidableEq, Repr

inductive Error where
  | missingLeft
  | missingRight
  | invalidNode (fault : NodeFault)
  | invalidInteger (literal : String)
  | invalidDecimal (literal : String)
  /-- A variable that the bindings do not cover. -/
  | invalidVariable (name : String)
  | invalidText (fault : TextFault)
  | divisionByZero
  | depthLimit (limit : Nat)
deriving DecidableEq, Repr

def NodeFault.message : NodeFault → String
  | unknownTag n => "unknown tag " ++ toString n
  | leafWithChildren k => k.name ++ " leaf must not have children"
  | unbound name => "variable '" ++ name ++ "' cannot be evaluated without bindings"
  | foldedShape k => "folded node must be a Decimal leaf, found " ++ k.name
  | unfoldedLiteral k => "unfolded " ++ k.name ++ " literal"

def TextFault.message : TextFault → String
  | strayChar c offset =>
    "unexpected character '" ++ c.toString ++ "' at offset " ++ toString offset
  | expectedOperand t => "expected number, identifier, or '(', found " ++ Token.describeNext t
  | unclosedParen t => "expected RParen, found " ++ Token.describeNext t
  | trailing t => "trailing tokens starting at " ++ t.describe

def Error.message : Error → String
  | missingLeft => "missing left child of operator node"
  | missingRight => "missing right child of operator node"
  | invalidNode fault => "invalid node type: " ++ fault.message
  | invalidInteger literal => "invalid integer: " ++ Text.quote literal
  | invalidDecimal literal => "invalid decimal: " ++ Text.quote literal
  | invalidVariable name => "invalid variable: " ++ name
  | invalidText fault => "parse error: " ++ fault.message
  | divisionByZero => "division by zero"
  | depthLimit n => "expression nesting exceeds depth limit of " ++ toString n

/-- The greatest depth that is allowed, the root of a tree being at depth 1; `none` allows all. -/
abbrev Limit := Option Nat

/-- Refuses a depth beyond the limit. -/
def Limit.check (limit : Limit) (depth : Nat) : Except Error Unit :=
  match limit with
  | some n => if n < depth then .error (.depthLimit n) else .ok ()
  | none => .ok ()

@[simp] theorem Limit.check_none (depth : Nat) : Limit.check none depth = .ok () := rfl

theorem Limit.check_some (n depth : Nat) :
    Limit.check (some n) depth = if n < depth then .error (.depthLimit n) else .ok () := rfl

theorem Limit.check_eq_ok_iff {limit : Limit} {depth : Nat} :
    limit.check depth = .ok () ↔ ∀ n ∈ limit, depth ≤ n := by
  cases limit with
  | none => simp
  | some n =>
    rw [Limit.check_some]
    split <;> simp <;> omega

/-- The kind of a tag, as a document or a caller gives it. -/
def Kind.ofTag (n : Nat) : Except Error Kind :=
  match ofTag? n with
  | some k => .ok k
  | none => .error (.invalidNode (.unknownTag n))

end ExprFold
