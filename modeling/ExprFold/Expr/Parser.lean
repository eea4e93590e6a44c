import ExprFold.Expr.Basic
import ExprFold.Token.Lexer

/-!
# From tokens to expressions

Sums and products group to the left, a minus sign in front of an operand binds tightest, and
parentheses leave no trace in the tree.

The parser reads one token at a time. Either an operand has to come next, and then what is pending
around the place where it goes is a `Slot`; or a complete term has been read, and what comes next
decides how far the things around it close. Every open parenthesis keeps the slot that its content
will fill. A limit bounds the number of parentheses and minus signs that are open at once, and the
depth of every operator node at the moment it is built.
-/

namespace ExprFold.Expr

namespace Parser

/-- A finished part of the expression together with its depth. -/
structure Operand where
  expr : Expr
  depth : Nat
  depth_eq : depth = expr.depth

/-- A leaf as an operand. -/
def Operand.leaf (kind : Kind) (literal : String) : Operand := ⟨.leaf kind literal, 1, rfl⟩

/-- The operator node over two operands. -/
def combine (limit : Limit) (op : Op) (l r : Operand) : Except Error Operand := do
  let depth := 1 + max l.depth r.depth
  limit.check depth
  return ⟨.binary (.op op) l.expr r.expr, depth, by
    rw [Tree.depth_branch, ← l.depth_eq, ← r.depth_eq]⟩

/-- The text of a number with its minus sign taken away, or put in front when there is none. -/
def flipSign (literal : String) : String :=
  match literal.toList with
  | '-' :: digits => String.ofList digits
  | digits => String.ofList ('-' :: digits)

/-- A minus sign in front of an operand: a number takes the sign into its text, and anything else is
multiplied by minus one. -/
def negate (limit : Limit) (u : Operand) : Except Error Operand :=
  match u.expr.kind with
  | .integer => .ok (.leaf .integer (flipSign u.expr.literal))
  | .decimal => .ok (.leaf .decimal (flipSign u.expr.literal))
  | _ => combine limit .mul (.leaf .integer "-1") u

/-- Minus signs in front of an operand, applied from the innermost out. -/
def negateTimes (limit : Limit) : Nat → Operand → Except Error Operand
  | 0, u => .ok u
  | n + 1, u => do negateTimes limit n (← negate limit u)

/-- An operator with its left operand, waiting for the right one. -/
structure Pending where
  left : Operand
  op : Op

/-- The right operand arrives, at an operator if there is one. -/
def supply (limit : Limit) (pending : Option Pending) (u : Operand) : Except Error Operand :=
  match pending with
  | some p => combine limit p.op p.left u
  | none => .ok u

/-- A chain of sums and differences, as far as it has been read. -/
structure Chain where
  /-- How many parentheses and minus signs are open around it. -/
  level : Nat
  /-- The sum read so far, when its next term is being read. -/
  sum : Option Pending

/-- A place where an operand has to come. -/
structure Slot where
  chain : Chain
  /-- The product read so far, when its next factor is being read. -/
  product : Option Pending
  /-- The number of minus signs that stand directly in front. -/
  minuses : Nat

/-- The first place of a chain. -/
def Slot.first (level : Nat) : Slot := ⟨⟨level, none⟩, none, 0⟩

/-- How many parentheses and minus signs are open in front of the operand. -/
def Slot.level (s : Slot) : Nat := s.chain.level + s.minuses

/-- The operand arrives: its minus signs apply, then the product takes it as a factor. -/
def Slot.fill (limit : Limit) (s : Slot) (u : Operand) : Except Error Operand := do
  supply limit s.product (← negateTimes limit s.minuses u)

/-- Where the parser stands between two tokens. The slots in `outer` wait for the parentheses that
are open, the innermost first. -/
inductive State where
  /-- An operand has to come next. -/
  | awaiting (slot : Slot) (outer : List Slot)
  /-- A term has been read that a further factor may extend. -/
  | holding (term : Operand) (chain : Chain) (outer : List Slot)

def State.start : State := .awaiting (Slot.first 0) []

/-- A leaf comes in the place of an operand. -/
def placeLeaf (limit : Limit) (slot : Slot) (outer : List Slot) (kind : Kind) (literal : String) :
    Except Error State := do
  return .holding (← slot.fill limit (.leaf kind literal)) slot.chain outer

/-- Reads one token. -/
def step (limit : Limit) : State → Token → Except Error State
  | .awaiting slot outer, t =>
    match t with
    | .integer text => placeLeaf limit slot outer .integer text
    | .decimal text => placeLeaf limit slot outer .decimal text
    | .name text => placeLeaf limit slot outer .var text
    | .op .sub => do
      let slot := { slot with minuses := slot.minuses + 1 }
      limit.check slot.level
      return .awaiting slot outer
    | .leftParen => do
      limit.check (slot.level + 1)
      return .awaiting (Slot.first (slot.level + 1)) (slot :: outer)
    | t => .error (.invalidText (.expectedOperand t))
  | .holding term chain outer, .op o =>
    if o.isTight then
      return .awaiting ⟨chain, some ⟨term, o⟩, 0⟩ outer
    else do
      let sum ← supply limit chain.sum term
      return .awaiting ⟨⟨chain.level, some ⟨sum, o⟩⟩, none, 0⟩ outer
  | .holding term chain outer, t => do
    let sum ← supply limit chain.sum term
    match outer, t with
    | slot :: outer, .rightParen => return .holding (← slot.fill limit sum) slot.chain outer
    | _ :: _, t => .error (.invalidText (.unclosedParen t))
    | [], t => .error (.invalidText (.trailing t))

/-- The text ends. -/
def finish (limit : Limit) : State → Except Error Expr
  | .awaiting _ _ => .error (.invalidText (.expectedOperand none))
  | .holding term chain outer => do
    let sum ← supply limit chain.sum term
    match outer with
    | [] => return sum.expr
    | _ :: _ => .error (.invalidText (.unclosedParen none))

/-- The expression that a list of tokens is. -/
def run (limit : Limit) (ts : List Token) : Except Error Expr := do
  finish limit (← ts.foldlM (step limit) .start)

end Parser

/-- The expression that a text is. Stray characters are all reported, and then nothing else is; of
the other errors there is only ever one, the first. -/
def parse (limit : Limit) (s : String) : Except (List Error) Expr := do
  let ts ← tokenize s
  (Parser.run limit ts).mapError ([·])

end ExprFold.Expr
