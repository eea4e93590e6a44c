import ExprFold.Expr.Parser

/-!
# Parsing by recursive descent

The grammar as procedures that call each other, on a vector of tokens that ends with the mark of the
end, a token that is `none`. The calls that have not returned yet are kept as a list of frames, so a
run goes from one `Config` to the next (`Descent.step`) until it ends.

Nothing here says that it does. The position never moves past the last token, a count of what is
open is raised and lowered beside the frames, and a token that is not there or a count that cannot
be lowered ends the run with an `Ending` of its own.
-/

namespace ExprFold.Expr.Descent

open ExprFold.Expr.Parser

/-- The procedures. -/
inductive Procedure where
  /-- Sums and differences. -/
  | additive
  /-- Products and quotients. -/
  | multiplicative
  | unary
  | primary
deriving DecidableEq, Repr

/-- Where a procedure that was called goes on when the call returns. -/
inductive Frame where
  /-- Behind the first operand of a chain, of tight operators or of the others. -/
  | first (tight : Bool)
  /-- Behind an operand of a chain that has an operator and an operand in front. -/
  | right (tight : Bool) (op : Op) (left : Operand)
  /-- Behind the operand of a minus sign. -/
  | minus
  /-- Behind what stands in parentheses. -/
  | parens

/-- What a run does next. -/
inductive Control where
  | call (procedure : Procedure)
  /-- Goes on with a chain if an operator of its kind comes. -/
  | extend (tight : Bool) (left : Operand)
  /-- Returns from a call. -/
  | give (result : Operand)

structure Config where
  control : Control
  /-- The calls that have not returned, the innermost first. -/
  frames : List Frame
  pos : Nat
  nesting : Nat

/-- How a run ends. -/
inductive Ending where
  | value (e : Expr)
  | error (e : Error)
  /-- There is no token at the position. -/
  | outside
  /-- The count is zero and was to be lowered. -/
  | underflow

/-- A text that is at fault ends the run. -/
def Ending.fault (fault : TextFault) : Ending := .error (.invalidText fault)

/-- An error ends the run. -/
def orEnd {α : Type} (r : Except Error α) : Except Ending α := r.mapError .error

/-- A run starts with a call of the first procedure. -/
def start : Config := ⟨.call .additive, [], 0, 0⟩

section
variable (tokens : List (Option Token)) (limit : Limit)

/-- The token at the position. -/
def look (c : Config) : Except Ending (Option Token) :=
  match tokens[c.pos]? with
  | some t => .ok t
  | none => .error .outside

/-- Moves on by a token, but not past the last. -/
def bump (c : Config) : Config :=
  if c.pos + 1 < tokens.length then { c with pos := c.pos + 1 } else c

/-- A parenthesis or a minus sign opens. -/
def enter (c : Config) : Except Ending Config := do
  let c := { c with nesting := c.nesting + 1 }
  orEnd (limit.check c.nesting)
  return c

/-- It closes. -/
def leave (c : Config) : Except Ending Config :=
  if c.nesting = 0 then .error .underflow else .ok { c with nesting := c.nesting - 1 }

/-- The beginning of a procedure. -/
def stepCall (c : Config) : Procedure → Except Ending Config
  | .additive =>
    return { c with control := .call .multiplicative, frames := .first false :: c.frames }
  | .multiplicative => return { c with control := .call .unary, frames := .first true :: c.frames }
  | .unary => do
    match ← look tokens c with
    | some (.op .sub) =>
      let c ← enter limit (bump tokens c)
      return { c with control := .call .unary, frames := .minus :: c.frames }
    | _ => return { c with control := .call .primary }
  | .primary => do
    match ← look tokens c with
    | some (.integer text) => return { bump tokens c with control := .give (.leaf .integer text) }
    | some (.decimal text) => return { bump tokens c with control := .give (.leaf .decimal text) }
    | some (.name text) => return { bump tokens c with control := .give (.leaf .var text) }
    | some .leftParen =>
      let c ← enter limit (bump tokens c)
      return { c with control := .call .additive, frames := .parens :: c.frames }
    | t => throw (.fault (.expectedOperand t))

/-- The loop of a chain. -/
def stepExtend (c : Config) (tight : Bool) (l : Operand) : Except Ending Config := do
  match ← look tokens c with
  | some (.op o) =>
    if o.isTight = tight then
      return { bump tokens c with
        control := .call (if tight then .unary else .multiplicative)
        frames := .right tight o l :: c.frames }
    else return { c with control := .give l }
  | _ => return { c with control := .give l }

/-- What is done with the result of a call. Behind the call that came first the text has to end. -/
def stepGive (c : Config) (u : Operand) : Except Ending Config :=
  match c.frames with
  | .first tight :: frames => return { c with control := .extend tight u, frames }
  | .right tight o l :: frames => do
    let u ← orEnd (combine limit o l u)
    return { c with control := .extend tight u, frames }
  | .minus :: frames => do
    let c ← leave c
    return { c with control := .give (← orEnd (negate limit u)), frames }
  | .parens :: frames => do
    match ← look tokens c with
    | some .rightParen =>
      let c ← leave (bump tokens c)
      return { c with control := .give u, frames }
    | t => throw (.fault (.unclosedParen t))
  | [] => do
    match ← look tokens c with
    | none => throw (.value u.expr)
    | some t => throw (.fault (.trailing t))

/-- What a run does next, or how it ends. -/
def step (c : Config) : Except Ending Config :=
  match c.control with
  | .call procedure => stepCall tokens limit c procedure
  | .extend tight l => stepExtend tokens c tight l
  | .give u => stepGive tokens limit c u

end

end ExprFold.Expr.Descent
