import ExprFold.Error
import ExprFold.Expr.Basic
import ExprFold.Json.Reader
import ExprFold.Json.Writer
import ExprFold.NumberText
import ExprFold.Residual.Basic

/-!
# Interchange documents

Trees as JSON. A node is an object with the members below; a whole tree is an object whose member
`node` is the root. What is read may leave out the literal or the name, which is then empty, and
either child; the other members are required, and unknown ones are ignored. An array in the place of
an object is refused.

| tree | members, in the order in which they are written |
| --- | --- |
| expression | `type`, `literal`, `left`, `right` |
| residual | `type`, `value`, `old_value`, `is_optimized`, `left`, `right` |

Members are read in alphabetical order, a child completely, and the first fault met is the answer; a
member that is missing comes after all faults in members that are there.
-/

namespace ExprFold.Document

/-- Why a document is refused. -/
inductive Fault where
  /-- A member is missing, or its value is of a wrong type or out of range. -/
  | malformed
  /-- No kind has this tag. -/
  | unknownTag (tag : Nat)
  /-- The text in a number's place is no number. -/
  | invalidFloat (text : String)
deriving DecidableEq, Repr

/-- What there is to say about a fault, if anything. -/
def Fault.message? : Fault → Option String
  | malformed => none
  | unknownTag n => some (Error.invalidNode (.unknownTag n)).message
  | invalidFloat text => some ("invalid float value " ++ Text.quote text)

/-! ## Reading -/

/-- A member, if it is there. -/
def member {α : Type} (j : Json) (name : String) (read : Json → Except Fault α) :
    Except Fault (Option α) :=
  match j.get? name with
  | none => .ok none
  | some v => some <$> read v

/-- A value that has to be there. -/
def required {α : Type} : Option α → Except Fault α
  | some a => .ok a
  | none => .error .malformed

def readBool : Json → Except Fault Bool
  | .bool b => .ok b
  | _ => .error .malformed

def readString : Json → Except Fault String
  | .string s => .ok s
  | _ => .error .malformed

/-- A tag is one byte. -/
def readKind : Json → Except Fault Kind
  | .integer n =>
    if 0 ≤ n ∧ n ≤ 255 then
      match Kind.ofTag? n.toNat with
      | some k => .ok k
      | none => .error (.unknownTag n.toNat)
    else .error .malformed
  | _ => .error .malformed

/-- A number whose nearest double is finite, or the text of any double. -/
def readFloat : Json → Except Fault Float
  | .integer n => finite (Decimal.ofInt n).toFloat
  | .real x => finite x
  | .string s =>
    match NumberText.float? s with
    | some x => .ok x
    | none => .error (.invalidFloat s)
  | _ => .error .malformed
where
  finite (x : Float) : Except Fault Float := if x.isFinite then .ok x else .error .malformed

def requireObject : Json → Except Fault Unit
  | .object _ => .ok ()
  | _ => .error .malformed

/-- A child. A null stands for none. What reads the child may rely on its being smaller than the
object it was found in. -/
def child {α : Type} (j : Json) (name : String)
    (read : (v : Json) → sizeOf v < sizeOf j → Except Fault α) : Except Fault (Option α) :=
  match h : j.get? name with
  | none | some .null => .ok none
  | some v => some <$> read v (Json.sizeOf_get?_lt h)

/-- The expression that an object holds. -/
def readExpr (j : Json) : Except Fault Expr := do
  requireObject j
  let left ← child j "left" fun v _ => readExpr v
  let literal ← member j "literal" readString
  let right ← child j "right" fun v _ => readExpr v
  let kind ← member j "type" readKind
  return .node ⟨← required kind, literal.getD ""⟩ left right
termination_by j

/-- The residual expression that an object holds. -/
def readResidual (j : Json) : Except Fault Residual := do
  requireObject j
  let folded ← member j "is_optimized" readBool
  let left ← child j "left" fun v _ => readResidual v
  let name ← member j "old_value" readString
  let right ← child j "right" fun v _ => readResidual v
  let kind ← member j "type" readKind
  let value ← member j "value" readFloat
  return .node ⟨← required kind, ← required value, name.getD "", ← required folded⟩ left right
termination_by j

/-- The tree of a whole document, given how its root is read. -/
def readRoot {α : Type} (read : Json → Except Fault α) (j : Json) : Except Fault α := do
  required (← member j "node" read)

/-! ## Writing -/

/-- A finite double is a number. The others, for which JSON has none, are text. -/
def ofFloat (x : Float) : Json :=
  if x.isFinite then .real x else .string (Json.numberFormat.write x)

def ofExpr : Expr → Json
  | .node ⟨kind, literal⟩ left right =>
    .object [
      ("type", .integer kind.tag),
      ("literal", .string literal),
      ("left", match left with | none => .null | some l => ofExpr l),
      ("right", match right with | none => .null | some r => ofExpr r)]

def ofResidual : Residual → Json
  | .node ⟨kind, value, name, folded⟩ left right =>
    .object [
      ("type", .integer kind.tag),
      ("value", ofFloat value),
      ("old_value", .string name),
      ("is_optimized", .bool folded),
      ("left", match left with | none => .null | some l => ofResidual l),
      ("right", match right with | none => .null | some r => ofResidual r)]

/-- The whole document of a tree, given its root. -/
def ofRoot (root : Json) : Json := .object [("node", root)]

/-! ## As text -/

/-- The residual expression that a text holds as a whole document. -/
def parseResidual (s : String) : Except Fault Residual :=
  match Json.parse? s with
  | some j => readRoot readResidual j
  | none => .error .malformed

def writeExpr (e : Expr) : String := (ofRoot (ofExpr e)).write

def writeResidual (t : Residual) : String := (ofRoot (ofResidual t)).write

end ExprFold.Document
