import ExprFold.Document
import ExprFold.Engine

/-!
# Sessions

A workspace that is driven by commands: an engine, a stack of expressions, a stack of residual
expressions and a table of the values of variables. Every command has one answer. A command that
fails leaves the session as it is, but what it has taken off a stack by then stays off
(`Session.leaves_of_isFailure`).
-/

namespace ExprFold

/-- The values of variables. -/
structure Values where
  entries : List (String × Float)
  /-- Each name has one value. -/
  nodup : (entries.map (·.1)).Nodup

namespace Values

def empty : Values := ⟨[], List.nodup_nil⟩

def size (values : Values) : Nat := values.entries.length

def bindings (values : Values) : Bindings := .ofList values.entries

/-- The name loses its value. -/
def unset (values : Values) (name : String) : Values where
  entries := values.entries.filter (·.1 != name)
  nodup := values.nodup.sublist (List.filter_sublist.map _)

/-- The name gets the value, in the place of another if it has one. -/
def set (values : Values) (name : String) (x : Float) : Values where
  entries := (name, x) :: (values.unset name).entries
  nodup := List.nodup_cons.2 ⟨by simp [unset], (values.unset name).nodup⟩

end Values

structure Session where
  engine : Engine := {}
  /-- The top comes first. -/
  exprs : List Expr := []
  /-- The top comes first. -/
  residuals : List Residual := []
  values : Values := .empty

namespace Session

inductive Command where
  | setLimit (limit : Limit)
  | pushExpr (e : Expr)
  /-- A node without children, whose kind is given by its tag. -/
  | pushNode (tag : Nat) (literal : String)
  /-- Joins the two topmost expressions. -/
  | joinExprs (tag : Nat)
  | parse (s : String)
  | readExpr (document : Json)
  | duplicate
  | dropExpr
  /-- Compares the two topmost expressions. -/
  | compare
  | evaluateText (s : String)
  | evaluate
  | fold
  | pushResidual (t : Residual)
  /-- Joins the two topmost residual expressions. -/
  | joinResiduals (tag : Nat)
  | readResidual (document : Json)
  /-- Writes the top residual expression as text and puts what is read from it in its place. -/
  | roundTrip
  | dropResidual
  | listNames
  /-- Evaluates the top residual expression under the given bindings, or without any under the
  session's own. -/
  | evaluateBound (limited : Bool) (bindings : Option Bindings)
  | set (name : String) (x : Float)
  | unset (name : String)

inductive Answer where
  | limit (limit : Limit)
  | expr (e : Expr)
  | residual (t : Residual)
  | size (nodes : Nat)
  | equal (b : Bool)
  | value (x : Float)
  | names (names : List String)
  | bound (count : Nat)
  | failed (error : Error)
  | textFailed (errors : List Error)
  | refused (fault : Document.Fault)
  | emptyStack

/-- The answer of an evaluation. -/
def Answer.ofValue : Except Error Float → Answer
  | .ok x => value x
  | .error e => failed e

def push (s : Session) (e : Expr) : Answer × Session := (.expr e, { s with exprs := e :: s.exprs })

def pushResidual (s : Session) (t : Residual) : Answer × Session :=
  (.residual t, { s with residuals := t :: s.residuals })

/-- Runs one command. -/
def step (s : Session) : Command → Answer × Session
  | .setLimit limit => (.limit limit, { s with engine := ⟨limit⟩ })
  | .pushExpr e => s.push e
  | .pushNode tag literal =>
    match Kind.ofTag tag with
    | .ok kind => s.push (.leaf kind literal)
    | .error e => (.failed e, s)
  | .joinExprs tag =>
    match Kind.ofTag tag with
    | .ok kind =>
      match s.exprs with
      | r :: l :: rest => { s with exprs := rest }.push (.binary kind l r)
      | _ => (.emptyStack, { s with exprs := [] })
    | .error e => (.failed e, s)
  | .parse text =>
    match Expr.parse none text with
    | .ok e => s.push e
    | .error es => (.textFailed es, s)
  | .readExpr document =>
    match Document.readExpr document with
    | .ok e => s.push e
    | .error fault => (.refused fault, s)
  | .duplicate =>
    match s.exprs with
    | e :: _ => s.push e
    | [] => (.emptyStack, s)
  | .dropExpr =>
    match s.exprs with
    | e :: rest => (.size e.size, { s with exprs := rest })
    | [] => (.emptyStack, s)
  | .compare =>
    match s.exprs with
    | r :: l :: _ => (.equal (l == r), s)
    | _ => (.emptyStack, s)
  | .evaluateText text =>
    match (s.engine.evaluateText text).result with
    | .ok x => (.value x, s)
    | .error es => (.textFailed es, s)
  | .evaluate =>
    match s.exprs with
    | e :: _ => (.ofValue (s.engine.evaluate e), s)
    | [] => (.emptyStack, s)
  | .fold =>
    match s.exprs with
    | e :: _ =>
      match (s.engine.fold e).result with
      | .ok t => s.pushResidual t
      | .error e => (.failed e, s)
    | [] => (.emptyStack, s)
  | .pushResidual t => s.pushResidual t
  | .joinResiduals tag =>
    match Kind.ofTag tag with
    | .ok kind =>
      match s.residuals with
      | r :: l :: rest => { s with residuals := rest }.pushResidual (.operator kind l r)
      | _ => (.emptyStack, { s with residuals := [] })
    | .error e => (.failed e, s)
  | .readResidual document =>
    match Document.readResidual document with
    | .ok t => s.pushResidual t
    | .error fault => (.refused fault, s)
  | .roundTrip =>
    match s.residuals with
    | t :: rest =>
      match Document.parseResidual (Document.writeResidual t) with
      | .ok t' => (.equal (t' == t), { s with residuals := t' :: rest })
      | .error fault => (.refused fault, s)
    | [] => (.emptyStack, s)
  | .dropResidual =>
    match s.residuals with
    | t :: rest => (.size t.size, { s with residuals := rest })
    | [] => (.emptyStack, s)
  | .listNames =>
    match s.residuals with
    | t :: _ => (.names t.variableNames, s)
    | [] => (.emptyStack, s)
  | .evaluateBound limited bindings =>
    match s.residuals with
    | t :: _ =>
      let engine := if limited then s.engine else {}
      (.ofValue (engine.evaluateBound (bindings.getD s.values.bindings) t), s)
    | [] => (.emptyStack, s)
  | .set name x =>
    let values := s.values.set name x
    (.bound values.size, { s with values })
  | .unset name =>
    let values := s.values.unset name
    (.bound values.size, { s with values })

/-- Runs commands one after the other from the empty session. -/
def run (commands : List Command) : List Answer :=
  go {} commands
where
  go (s : Session) : List Command → List Answer
    | [] => []
    | c :: cs =>
      let (answer, s) := s.step c
      answer :: go s cs

end Session

end ExprFold
