import ExprFold.Decimal.Layout
import ExprFold.Kind
import ExprFold.Text.Quoted

/-!
# Events

What a run reports about its work. A `Traced` computation collects the events in order and keeps
those before a failure: `result_bind`, `events_bind_ok` and `events_bind_error` say how two steps
join.
-/

namespace ExprFold

inductive Event where
  /-- A text was parsed. -/
  | parsed (source : String) (nodes : Nat)
  /-- An operator over two numbers was worked out. -/
  | folded (op : Op) (left right value : Float)
  /-- An expression was folded as far as it goes. -/
  | optimized (nodesBefore nodesAfter : Nat) (isConstant : Bool)
deriving Repr

/-- How much detail an event is. -/
inductive Event.Level where
  | debug
  | trace
deriving DecidableEq, Repr

def Event.Level.name : Event.Level → String
  | debug => "DEBUG"
  | trace => "TRACE"

namespace Event

/-- Numbers in messages are written out whatever their size, a whole one without a point; of two
equally near decimals the greater is taken. -/
def numberFormat : FloatFormat := ⟨.up, false, none⟩

def level : Event → Level
  | parsed .. => .debug
  | folded .. => .trace
  | optimized .. => .debug

def message : Event → String
  | parsed source nodes => "parsed " ++ Text.quote source ++ " into " ++ toString nodes ++ " nodes"
  | folded op left right value =>
    "folded " ++ numberFormat.write left ++ " " ++ op.name ++ " " ++ numberFormat.write right ++
      " = " ++ numberFormat.write value
  | optimized before after isConstant =>
    "optimized expression: " ++ toString before ++ " nodes -> " ++ toString after ++
      " nodes (constant: " ++ (if isConstant then "true" else "false") ++ ")"

end Event

/-- A computation that reports events and may fail. -/
structure Traced (ε α : Type) where
  events : List Event
  result : Except ε α

namespace Traced

variable {ε α β : Type}

/-- Runs one step and, unless it fails, the step that depends on it. -/
def bind (x : Traced ε α) (f : α → Traced ε β) : Traced ε β :=
  match x.result with
  | .error e => ⟨x.events, .error e⟩
  | .ok a => ⟨x.events ++ (f a).events, (f a).result⟩

instance : Monad (Traced ε) where
  pure a := ⟨[], .ok a⟩
  bind := bind

/-- A step that reports nothing. -/
instance : MonadLift (Except ε) (Traced ε) := ⟨fun r => ⟨[], r⟩⟩

/-- Reports an event. -/
def emit (event : Event) : Traced ε Unit := ⟨[event], .ok ()⟩

/-- Changes the error of a failure. -/
def mapError {ε' : Type} (f : ε → ε') (x : Traced ε α) : Traced ε' α :=
  ⟨x.events, x.result.mapError f⟩

@[simp] theorem result_pure (a : α) : (pure a : Traced ε α).result = .ok a := rfl

@[simp] theorem events_pure (a : α) : (pure a : Traced ε α).events = [] := rfl

@[simp] theorem result_lift (r : Except ε α) : (liftM r : Traced ε α).result = r := rfl

@[simp] theorem events_lift (r : Except ε α) : (liftM r : Traced ε α).events = [] := rfl

@[simp] theorem result_emit (event : Event) : (emit event : Traced ε Unit).result = .ok () := rfl

@[simp] theorem events_emit (event : Event) : (emit event : Traced ε Unit).events = [event] := rfl

@[simp] theorem result_bind (x : Traced ε α) (f : α → Traced ε β) :
    (x >>= f).result = x.result >>= fun a => (f a).result := by
  obtain ⟨es, r⟩ := x
  cases r <;> rfl

theorem events_bind_ok {x : Traced ε α} {a : α} (f : α → Traced ε β) (h : x.result = .ok a) :
    (x >>= f).events = x.events ++ (f a).events := by
  obtain ⟨es, r⟩ := x
  cases h; rfl

theorem events_bind_error {x : Traced ε α} {e : ε} (f : α → Traced ε β)
    (h : x.result = .error e) : (x >>= f).events = x.events := by
  obtain ⟨es, r⟩ := x
  cases h; rfl

end Traced

end ExprFold
