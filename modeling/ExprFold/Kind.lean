/-!
# Node kinds

What a node of an expression tree stands for: a number in integer or in decimal notation, a
variable, or one of the four operators. Interchange documents hold a kind as a small number, its
tag; `Kind.ofTag?_eq_some_iff` says that the tags read are exactly the tags written.
-/

namespace ExprFold

/-- The four arithmetic operators. -/
inductive Op where
  | add | sub | mul | div
deriving DecidableEq, Repr

namespace Op

/-- The name an operator goes by in messages. -/
def name : Op → String
  | add => "Addition"
  | sub => "Subtraction"
  | mul => "Multiplication"
  | div => "Division"

/-- The character an operator is written with. -/
def symbol : Op → Char
  | add => '+'
  | sub => '-'
  | mul => '*'
  | div => '/'

/-- Products and quotients bind tighter than sums and differences. -/
def isTight : Op → Bool
  | add | sub => false
  | mul | div => true

end Op

/-- What a node stands for. Numbers and variables are leaves; operators take two operands. -/
inductive Kind where
  | integer
  | decimal
  | var
  | op (o : Op)
deriving DecidableEq, Repr

/-- The part a kind plays in evaluation. -/
inductive Role where
  | literal
  | symbol
  | operator
deriving DecidableEq, Repr

/-- The name a part goes by. -/
def Role.name : Role → String
  | literal => "Literal"
  | symbol => "Symbol"
  | operator => "Operator"

namespace Kind

/-- Numbers are literals, variables are symbols. -/
def role : Kind → Role
  | integer | decimal => .literal
  | var => .symbol
  | op _ => .operator

def isOperator (k : Kind) : Bool := k.role == .operator

/-- The name a kind goes by in messages. -/
def name : Kind → String
  | integer => "Integer"
  | decimal => "Decimal"
  | var => "Variable"
  | op o => o.name

/-- The number that stands for a kind in interchange documents. -/
def tag : Kind → Nat
  | integer => 0
  | decimal => 1
  | var => 2
  | op .add => 3
  | op .sub => 4
  | op .mul => 5
  | op .div => 6

/-- The kind that a tag stands for. -/
def ofTag? : Nat → Option Kind
  | 0 => some integer
  | 1 => some decimal
  | 2 => some var
  | 3 => some (op .add)
  | 4 => some (op .sub)
  | 5 => some (op .mul)
  | 6 => some (op .div)
  | _ => none

@[simp] theorem ofTag?_tag (k : Kind) : ofTag? k.tag = some k := by
  cases k with
  | op o => cases o <;> rfl
  | _ => rfl

theorem ofTag?_eq_some_iff {n : Nat} {k : Kind} : ofTag? n = some k ↔ n = k.tag := by
  refine ⟨fun h => ?_, fun h => h ▸ ofTag?_tag k⟩
  unfold ofTag? at h
  split at h <;> simp_all <;> subst h <;> rfl

theorem ofTag?_eq_none_iff : ∀ {n : Nat}, ofTag? n = none ↔ 7 ≤ n
  | 0 | 1 | 2 | 3 | 4 | 5 | 6 => by simp [ofTag?]
  | n + 7 => by simp [ofTag?]

theorem isOperator_iff {k : Kind} : k.isOperator = true ↔ ∃ o, k = op o := by
  cases k <;> simp [isOperator, role]

end Kind

end ExprFold
