/-!
# JSON values

A number written with digits alone is kept as the whole number it is; one with a point or an
exponent is a double. The members of an object keep their order, and of several with one name the
last counts.
-/

namespace ExprFold

inductive Json where
  | null
  | bool (b : Bool)
  | integer (n : Int)
  | real (x : Float)
  | string (s : String)
  | array (items : List Json)
  | object (members : List (String × Json))

namespace Json

/-- The members of an object, and of anything else none. -/
def members : Json → List (String × Json)
  | object ms => ms
  | _ => []

/-- The member of an object that has the given name. -/
def get? (j : Json) (name : String) : Option Json :=
  (j.members.reverse.find? (·.1 == name)).map (·.2)

/-- A member is smaller than its object, which makes recursion over members end. -/
theorem sizeOf_get?_lt {j v : Json} {name : String} (h : j.get? name = some v) :
    sizeOf v < sizeOf j := by
  obtain ⟨⟨n, v'⟩, hm, rfl⟩ := Option.map_eq_some_iff.1 h
  have hmem := List.mem_reverse.1 (List.mem_of_find?_eq_some hm)
  cases j with
  | object ms =>
    have := List.sizeOf_lt_of_mem hmem
    simp only [members, object.sizeOf_spec, Prod.mk.sizeOf_spec] at this ⊢
    omega
  | _ => cases hmem

end Json

end ExprFold
