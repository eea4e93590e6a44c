import ExprFold.Token.Basic
import Mathlib.Data.List.Basic

/-!
# The mark of the end

The tokens of a text with the end of the text as a token of its own, which is `none`. The mark stands
last and nowhere else (`Expr.getElem?_marked_eq_none_iff`), so a list of tokens with it begins with no
other such list (`Expr.marked_prefix_marked_iff`).
-/

namespace ExprFold.Expr

/-- The tokens of a text and the mark of its end. -/
def marked (ts : List Token) : List (Option Token) := ts.map some ++ [none]

section
variable {ts us : List Token} {i : Nat}

theorem length_marked : (marked ts).length = ts.length + 1 := by simp [marked]

theorem getElem?_marked (hi : i < (marked ts).length) : (marked ts)[i]? = some ts[i]? := by
  rw [length_marked] at hi
  rcases Nat.lt_or_eq_of_le (Nat.lt_succ_iff.1 hi) with hlt | rfl
  · rw [marked, List.getElem?_append_left (by simpa using hlt), List.getElem?_map]
    simp [hlt]
  · simp [marked]

theorem getElem?_marked_eq_none_iff : (marked ts)[i]? = some none ↔ i + 1 = (marked ts).length := by
  constructor
  · intro h
    have hi := (List.getElem?_eq_some_iff.1 h).1
    rw [getElem?_marked hi, Option.some.injEq, List.getElem?_eq_none_iff] at h
    rw [length_marked] at hi ⊢
    omega
  · intro h
    rw [getElem?_marked (by omega), Option.some.injEq, List.getElem?_eq_none_iff]
    rw [length_marked] at h
    omega

/-- Behind a token that is not the mark comes another. -/
theorem lt_of_getElem? {t : Token} (h : ts[i]? = some t) : i + 1 < (marked ts).length := by
  have hi := (List.getElem?_eq_some_iff.1 h).1
  rw [length_marked]
  omega

theorem map_some_prefix_marked_iff : ts.map some <+: marked us ↔ ts <+: us := by
  induction ts generalizing us with
  | nil => simp
  | cons t ts ih =>
    cases us with
    | nil => simp [marked]
    | cons u us => simpa [marked] using fun _ => ih

theorem marked_prefix_marked_iff : marked ts <+: marked us ↔ ts = us := by
  induction ts generalizing us with
  | nil => cases us <;> simp [marked]
  | cons t ts ih =>
    cases us with
    | nil => simp [marked]
    | cons u us => simpa [marked] using fun _ => ih

end

end ExprFold.Expr
