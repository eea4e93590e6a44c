import ExprFold.Document
import ExprFold.Proofs.JsonText

/-!
# Documents lose nothing

A tree is read back from the JSON value that it is written as (`readResidual_ofResidual`,
`readExpr_ofExpr`), whatever its shape and its values. For documents this depends on what turns JSON
values into text and back. That is taken as a `Json.Layer` here, of which only the values that trees
are written as are asked to survive; `Json.text` is the one whose text is written out in this
library. Main statement: `Document.load_save`.
-/

namespace ExprFold

/-! ## JSON layers -/

namespace Json

/-- What JSON holds without loss: whole numbers of 64 bits, finite doubles, strings, and objects
whose members have different names, nested to any depth. -/
inductive Portable : Json → Prop
  | null : Portable null
  | bool (b : Bool) : Portable (bool b)
  | integer {n : Int} : -2 ^ 63 ≤ n → n < 2 ^ 63 → Portable (integer n)
  | real {x : Float} : x.isFinite = true → Portable (real x)
  | string (s : String) : Portable (string s)
  | array {items : List Json} : (∀ j ∈ items, Portable j) → Portable (array items)
  | object {members : List (String × Json)} : (members.map (·.1)).Nodup →
      (∀ m ∈ members, Portable m.2) → Portable (object members)

theorem Portable.writable {j : Json} (h : Portable j) : Writable j := by
  induction h with
  | null => exact .null
  | bool b => exact .bool b
  | integer _ _ => exact .integer _
  | real hx => exact .real hx
  | string s => exact .string s
  | array _ ih => exact .array ih
  | object _ _ ih => exact .object ih

/-- What writes JSON values as documents of some type and reads them back, without loss. -/
structure Layer (Doc : Type) where
  write : Json → Doc
  read? : Doc → Option Json
  read?_write : ∀ {j}, Portable j → read? (write j) = some j

/-- The compact text. -/
def text : Layer String := ⟨write, parse?, fun h => parse?_write h.writable⟩

end Json

/-! ## Doubles that are not finite -/

/-- Infinities and NaN are written as names that are read back. -/
theorem float?_write (f : FloatFormat) {x : Float} (hx : x.isFinite = false) :
    NumberText.float? (f.write x) = some x := by
  by_cases hnan : x.isNaN = true
  · have hname : NumberText.float? "NaN" = some .nan := by decide +kernel
    rw [FloatFormat.write, if_pos hnan, hname]
    simpa [eq_comm] using hnan
  · have hm : Binary64.magnitudeBits x = Binary64.infinityBits := by
      rw [Binary64.isNaN_iff] at hnan
      rw [← Bool.not_eq_true, Binary64.isFinite_iff] at hx
      omega
    have hle : Binary64.infinityBits ≤ Binary64.infinityBits := le_rfl
    obtain ⟨hs₁, hm₁⟩ := Binary64.bits_ofMagnitudeBits hle
    obtain ⟨hs₂, hm₂⟩ := Binary64.bits_neg (hm₁.trans_le hle)
    rw [FloatFormat.write, if_neg hnan, hx]
    cases hs : Binary64.isNegative x with
    | false =>
      have hname : NumberText.float? "inf" = some Binary64.infinity := by decide +kernel
      rw [← show Binary64.infinity = x from
        Binary64.eq_of_bits (hs₁.trans hs.symm) (hm₁.trans hm.symm)]
      exact hname
    | true =>
      have hname : NumberText.float? "-inf" = some (-Binary64.infinity) := by decide +kernel
      rw [hs₁] at hs₂
      rw [← show -Binary64.infinity = x from
        Binary64.eq_of_bits (hs₂.trans hs.symm) ((hm₂.trans hm₁).trans hm.symm)]
      exact hname

namespace Document

/-! ## Members -/

section

variable {α : Type} {j v : Json} {name : String}

theorem member_eq_ok {read : Json → Except Fault α} {a : α} (h : j.get? name = some v)
    (hread : read v = .ok a) : member j name read = .ok (some a) := by
  simp only [member, h, hread]
  rfl

/-- A child that is written as null when there is none. -/
theorem child_eq_ok {read : (v : Json) → sizeOf v < sizeOf j → Except Fault α} {write : α → Json}
    {child? : Option α} (h : j.get? name = some (child?.elim .null write))
    (hwrite : ∀ a, write a ≠ .null)
    (hread : ∀ a, child? = some a → ∀ hlt, read (write a) hlt = .ok a) :
    child j name read = .ok child? := by
  unfold child
  split
  · rename_i h'
    rw [h] at h'
    cases h'
  · rename_i h'
    rw [h] at h'
    cases child? with
    | none => rfl
    | some a => exact absurd (Option.some.inj h') (hwrite a)
  · rename_i hne h'
    rw [h] at h'
    cases child? with
    | none => exact absurd (Option.some.inj h').symm hne
    | some a =>
      cases h'
      exact congrArg (some <$> ·) (hread a rfl _)

end

/-! ## Trees -/

theorem readKind_tag (k : Kind) : readKind (.integer k.tag) = .ok k := by
  cases k with
  | op o => cases o <;> rfl
  | _ => rfl

theorem readFloat_ofFloat (x : Float) : readFloat (ofFloat x) = .ok x := by
  cases hx : x.isFinite with
  | true => simp [ofFloat, hx, readFloat, readFloat.finite]
  | false => simp [ofFloat, hx, readFloat, float?_write _ hx]

theorem ofResidual_node (a : Residual.Label) (l r : Option Residual) :
    ofResidual (.node a l r) = .object [
      ("type", .integer a.kind.tag),
      ("value", ofFloat a.value),
      ("old_value", .string a.name),
      ("is_optimized", .bool a.folded),
      ("left", l.elim .null ofResidual),
      ("right", r.elim .null ofResidual)] := by
  cases l <;> cases r <;> rfl

theorem ofExpr_node (a : Expr.Label) (l r : Option Expr) :
    ofExpr (.node a l r) = .object [
      ("type", .integer a.kind.tag),
      ("literal", .string a.literal),
      ("left", l.elim .null ofExpr),
      ("right", r.elim .null ofExpr)] := by
  cases l <;> cases r <;> rfl

theorem ofResidual_ne_null (t : Residual) : ofResidual t ≠ .null := by
  obtain ⟨a, l, r⟩ := t
  rw [ofResidual_node]
  nofun

theorem ofExpr_ne_null (e : Expr) : ofExpr e ≠ .null := by
  obtain ⟨a, l, r⟩ := e
  rw [ofExpr_node]
  nofun

/-- Every member is found under the name that it is written with. -/
theorem readResidual_ofResidual (t : Residual) : readResidual (ofResidual t) = .ok t := by
  induction t using Tree.recOn' with
  | node a l r hl hr =>
    have hnode := ofResidual_node a l r
    generalize ofResidual (.node a l r) = j at hnode
    have hleft : child j "left" (fun v _ => readResidual v) = .ok l :=
      child_eq_ok (by rw [hnode]; rfl) ofResidual_ne_null fun t ht _ => hl t ht
    have hright : child j "right" (fun v _ => readResidual v) = .ok r :=
      child_eq_ok (by rw [hnode]; rfl) ofResidual_ne_null fun t ht _ => hr t ht
    have hfolded : member j "is_optimized" readBool = .ok (some a.folded) :=
      member_eq_ok (by rw [hnode]; rfl) rfl
    have hname : member j "old_value" readString = .ok (some a.name) :=
      member_eq_ok (by rw [hnode]; rfl) rfl
    have hkind : member j "type" readKind = .ok (some a.kind) :=
      member_eq_ok (by rw [hnode]; rfl) (readKind_tag a.kind)
    have hvalue : member j "value" readFloat = .ok (some a.value) :=
      member_eq_ok (by rw [hnode]; rfl) (readFloat_ofFloat a.value)
    have hobject : requireObject j = .ok () := by rw [hnode]; rfl
    rw [readResidual, hobject, hfolded, hleft, hname, hright, hkind, hvalue]
    rfl

theorem readExpr_ofExpr (e : Expr) : readExpr (ofExpr e) = .ok e := by
  induction e using Tree.recOn' with
  | node a l r hl hr =>
    have hnode := ofExpr_node a l r
    generalize ofExpr (.node a l r) = j at hnode
    have hleft : child j "left" (fun v _ => readExpr v) = .ok l :=
      child_eq_ok (by rw [hnode]; rfl) ofExpr_ne_null fun t ht _ => hl t ht
    have hright : child j "right" (fun v _ => readExpr v) = .ok r :=
      child_eq_ok (by rw [hnode]; rfl) ofExpr_ne_null fun t ht _ => hr t ht
    have hliteral : member j "literal" readString = .ok (some a.literal) :=
      member_eq_ok (by rw [hnode]; rfl) rfl
    have hkind : member j "type" readKind = .ok (some a.kind) :=
      member_eq_ok (by rw [hnode]; rfl) (readKind_tag a.kind)
    have hobject : requireObject j = .ok () := by rw [hnode]; rfl
    rw [readExpr, hobject, hleft, hliteral, hright, hkind]
    rfl

theorem readRoot_ofRoot {α : Type} {read : Json → Except Fault α} {j : Json} {a : α}
    (h : read j = .ok a) : readRoot read (ofRoot j) = .ok a := by
  have hmember : member (ofRoot j) "node" read = .ok (some a) := member_eq_ok rfl h
  rw [readRoot, hmember]
  rfl

/-! ## Documents -/

theorem portable_tag (k : Kind) : Json.Portable (.integer k.tag) := by
  have hle : k.tag ≤ 6 := by
    cases k with
    | op o => cases o <;> decide
    | _ => decide
  exact .integer (by omega) (by omega)

theorem portable_ofFloat (x : Float) : Json.Portable (ofFloat x) := by
  unfold ofFloat
  split
  · exact .real ‹_›
  · exact .string _

theorem portable_child {α : Type} {write : α → Json} {child? : Option α}
    (h : ∀ a, child? = some a → Json.Portable (write a)) :
    Json.Portable (child?.elim .null write) := by
  cases child? with
  | none => exact .null
  | some a => exact h a rfl

theorem portable_ofResidual (t : Residual) : Json.Portable (ofResidual t) := by
  induction t using Tree.recOn' with
  | node a l r hl hr =>
    rw [ofResidual_node]
    refine .object ?_ ?_
    · show ["type", "value", "old_value", "is_optimized", "left", "right"].Nodup
      decide
    · simpa using ⟨portable_tag a.kind, portable_ofFloat a.value, .string a.name, .bool a.folded,
        portable_child hl, portable_child hr⟩

theorem portable_ofExpr (e : Expr) : Json.Portable (ofExpr e) := by
  induction e using Tree.recOn' with
  | node a l r hl hr =>
    rw [ofExpr_node]
    refine .object ?_ ?_
    · show ["type", "literal", "left", "right"].Nodup
      decide
    · simpa using ⟨portable_tag a.kind, .string a.literal, portable_child hl, portable_child hr⟩

theorem portable_ofRoot {j : Json} (h : Json.Portable j) : Json.Portable (ofRoot j) :=
  .object (by simp) (by simpa [ofRoot] using h)

section

variable {Doc : Type} (layer : Json.Layer Doc)

/-- The document of a whole tree, given its root. -/
def save (root : Json) : Doc := layer.write (ofRoot root)

/-- The tree that a document holds, given how its root is read. -/
def load {α : Type} (read : Json → Except Fault α) (d : Doc) : Except Fault α :=
  match layer.read? d with
  | some j => readRoot read j
  | none => .error .malformed

theorem load_save_of {α : Type} {read : Json → Except Fault α} {root : Json} {a : α}
    (hroot : Json.Portable root) (h : read root = .ok a) :
    load layer read (save layer root) = .ok a := by
  rw [load, save, layer.read?_write (portable_ofRoot hroot)]
  exact readRoot_ofRoot h

end

/-- The documents that are text are those of the compact layer. -/
theorem load_text (s : String) : load Json.text readResidual s = parseResidual s := rfl

theorem save_text (t : Residual) : save Json.text (ofResidual t) = writeResidual t := rfl

/-- A residual is read back from its text. -/
theorem parseResidual_writeResidual (t : Residual) : parseResidual (writeResidual t) = .ok t :=
  load_save_of Json.text (portable_ofResidual t) (readResidual_ofResidual t)

/-- A residual equals itself when it has no NaN, which is the one value that differs from itself. -/
theorem beq_self_iff {t : Residual} :
    (t == t) = true ↔ ∀ a ∈ t.labels, a.value.isNaN = false := by
  have label : ∀ a : Residual.Label, (a == a) = true ↔ a.value.isNaN = false := by
    rintro ⟨kind, value, name, folded⟩
    show (kind == kind && (value == value && (name == name && folded == folded))) = true ↔ _
    simp
  induction t using Tree.recOn' with
  | node a l r hl hr =>
    have child : ∀ {c : Option Residual},
        (∀ t, c = some t → ((t == t) = true ↔ ∀ a ∈ t.labels, a.value.isNaN = false)) →
          ((c == c) = true ↔ ∀ a ∈ c.elim [] Tree.labels, a.value.isNaN = false) := by
      intro c hc
      cases c with
      | none => simp
      | some t => simpa using hc t rfl
    rw [Tree.beq_node, Tree.labels_node, Bool.and_eq_true, Bool.and_eq_true, label, child hl,
      child hr]
    simp [or_imp, forall_and, and_assoc]

/-- **The interchange form loses nothing.** Through any layer that keeps what JSON can hold, a
residual of any shape with any values is read back as it was, and so is an expression. As there is
one NaN, this is equality of all values' bits. The residual that is read back compares equal by `==`
just when it has no NaN in it. -/
theorem load_save {Doc : Type} (layer : Json.Layer Doc) :
    (∀ t : Residual, ∃ t', load layer readResidual (save layer (ofResidual t)) = .ok t' ∧ t' = t ∧
      ((t' == t) = true ↔ ∀ a ∈ t.labels, a.value.isNaN = false)) ∧
      ∀ e : Expr, load layer readExpr (save layer (ofExpr e)) = .ok e := by
  refine ⟨fun t => ⟨t, ?_, rfl, beq_self_iff⟩, fun e => ?_⟩
  · exact load_save_of layer (portable_ofResidual t) (readResidual_ofResidual t)
  · exact load_save_of layer (portable_ofExpr e) (readExpr_ofExpr e)

/-- A folded variable with one child, holding the values that no JSON number stands for, and minus
zero. -/
theorem load_save_nan :
    let t : Residual := .node ⟨.var, .nan, "a\"\n", true⟩ none
      (some (Residual.operator (.op .div) (Residual.folded (-0))
        (Residual.folded (-Binary64.infinity))))
    load Json.text readResidual (save Json.text (ofResidual t)) = .ok t ∧ (t == t) = false := by
  intro t
  obtain ⟨t', ht', rfl, hbeq⟩ := (load_save Json.text).1 t
  refine ⟨ht', ?_⟩
  rw [Bool.eq_false_iff]
  intro h
  have hvalue := hbeq.1 h ⟨.var, .nan, "a\"\n", true⟩ (by simp [t, Tree.labels_node])
  simp at hvalue

end Document

end ExprFold
