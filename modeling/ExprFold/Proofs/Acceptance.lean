import ExprFold.Document
import ExprFold.Proofs.NumberTexts
import ExprFold.Proofs.Overflow
import ExprFold.Proofs.Walks

/-!
# Which documents are accepted

What a node may look like is written down as rules for its members, with no word about the reading:
`Document.Keeps` says that they hold in every part of a document. A document that names no member
twice is accepted just when it keeps the rules, and then the tree holds what its members say
(`Document.IsDocumentOf`). Both formats are read alike, so this is proved once for whatever reads
nodes in this way (`Document.ReadsNodes`). Main statement: `Document.read_specified`.
-/

namespace ExprFold

namespace Json

abbrev Members := List (String × Json)

/-- No object in the value names a member twice. -/
inductive Distinct : Json → Prop
  | null : Distinct null
  | bool (b : Bool) : Distinct (bool b)
  | integer (n : Int) : Distinct (integer n)
  | real (x : Float) : Distinct (real x)
  | string (s : String) : Distinct (string s)
  | array {items : List Json} : (∀ j ∈ items, Distinct j) → Distinct (array items)
  | object {ms : Members} : (ms.map (·.1)).Nodup → (∀ m ∈ ms, Distinct m.2) → Distinct (object ms)

section
variable {ms : Members} {name : String} {v w : Json}

theorem Distinct.names (h : (Json.object ms).Distinct) : (ms.map (·.1)).Nodup := by
  cases h with
  | object hnames _ => exact hnames

theorem Distinct.member (h : (Json.object ms).Distinct) (hv : (name, v) ∈ ms) : v.Distinct := by
  cases h with
  | object _ hmembers => exact hmembers _ hv

/-- Under different names there is one value for each. -/
theorem eq_of_mem_members (hms : (ms.map (·.1)).Nodup) (hv : (name, v) ∈ ms) (hw : (name, w) ∈ ms) :
    v = w :=
  (Prod.ext_iff.1 (List.inj_on_of_nodup_map hms hv hw rfl)).2

theorem get?_object_eq_some_iff (hms : (ms.map (·.1)).Nodup) :
    (object ms).get? name = some v ↔ (name, v) ∈ ms := by
  have hfind : (object ms).get? name = (ms.reverse.find? (·.1 == name)).map (·.2) := rfl
  rw [hfind, Option.map_eq_some_iff]
  constructor
  · rintro ⟨⟨name', v'⟩, hm, rfl⟩
    obtain rfl : name' = name := by simpa using List.find?_some hm
    exact List.mem_reverse.1 (List.mem_of_find?_eq_some hm)
  · intro hmem
    obtain ⟨m, hm⟩ : ∃ m, ms.reverse.find? (·.1 == name) = some m := by
      rw [← Option.isSome_iff_exists, List.find?_isSome]
      exact ⟨(name, v), List.mem_reverse.2 hmem, by simp⟩
    obtain rfl : m.1 = name := by simpa using List.find?_some hm
    exact ⟨m, hm, eq_of_mem_members hms (List.mem_reverse.1 (List.mem_of_find?_eq_some hm)) hmem⟩

theorem get?_object_eq_none_iff (hms : (ms.map (·.1)).Nodup) :
    (object ms).get? name = none ↔ ∀ v, (name, v) ∉ ms := by
  simp only [Option.eq_none_iff_forall_ne_some, ne_eq, get?_object_eq_some_iff hms]

end

end Json

namespace Document

open Json (Members)

/-! ## The rules -/

/-- What the format asks of a member. -/
structure Rule where
  name : String
  required : Bool
  allows : Json → Prop

/-- The member is there if it has to be, and if it is there its value is allowed. -/
def Rule.Holds (rule : Rule) (ms : Members) : Prop :=
  (rule.required = true → ∃ v, (rule.name, v) ∈ ms) ∧ ∀ v, (rule.name, v) ∈ ms → rule.allows v

/-- The value stands for this double: it is a number that rounds to a finite one, or the text of any
double. -/
inductive Quantity : Json → Float → Prop
  | integer {n : Int} : |(n : ℚ)| < Decimal.overflow →
      Quantity (.integer n) (Decimal.ofInt n).toFloat
  | real {x : Float} : x.isFinite = true → Quantity (.real x) x
  | text {s : String} {x : Float} : NumberText.Stands s x → Quantity (.string s) x

def tagRule : Rule := ⟨"type", true, fun v => ∃ n : Int, 0 ≤ n ∧ n ≤ 6 ∧ v = .integer n⟩

def flagRule : Rule := ⟨"is_optimized", true, fun v => ∃ b, v = .bool b⟩

def valueRule : Rule := ⟨"value", true, fun v => ∃ x, Quantity v x⟩

def textRule (name : String) : Rule := ⟨name, false, fun v => ∃ s, v = .string s⟩

def residualRules : List Rule := [tagRule, flagRule, valueRule, textRule "old_value"]

def exprRules : List Rule := [tagRule, textRule "literal"]

/-- The document is an object that keeps the rules, and each of its children that is not null is
such a document again. -/
inductive Keeps (rules : List Rule) : Json → Prop
  | object {ms : Members} : (∀ rule ∈ rules, rule.Holds ms) →
      (∀ v, ("left", v) ∈ ms → v ≠ .null → Keeps rules v) →
      (∀ v, ("right", v) ∈ ms → v ≠ .null → Keeps rules v) → Keeps rules (.object ms)

/-- The members are those of an object that the document holds as a node. -/
inductive Part : Json → Members → Prop
  | root {ms : Members} : Part (.object ms) ms
  | left {ms ms' : Members} {v : Json} : ("left", v) ∈ ms → Part v ms' → Part (.object ms) ms'
  | right {ms ms' : Members} {v : Json} : ("right", v) ∈ ms → Part v ms' → Part (.object ms) ms'

/-- The rules hold in every part. -/
theorem Keeps.holds {rules : List Rule} {j : Json} {ms : Members} {rule : Rule}
    (h : Keeps rules j) (hpart : Part j ms) (hrule : rule ∈ rules) : rule.Holds ms := by
  induction hpart with
  | root =>
    obtain ⟨hrules, -, -⟩ := h
    exact hrules rule hrule
  | left hmem hpart ih =>
    obtain ⟨-, hleft, -⟩ := h
    exact ih (hleft _ hmem (by rintro rfl; cases hpart))
  | right hmem hpart ih =>
    obtain ⟨-, -, hright⟩ := h
    exact ih (hright _ hmem (by rintro rfl; cases hpart))

/-! ## What the members say -/

/-- A text that is empty where it is left out. -/
def Text (ms : Members) (name s : String) : Prop :=
  (name, .string s) ∈ ms ∨ (∀ v, (name, v) ∉ ms) ∧ s = ""

structure ResidualMembers (ms : Members) (a : Residual.Label) : Prop where
  kind : ("type", .integer a.kind.tag) ∈ ms
  value : ∃ v, ("value", v) ∈ ms ∧ Quantity v a.value
  name : Text ms "old_value" a.name
  folded : ("is_optimized", .bool a.folded) ∈ ms

structure ExprMembers (ms : Members) (a : Expr.Label) : Prop where
  kind : ("type", .integer a.kind.tag) ∈ ms
  literal : Text ms "literal" a.literal

section
variable {α : Type}

/-- A child, which is left out or null where there is none. -/
def Child (ms : Members) (name : String) (is : α → Json → Prop) : Option α → Prop
  | none => ∀ v, (name, v) ∈ ms → v = .null
  | some t => ∃ v, (name, v) ∈ ms ∧ is t v

/-- The document holds this tree, the labels of whose nodes are what the members say. -/
def IsDocumentOf (label : Members → α → Prop) : Tree α → Json → Prop
  | .node a left right, j =>
    ∃ ms, j = .object ms ∧ label ms a ∧
      (match left with
        | none => ∀ v, ("left", v) ∈ ms → v = .null
        | some l => ∃ v, ("left", v) ∈ ms ∧ IsDocumentOf label l v) ∧
      (match right with
        | none => ∀ v, ("right", v) ∈ ms → v = .null
        | some r => ∃ v, ("right", v) ∈ ms ∧ IsDocumentOf label r v)

theorem isDocumentOf_node {label : Members → α → Prop} {a : α} {left right : Option (Tree α)}
    {j : Json} :
    IsDocumentOf label (.node a left right) j ↔
      ∃ ms, j = .object ms ∧ label ms a ∧ Child ms "left" (IsDocumentOf label) left ∧
        Child ms "right" (IsDocumentOf label) right := by
  cases left <;> cases right <;> rfl

section
variable {ms : Members} {name : String} {is is' : α → Json → Prop} {o : Option α} {v : Json}

theorem Child.imp (h : Child ms name is o)
    (himp : ∀ t, o = some t → ∀ v, (name, v) ∈ ms → is t v → is' t v) : Child ms name is' o := by
  cases o with
  | none => exact h
  | some t =>
    obtain ⟨v, hv, ht⟩ := h
    exact ⟨v, hv, himp t rfl v hv ht⟩

theorem Child.congr (h : ∀ t, o = some t → ∀ v, (name, v) ∈ ms → (is t v ↔ is' t v)) :
    Child ms name is o ↔ Child ms name is' o :=
  ⟨fun hc => hc.imp fun t ht v hv => (h t ht v hv).1,
    fun hc => hc.imp fun t ht v hv => (h t ht v hv).2⟩

/-- A value that is not null is the child. -/
theorem Child.exists_of_mem (h : Child ms name is o) (hms : (ms.map (·.1)).Nodup)
    (hv : (name, v) ∈ ms) (hne : v ≠ .null) : ∃ t, o = some t ∧ is t v := by
  cases o with
  | none => exact absurd (h v hv) hne
  | some t =>
    obtain ⟨w, hw, ht⟩ := h
    exact ⟨t, rfl, Json.eq_of_mem_members hms hv hw ▸ ht⟩

theorem exists_child (h : ∀ v, (name, v) ∈ ms → v ≠ .null → ∃ t, is t v) :
    ∃ o, Child ms name is o := by
  by_cases hnull : ∀ v, (name, v) ∈ ms → v = .null
  · exact ⟨none, hnull⟩
  · obtain ⟨v, hv, hne⟩ : ∃ v, (name, v) ∈ ms ∧ v ≠ .null := by simpa using hnull
    obtain ⟨t, ht⟩ := h v hv hne
    exact ⟨some t, v, hv, ht⟩

end

end

/-! ## Reading values -/

section
variable {v : Json}

theorem readKind_eq_ok_iff {k : Kind} : readKind v = .ok k ↔ v = .integer k.tag := by
  constructor
  · intro h
    unfold readKind at h
    split at h
    · rename_i n
      split at h
      · rename_i hn
        cases htag : Kind.ofTag? n.toNat with
        | none => simp [htag] at h
        | some k' =>
          obtain rfl : k' = k := by simpa [htag] using h
          have hnat := Kind.ofTag?_eq_some_iff.1 htag
          have hint : (n.toNat : ℤ) = n := Int.toNat_of_nonneg hn.1
          rw [← hnat, hint]
      · cases h
    · cases h
  · rintro rfl
    cases k with
    | op o => cases o <;> rfl
    | _ => rfl

/-- The tags are the numbers up to 6. -/
theorem exists_eq_tag_iff {n : ℤ} : (∃ k : Kind, n = k.tag) ↔ 0 ≤ n ∧ n ≤ 6 := by
  constructor
  · rintro ⟨k, rfl⟩
    cases k with
    | op o => cases o <;> decide
    | _ => decide
  · rintro ⟨hlow, hhigh⟩
    obtain ⟨k, hk⟩ : ∃ k, Kind.ofTag? n.toNat = some k := by
      rw [← Option.ne_none_iff_exists', ne_eq, Kind.ofTag?_eq_none_iff]
      omega
    refine ⟨k, ?_⟩
    have := Kind.ofTag?_eq_some_iff.1 hk
    omega

theorem readFloat_eq_ok_iff {x : Float} : readFloat v = .ok x ↔ Quantity v x := by
  have finite : ∀ {y : Float}, readFloat.finite y = .ok x ↔ y.isFinite = true ∧ y = x := by
    intro y
    unfold readFloat.finite
    split <;> simp [*]
  cases v with
  | integer n =>
    have hmagnitude : (Decimal.ofInt n).magnitude = |(n : ℚ)| := by
      simp [Decimal.ofInt, Decimal.magnitude, Nat.cast_natAbs]
    rw [readFloat, finite, Decimal.isFinite_toFloat_iff, hmagnitude]
    constructor
    · rintro ⟨hn, rfl⟩
      exact .integer hn
    · intro h
      cases h with
      | integer hn => exact ⟨hn, rfl⟩
  | real y =>
    rw [readFloat, finite]
    constructor
    · rintro ⟨hy, rfl⟩
      exact .real hy
    · intro h
      cases h with
      | real hy => exact ⟨hy, rfl⟩
  | string s =>
    have htext : readFloat (.string s) = .ok x ↔ NumberText.float? s = some x := by
      rw [readFloat]
      cases h : NumberText.float? s <;> simp
    rw [htext, NumberText.float?_eq_some_iff]
    constructor
    · exact .text
    · intro h
      cases h with
      | text hs => exact hs
  | null | bool _ | array _ | object _ => constructor <;> intro h <;> cases h

theorem readBool_eq_ok_iff {b : Bool} : readBool v = .ok b ↔ v = .bool b := by
  cases v <;> simp [readBool]

theorem readString_eq_ok_iff {s : String} : readString v = .ok s ↔ v = .string s := by
  cases v <;> simp [readString]

end

/-! ## Reading members -/

section
variable {α : Type} {ms : Members} {name : String}

theorem required_eq_ok_iff {o : Option α} {a : α} : required o = .ok a ↔ o = some a := by
  cases o <;> simp [required]

variable {read : Json → Except Fault α}

theorem member_eq_none_iff (hms : (ms.map (·.1)).Nodup) :
    member (.object ms) name read = .ok none ↔ ∀ v, (name, v) ∉ ms := by
  rw [← Json.get?_object_eq_none_iff hms, member]
  cases (Json.object ms).get? name with
  | none => simp
  | some v => cases h : read v <;> simp [h, Functor.map, Except.map]

theorem member_eq_some_iff (hms : (ms.map (·.1)).Nodup) {a : α} :
    member (.object ms) name read = .ok (some a) ↔ ∃ v, (name, v) ∈ ms ∧ read v = .ok a := by
  simp only [← Json.get?_object_eq_some_iff hms]
  rw [member]
  cases (Json.object ms).get? name with
  | none => simp
  | some v => cases h : read v <;> simp [h, Functor.map, Except.map]

theorem exists_member_text_iff (hms : (ms.map (·.1)).Nodup) {s : String} :
    (∃ o, member (.object ms) name readString = .ok o ∧ o.getD "" = s) ↔ Text ms name s := by
  constructor
  · rintro ⟨o, ho, rfl⟩
    cases o with
    | none => exact .inr ⟨(member_eq_none_iff hms).1 ho, rfl⟩
    | some s =>
      obtain ⟨v, hv, hread⟩ := (member_eq_some_iff hms).1 ho
      rw [readString_eq_ok_iff.1 hread] at hv
      exact .inl hv
  · rintro (h | ⟨h, rfl⟩)
    · exact ⟨some s, (member_eq_some_iff hms).2 ⟨_, h, readString_eq_ok_iff.2 rfl⟩, rfl⟩
    · exact ⟨none, (member_eq_none_iff hms).2 h, rfl⟩

/-- What reads no null finds the child or that there is none. -/
theorem child_eq_ok_iff (hms : (ms.map (·.1)).Nodup) (hnull : ∀ a, read .null ≠ .ok a)
    {o : Option α} :
    child (.object ms) name (fun v _ => read v) = .ok o ↔
      Child ms name (fun a v => read v = .ok a) o := by
  have hunique : ∀ {v w}, (Json.object ms).get? name = some w → (name, v) ∈ ms → v = w :=
    fun hw hv => Json.eq_of_mem_members hms hv ((Json.get?_object_eq_some_iff hms).1 hw)
  unfold child
  split
  · rename_i hnone
    have habsent := (Json.get?_object_eq_none_iff hms).1 hnone
    cases o with
    | none => exact iff_of_true rfl fun v hv => absurd hv (habsent v)
    | some a => exact iff_of_false nofun fun ⟨v, hv, _⟩ => habsent v hv
  · rename_i hsome
    cases o with
    | none => exact iff_of_true rfl fun v hv => hunique hsome hv
    | some a =>
      refine iff_of_false nofun ?_
      rintro ⟨v, hv, hread⟩
      rw [hunique hsome hv] at hread
      exact hnull a hread
  · rename_i w hne hsome
    have hw : (name, w) ∈ ms := (Json.get?_object_eq_some_iff hms).1 hsome
    have hread : some <$> read w = .ok o ↔ ∃ a, read w = .ok a ∧ o = some a := by
      cases h : read w <;> simp [Functor.map, Except.map, eq_comm]
    rw [hread]
    cases o with
    | none => exact iff_of_false (by simp) fun hnull => hne (hnull w hw)
    | some a =>
      constructor
      · rintro ⟨_, h, ⟨⟩⟩
        exact ⟨w, hw, h⟩
      · rintro ⟨v, hv, h⟩
        rw [hunique hsome hv] at h
        exact ⟨a, h, rfl⟩

end

/-! ## Reading nodes -/

section
variable {α : Type} {read : Json → Except Fault (Tree α)} {label : Members → α → Prop}
  {rules : List Rule}

/-- A reader of documents that finds the label of a node and its children among the members, the
label by rules that are the same for every node. -/
structure ReadsNodes (read : Json → Except Fault (Tree α)) (rules : List Rule)
    (label : Members → α → Prop) : Prop where
  exists_members : ∀ {j t}, read j = .ok t → ∃ ms, j = .object ms
  node : ∀ {ms : Members} {a left right}, (ms.map (·.1)).Nodup →
    (read (.object ms) = .ok (.node a left right) ↔
      label ms a ∧ Child ms "left" (fun t v => read v = .ok t) left ∧
        Child ms "right" (fun t v => read v = .ok t) right)
  rules : ∀ {ms : Members}, (ms.map (·.1)).Nodup →
    ((∃ a, label ms a) ↔ ∀ rule ∈ rules, rule.Holds ms)

namespace ReadsNodes

theorem eq_ok_iff (h : ReadsNodes read rules label) {t : Tree α} {j : Json} (hj : j.Distinct) :
    read j = .ok t ↔ IsDocumentOf label t j := by
  induction t generalizing j with
  | node a left right hleft hright =>
    have hmembers : ∀ {ms : Members}, (Json.object ms).Distinct →
        (read (.object ms) = .ok (.node a left right) ↔ label ms a ∧
          Child ms "left" (IsDocumentOf label) left ∧
          Child ms "right" (IsDocumentOf label) right) := by
      intro ms hms
      rw [h.node hms.names, Child.congr fun l hl v hv => hleft l hl (hms.member hv),
        Child.congr fun r hr v hv => hright r hr (hms.member hv)]
    rw [isDocumentOf_node]
    constructor
    · intro hread
      obtain ⟨ms, rfl⟩ := h.exists_members hread
      exact ⟨ms, rfl, (hmembers hj).1 hread⟩
    · rintro ⟨ms, rfl, hnode⟩
      exact (hmembers hj).2 hnode

theorem keeps (h : ReadsNodes read rules label) {t : Tree α} {j : Json} (hj : j.Distinct)
    (hread : read j = .ok t) : Keeps rules j := by
  induction t generalizing j with
  | node a left right hleft hright =>
    obtain ⟨ms, rfl⟩ := h.exists_members hread
    obtain ⟨hlabel, hl, hr⟩ := (h.node hj.names).1 hread
    refine .object ((h.rules hj.names).1 ⟨a, hlabel⟩) ?_ ?_
    · intro v hv hne
      obtain ⟨l, rfl, hchild⟩ := hl.exists_of_mem hj.names hv hne
      exact hleft l rfl (hj.member hv) hchild
    · intro v hv hne
      obtain ⟨r, rfl, hchild⟩ := hr.exists_of_mem hj.names hv hne
      exact hright r rfl (hj.member hv) hchild

theorem exists_eq_ok (h : ReadsNodes read rules label) {j : Json} (hj : j.Distinct)
    (hkeeps : Keeps rules j) : ∃ t, read j = .ok t := by
  induction hkeeps with
  | @object ms hrules _ _ hleft hright =>
    obtain ⟨a, ha⟩ := (h.rules hj.names).2 hrules
    obtain ⟨left, hl⟩ := exists_child fun v hv hne => hleft v hv hne (hj.member hv)
    obtain ⟨right, hr⟩ := exists_child fun v hv hne => hright v hv hne (hj.member hv)
    exact ⟨.node a left right, (h.node hj.names).2 ⟨ha, hl, hr⟩⟩

end ReadsNodes

end

/-! ## Both formats -/

section
variable {ms : Members} (hms : (ms.map (·.1)).Nodup)
include hms

/-- A member that has to be there is the only one of its name. -/
theorem holds_required_iff {name : String} {allows : Json → Prop} :
    Rule.Holds ⟨name, true, allows⟩ ms ↔ ∃ v, (name, v) ∈ ms ∧ allows v := by
  constructor
  · rintro ⟨hthere, hallowed⟩
    obtain ⟨v, hv⟩ := hthere rfl
    exact ⟨v, hv, hallowed v hv⟩
  · rintro ⟨v, hv, hallowed⟩
    refine ⟨fun _ => ⟨v, hv⟩, fun w hw => ?_⟩
    rw [Json.eq_of_mem_members hms hw hv]
    exact hallowed

theorem holds_tagRule_iff : tagRule.Holds ms ↔ ∃ k : Kind, ("type", .integer k.tag) ∈ ms := by
  rw [tagRule, holds_required_iff hms]
  constructor
  · rintro ⟨v, hv, n, hlow, hhigh, rfl⟩
    obtain ⟨k, rfl⟩ := exists_eq_tag_iff.2 ⟨hlow, hhigh⟩
    exact ⟨k, hv⟩
  · rintro ⟨k, hk⟩
    obtain ⟨hlow, hhigh⟩ := exists_eq_tag_iff.1 ⟨k, rfl⟩
    exact ⟨_, hk, _, hlow, hhigh, rfl⟩

theorem holds_textRule_iff {name : String} : (textRule name).Holds ms ↔ ∃ s, Text ms name s := by
  constructor
  · rintro ⟨-, hallowed⟩
    by_cases hthere : ∃ v, (name, v) ∈ ms
    · obtain ⟨v, hv⟩ := hthere
      obtain ⟨s, rfl⟩ := hallowed v hv
      exact ⟨s, .inl hv⟩
    · exact ⟨"", .inr ⟨not_exists.1 hthere, rfl⟩⟩
  · rintro ⟨s, hs⟩
    refine ⟨nofun, fun v hv => ?_⟩
    rcases hs with hs | ⟨habsent, -⟩
    · exact ⟨s, Json.eq_of_mem_members hms hv hs⟩
    · exact absurd hv (habsent v)

end

theorem readsNodes_residual : ReadsNodes readResidual residualRules ResidualMembers where
  exists_members := by
    intro j t h
    cases j with
    | object ms => exact ⟨ms, rfl⟩
    | _ => rw [readResidual] at h; cases h
  node := by
    intro ms a left right hms
    have hnull : ∀ t, readResidual .null ≠ .ok t := by
      intro t h
      rw [readResidual] at h
      cases h
    have hobject : requireObject (.object ms) = .ok () := rfl
    rw [readResidual, hobject]
    simp only [ok_bind, bind_eq_ok_iff, required_eq_ok_iff, child_eq_ok_iff hms hnull]
    constructor
    · rintro ⟨_, hfolded, l, hl, name, hname, r, hr, _, hkind, _, hvalue, k, rfl, x, rfl, b, rfl,
        ⟨⟩⟩
      simp only [member_eq_some_iff hms, readBool_eq_ok_iff, readKind_eq_ok_iff,
        readFloat_eq_ok_iff, exists_eq_right] at hfolded hkind hvalue
      exact ⟨⟨hkind, hvalue, (exists_member_text_iff hms).1 ⟨name, hname, rfl⟩, hfolded⟩, hl, hr⟩
    · rintro ⟨⟨hkind, hvalue, hname, hfolded⟩, hl, hr⟩
      obtain ⟨name, hname, htext⟩ := (exists_member_text_iff hms).2 hname
      refine ⟨some a.folded, ?_, left, hl, name, hname, right, hr, some a.kind, ?_, some a.value,
        ?_, a.kind, rfl, a.value, rfl, a.folded, rfl, ?_⟩
      · simpa only [member_eq_some_iff hms, readBool_eq_ok_iff, exists_eq_right]
      · simpa only [member_eq_some_iff hms, readKind_eq_ok_iff, exists_eq_right]
      · simpa only [member_eq_some_iff hms, readFloat_eq_ok_iff]
      · rw [htext]
        rfl
  rules := by
    intro ms hms
    simp only [residualRules, List.forall_mem_cons, holds_tagRule_iff hms, holds_textRule_iff hms]
    rw [flagRule, valueRule, holds_required_iff hms, holds_required_iff hms]
    constructor
    · rintro ⟨a, hkind, ⟨v, hv, hvalue⟩, hname, hfolded⟩
      exact ⟨⟨_, hkind⟩, ⟨_, hfolded, _, rfl⟩, ⟨v, hv, _, hvalue⟩, ⟨_, hname⟩, nofun⟩
    · rintro ⟨⟨k, hkind⟩, ⟨_, hfolded, b, rfl⟩, ⟨v, hv, x, hvalue⟩, ⟨s, hname⟩, -⟩
      exact ⟨⟨k, x, s, b⟩, hkind, ⟨v, hv, hvalue⟩, hname, hfolded⟩

theorem readsNodes_expr : ReadsNodes readExpr exprRules ExprMembers where
  exists_members := by
    intro j t h
    cases j with
    | object ms => exact ⟨ms, rfl⟩
    | _ => rw [readExpr] at h; cases h
  node := by
    intro ms a left right hms
    have hnull : ∀ t, readExpr .null ≠ .ok t := by
      intro t h
      rw [readExpr] at h
      cases h
    have hobject : requireObject (.object ms) = .ok () := rfl
    rw [readExpr, hobject]
    simp only [ok_bind, bind_eq_ok_iff, required_eq_ok_iff, child_eq_ok_iff hms hnull]
    constructor
    · rintro ⟨l, hl, literal, hliteral, r, hr, _, hkind, k, rfl, ⟨⟩⟩
      simp only [member_eq_some_iff hms, readKind_eq_ok_iff, exists_eq_right] at hkind
      exact ⟨⟨hkind, (exists_member_text_iff hms).1 ⟨literal, hliteral, rfl⟩⟩, hl, hr⟩
    · rintro ⟨⟨hkind, hliteral⟩, hl, hr⟩
      obtain ⟨literal, hliteral, htext⟩ := (exists_member_text_iff hms).2 hliteral
      refine ⟨left, hl, literal, hliteral, right, hr, some a.kind, ?_, a.kind, rfl, ?_⟩
      · simpa only [member_eq_some_iff hms, readKind_eq_ok_iff, exists_eq_right]
      · rw [htext]
        rfl
  rules := by
    intro ms hms
    simp only [exprRules, List.forall_mem_cons, holds_tagRule_iff hms, holds_textRule_iff hms]
    constructor
    · rintro ⟨a, hkind, hliteral⟩
      exact ⟨⟨_, hkind⟩, ⟨_, hliteral⟩, nofun⟩
    · rintro ⟨⟨k, hkind⟩, ⟨s, hliteral⟩, -⟩
      exact ⟨⟨k, s⟩, hkind, hliteral⟩

/-- What a reader of documents makes of this one is what the rules and the labels say. -/
structure Specified {α : Type} (read : Json → Except Fault (Tree α)) (rules : List Rule)
    (label : Members → α → Prop) (j : Json) : Prop where
  /-- The documents that keep the rules are accepted, and no others. -/
  accepts : (∃ t, read j = .ok t) ↔ Keeps rules j
  /-- The tree is the one that the document holds. -/
  holds : ∀ t, read j = .ok t ↔ IsDocumentOf label t j
  /-- One value that is not allowed is enough for the document to be refused, wherever it is. -/
  refuses : ∀ (ms : Members) (rule : Rule) (v : Json), Part j ms → rule ∈ rules →
    (rule.name, v) ∈ ms → ¬rule.allows v → ∃ fault, read j = .error fault

theorem ReadsNodes.specified {α : Type} {read : Json → Except Fault (Tree α)} {rules : List Rule}
    {label : Members → α → Prop} (h : ReadsNodes read rules label) {j : Json} (hj : j.Distinct) :
    Specified read rules label j where
  accepts := ⟨fun ⟨_, ht⟩ => h.keeps hj ht, h.exists_eq_ok hj⟩
  holds _ := h.eq_ok_iff hj
  refuses := by
    intro ms rule v hpart hrule hv hbad
    cases hread : read j with
    | ok t => exact absurd (((h.keeps hj hread).holds hpart hrule).2 v hv) hbad
    | error fault => exact ⟨fault, rfl⟩

/-- **The documents that are accepted.** A document that names no member twice is read as a residual
just when it keeps the rules for residuals in every part, and as an expression just when it keeps
those for expressions. The tree holds what the members say, a text that is left out being empty and
a child that is left out or null being none. One value that is not allowed, in any part, and the
whole document is refused. -/
theorem read_specified {j : Json} (hj : j.Distinct) :
    Specified readResidual residualRules ResidualMembers j ∧
      Specified readExpr exprRules ExprMembers j :=
  ⟨readsNodes_residual.specified hj, readsNodes_expr.specified hj⟩

/-- A sum whose members are out of order, with one that is unknown, over an infinity; and the same
with the tag 7 further down. -/
theorem read_specified_sum :
    let leaf (tag : Int) : Json :=
      .object [("is_optimized", .bool true), ("value", .string "-Infinity"), ("type", .integer tag)]
    let sum (tag : Int) : Json :=
      .object [("right", leaf tag), ("comment", .array [.null]), ("value", .integer 7),
        ("type", .integer 3), ("left", .null), ("is_optimized", .bool false)]
    (∀ tag, (sum tag).Distinct) ∧
      readResidual (sum 1) = .ok (.node ⟨.op .add, (Decimal.ofInt 7).toFloat, "", false⟩ none
        (some (.leaf ⟨.decimal, -Binary64.infinity, "", true⟩))) ∧
      ∃ fault, readResidual (sum 7) = .error fault := by
  intro leaf sum
  have hleaf : ∀ tag, (leaf tag).Distinct := by
    intro tag
    refine .object (by simp) ?_
    simpa using ⟨.bool _, .string _, .integer _⟩
  have hsum : ∀ tag, (sum tag).Distinct := by
    intro tag
    refine .object (by simp) ?_
    simpa using ⟨hleaf tag, .array (by simpa using .null), .integer _, .integer _, .null, .bool _⟩
  refine ⟨hsum, ?_, ?_⟩
  · have hseven : Quantity (.integer 7) (Decimal.ofInt 7).toFloat :=
      readFloat_eq_ok_iff.1 (by decide +kernel)
    have hinfinity : Quantity (.string "-Infinity") (-Binary64.infinity) :=
      .text (.minus (s := "Infinity") (.infinity (by decide)))
    have hchild : IsDocumentOf ResidualMembers (.leaf ⟨.decimal, -Binary64.infinity, "", true⟩)
        (leaf 1) := by
      rw [isDocumentOf_node]
      refine ⟨_, rfl, ⟨?_, ⟨_, ?_, hinfinity⟩, .inr ⟨?_, rfl⟩, ?_⟩, ?_, ?_⟩ <;>
        simp [Child, Kind.tag]
    refine ((read_specified (hsum 1)).1.holds _).2 ?_
    rw [isDocumentOf_node]
    refine ⟨_, rfl, ⟨?_, ⟨_, ?_, hseven⟩, .inr ⟨?_, rfl⟩, ?_⟩, ?_, _, ?_, hchild⟩ <;>
      simp [Child, Kind.tag]
  · refine (read_specified (hsum 7)).1.refuses _ tagRule (.integer 7)
      (.right (v := leaf 7) (by simp) .root) (by simp [residualRules]) (by simp [tagRule]) ?_
    rintro ⟨n, hlow, hhigh, ⟨⟩⟩
    omega

end Document

end ExprFold
