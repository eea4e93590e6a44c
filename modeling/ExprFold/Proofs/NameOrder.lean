import ExprFold.Proofs.Names
import ExprFold.Proofs.Parsing
import ExprFold.Proofs.Traversals
import ExprFold.Residual.Collection
import Mathlib

/-!
# The names of a residual expression in their order

The walk that collects names comes to the list of names without its repetitions
(`Residual.collectNames_eq`), whatever the shape of the tree. So every name is listed once, and in the
order of the first places where variables carry them. For a text that was parsed and folded these
are its distinct names in the order of the text. Main statement: `variableNames_listed`.
-/

namespace ExprFold

/-! ## Lists without their repetitions -/

/-- Where things come in the order `R`, the first of them with one feature comes before all with a
feature that is listed behind it. -/
theorem pairwise_eraseDups_map {α β : Type} [BEq β] [LawfulBEq β] (f : α → β)
    {R : α → α → Prop} : ∀ {as : List α}, as.Pairwise R →
      (as.map f).eraseDups.Pairwise fun b c =>
        ∃ x ∈ as, f x = b ∧ ∀ y ∈ as, f y = c → R x y
  | [], _ => .nil
  | a :: as, h => by
    obtain ⟨ha, has⟩ := List.pairwise_cons.1 h
    have hfilter : (as.map f).filter (fun b => !b == f a) =
        (as.filter fun x => !f x == f a).map f := by
      rw [List.filter_map]
      rfl
    have hne : ∀ c ∈ ((as.filter fun x => !f x == f a).map f).eraseDups, c ≠ f a := by
      intro c hc
      obtain ⟨y, hy, rfl⟩ := List.mem_map.1 (List.mem_eraseDups.1 hc)
      simpa using (List.mem_filter.1 hy).2
    rw [List.map_cons, List.eraseDups_cons, hfilter, List.pairwise_cons]
    refine ⟨fun c hc => ?_, ?_⟩
    · refine ⟨a, List.mem_cons_self, rfl, fun y hy hfy => ?_⟩
      rcases List.mem_cons.1 hy with rfl | hy
      · exact absurd hfy.symm (hne c hc)
      · exact ha y hy
    · refine (pairwise_eraseDups_map f (has.filter fun x => !f x == f a)).imp_of_mem ?_
      rintro b c - hc ⟨x, hx, hfx, hall⟩
      refine ⟨x, List.mem_cons_of_mem _ (List.mem_filter.1 hx).1, hfx, fun y hy hfy => ?_⟩
      rcases List.mem_cons.1 hy with rfl | hy
      · exact absurd hfy.symm (hne c hc)
      · exact hall y (List.mem_filter.2 ⟨hy, by simpa [hfy] using hne c hc⟩) hfy
termination_by as => as.length
decreasing_by
  have := List.length_filter_le (fun x => !f x == f a) as
  simp only [List.length_cons]
  omega

namespace Residual

/-! ## The walk -/

theorem occurrences_node (a : Label) (l r : Option Residual) :
    occurrences (.node a l r) =
      (if a.kind = .var then [a.name] else []) ++ l.elim [] occurrences ++
        r.elim [] occurrences := by
  unfold occurrences
  rw [Tree.labels_node]
  cases l <;> cases r <;> by_cases ha : a.kind = .var <;> simp [ha]

/-- The walk has met just the names of the list, and it has taken each of them once. -/
structure Collected.Of (c : Collected) (names : List String) : Prop where
  names_eq : c.names = names.eraseDups
  mem_met : ∀ name, name ∈ c.met ↔ name ∈ names

theorem Collected.Of.visit {c : Collected} {names : List String} (h : c.Of names) (a : Label) :
    (c.visit a).Of (names ++ if a.kind = .var then [a.name] else []) := by
  unfold Collected.visit
  by_cases ha : a.kind = .var
  · by_cases hm : a.name ∈ names
    · -- the name has been met, and it adds nothing to the list either
      have hc : a.name ∈ c.met := (h.mem_met _).2 hm
      rw [if_neg fun hv => hv.2 hc, if_pos ha]
      refine ⟨?_, fun name => ?_⟩
      · rw [h.names_eq, List.eraseDups_append]
        simp [List.removeAll, hm]
      · rw [h.mem_met, List.mem_append, List.mem_singleton]
        exact ⟨.inl, fun hn => hn.elim id fun hn => hn ▸ hm⟩
    · have hc : a.name ∉ c.met := fun hv => hm ((h.mem_met _).1 hv)
      rw [if_pos ⟨ha, hc⟩, if_pos ha]
      refine ⟨?_, fun name => ?_⟩
      · rw [h.names_eq, List.eraseDups_append]
        simp [List.removeAll, hm, List.eraseDups_cons]
      · rw [Finset.mem_insert, h.mem_met, List.mem_append, List.mem_singleton, or_comm]
  · rw [if_neg fun hv => ha hv.1, if_neg ha, List.append_nil]
    exact h

theorem collect_node (a : Label) (l r : Option Residual) (c : Collected) :
    collect (.node a l r) c = r.elim id collect (l.elim id collect (c.visit a)) := by
  cases l <;> cases r <;> rfl

theorem Collected.Of.collect {c : Collected} {names : List String} (h : c.Of names)
    (u : Residual) : (collect u c).Of (names ++ u.occurrences) := by
  induction u using Tree.recOn' generalizing c names with
  | node a l r ihl ihr =>
    have hchild {child : Option Residual} {c : Collected} {names : List String} (h : c.Of names)
        (ih : ∀ u, child = some u → ∀ {c : Collected} {names : List String}, c.Of names →
          (Residual.collect u c).Of (names ++ u.occurrences)) :
        (child.elim id Residual.collect c).Of (names ++ child.elim [] occurrences) := by
      cases child with
      | none => rw [Option.elim_none, Option.elim_none, List.append_nil]; exact h
      | some u => exact ih u rfl h
    rw [collect_node, occurrences_node, ← List.append_assoc, ← List.append_assoc]
    exact hchild (hchild (h.visit a) ihl) ihr

/-- The walk comes to the names of the tree, on a tree of any shape. -/
theorem collectNames_eq (u : Residual) : u.collectNames = u.variableNames := by
  have hempty : Collected.Of {} [] := ⟨rfl, by simp⟩
  exact (hempty.collect u).names_eq

/-! ## The order of the names -/

/-- A variable with the name stands at the place. -/
def NameAt (u : Residual) (p : Tree.Path) (name : String) : Prop :=
  ∃ n : Residual, u.subtree? p = some n ∧ n.label.kind = .var ∧ n.label.name = name

section
variable {u : Residual} {name : String}

/-- The places where variables stand, with what stands there. -/
def variablePlaces (u : Residual) : List (Tree.Path × Residual) :=
  u.preorder.filter (·.2.label.kind == .var)

theorem nameAt_iff {p : Tree.Path} :
    u.NameAt p name ↔ ∃ n, (p, n) ∈ u.variablePlaces ∧ n.label.name = name := by
  simp only [variablePlaces, List.mem_filter, Tree.mem_preorder, beq_iff_eq, NameAt, and_assoc]

theorem occurrences_eq_map (u : Residual) :
    u.occurrences = u.variablePlaces.map (·.2.label.name) := by
  rw [occurrences, ← Tree.map_label_preorder, List.filter_map, List.map_map]
  rfl

theorem mem_variableNames_iff_nameAt : name ∈ u.variableNames ↔ ∃ p, u.NameAt p name := by
  simp only [mem_variableNames, occurrences_eq_map, List.mem_map, Prod.exists, nameAt_iff]

/-- A name that is listed before another one stands somewhere before all places of the other. -/
theorem pairwise_variableNames (u : Residual) :
    u.variableNames.Pairwise fun a b =>
      ∃ p, u.NameAt p a ∧ ∀ q, u.NameAt q b → Tree.Before p q := by
  have hplaces : u.variablePlaces.Pairwise fun x y => Tree.Before x.1 y.1 :=
    (Tree.pairwise_preorder u).filter _
  rw [variableNames_eq, occurrences_eq_map]
  refine (pairwise_eraseDups_map (·.2.label.name) hplaces).imp ?_
  rintro a b ⟨⟨p, n⟩, hx, ha, hall⟩
  refine ⟨p, nameAt_iff.2 ⟨n, hx, ha⟩, fun q hq => ?_⟩
  obtain ⟨m, hm, hb⟩ := nameAt_iff.1 hq
  exact hall (q, m) hm hb

theorem nodup_variableNames (u : Residual) : u.variableNames.Nodup := by
  refine (pairwise_variableNames u).imp ?_
  rintro a _ ⟨p, ha, hall⟩ rfl
  exact Tree.not_before_self p (hall p ha)

end

end Residual

/-- The names of what a parsed text leaves are those of its tokens. -/
theorem Folds.variableNames_eq {limit : Limit} {d : Nat} {p : Expr.Phrase} {ts : List Token}
    {t : Expr} {u : Residual} (h : Folds limit d t u) (ht : Expr.Derives p ts t) :
    u.variableNames = (ts.filterMap Token.name?).eraseDups := by
  rw [Residual.variableNames_eq, h.occurrences_eq, ht.names_eq]

/-- **The listed names are those of the variables in their order.** On a tree of any shape the walk
that collects them comes to the list; no name is in it twice, a name is in it just when a variable
carries it somewhere, and it comes before the names whose variables all stand behind one of its own.
Of a text that is parsed and then folded, the names are its distinct ones in the order of the
text. -/
theorem variableNames_listed :
    (∀ u : Residual, u.collectNames = u.variableNames ∧ u.variableNames.Nodup ∧
      (∀ name, name ∈ u.variableNames ↔ ∃ p, u.NameAt p name) ∧
      u.variableNames.Pairwise fun a b =>
        ∃ p, u.NameAt p a ∧ ∀ q, u.NameAt q b → Tree.Before p q) ∧
    ∀ (engine : Engine) (s : String) (t : Expr) (u : Residual), Expr.parse none s = .ok t →
      (engine.fold t).result = .ok u →
      ∃ ts, tokenize s = .ok ts ∧ u.variableNames = (ts.filterMap Token.name?).eraseDups := by
  refine ⟨fun u => ⟨u.collectNames_eq, u.nodup_variableNames, fun name => ?_,
    u.pairwise_variableNames⟩, ?_⟩
  · exact Residual.mem_variableNames_iff_nameAt
  · intro engine s t u ht hu
    obtain ⟨ts, hts, hrun⟩ := Expr.parse_eq_ok_iff.1 ht
    have hd := Expr.Parser.run_none_eq_ok_iff.1 hrun
    exact ⟨ts, hts, (Engine.result_fold_eq_ok_iff.1 hu).variableNames_eq hd⟩

/-- A product with zero keeps its name, and the name that comes again in a product with minus one is
not listed twice. -/
theorem variableNames_listed_zero :
    let s := "0 * x + (y - 2 * 3) * -x"
    let t : Expr := .binary (.op .add) (.binary (.op .mul) (.integer "0") (.var "x"))
      (.binary (.op .mul)
        (.binary (.op .sub) (.var "y") (.binary (.op .mul) (.integer "2") (.integer "3")))
        (.binary (.op .mul) (.integer "-1") (.var "x")))
    Expr.parse none s = .ok t ∧ ∃ u, (Engine.fold ⟨some 5⟩ t).result = .ok u ∧
      u.variableNames = ["x", "y"] ∧
      ∃ ts, tokenize s = .ok ts ∧ u.variableNames = (ts.filterMap Token.name?).eraseDups := by
  intro s t
  have ht : Expr.parse none s = .ok t := by cbv
  obtain ⟨u, hu, hnames⟩ :
      ∃ u, (Engine.fold ⟨some 5⟩ t).result = .ok u ∧ u.variableNames = ["x", "y"] := by
    refine ⟨_, rfl, ?_⟩
    decide
  exact ⟨ht, u, hu, hnames, variableNames_listed.2 ⟨some 5⟩ s t u ht hu⟩

end ExprFold
