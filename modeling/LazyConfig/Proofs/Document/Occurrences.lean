-- Where expressions occur in a document: inside of which object literals in property position, and
-- below the parameters of which lambdas. Arrays, calls, lambdas and object literals elsewhere add
-- no scopes, so all that is inside of them occurs in the scopes that they occur in themselves.
-- Main statements: what a binding of a document evaluates occurs in the document, in the scopes of
-- the binding; and where an expression of a source occurs says all about it.
import LazyConfig.Proofs.Document.Origin
import LazyConfig.Proofs.Source.Extents
import Mathlib.Data.List.Pairwise

namespace LazyConfig

/-- Below lambdas with the first parameters there is an expression, and in it, below lambdas with
the second ones, there is another one. Parameters are innermost first. -/
inductive Encloses : List String → Expr → List String → Expr → Prop
  | self {names : List String} {e : Expr} : Encloses names e names e
  | inside {names names' : List String} {e inside e' : Expr} (hmem : inside ∈ e.children)
      (h : Encloses (e.binds ++ names) inside names' e') : Encloses names e names' e'

/-- Inside of an expression that stands in property position, at a path and inside of object
literals, another expression occurs in scopes and below lambdas with parameters, both innermost
first. What stands there and is no object literal is evaluated in its scopes. An object literal is a
scope for what it spreads and for its properties, of which the last one with a key counts. -/
inductive Occurs : List Scope → String → Expr → List Scope → List String → Expr → Prop
  | alone {around : List Scope} {path : String} {standing e : Expr} {names : List String}
      (hsingle : ∀ span members, standing ≠ .object span members)
      (h : Encloses [] standing names e) :
      Occurs around path standing (scopesAt around path standing) names e
  | spread {around : List Scope} {path : String} {span : Span} {members : List Member}
      {given e : Expr} {names : List String} (hmem : .spread given ∈ members)
      (h : Encloses [] given names e) :
      Occurs around path (.object span members) (⟨path, members⟩ :: around) names e
  | property {around scopes : List Scope} {path key : String} {span : Span} {members : List Member}
      {value e : Expr} {names : List String} (hvalue : lastValue? key members = some value)
      (h : Occurs (⟨path, members⟩ :: around) (childPath path key) value scopes names e) :
      Occurs around path (.object span members) scopes names e

/-- The expression occurs in the document with a name and a root. -/
def OccursIn (name : String) (root : Expr) (scopes : List Scope) (names : List String)
    (e : Expr) : Prop :=
  Occurs [] name root scopes names e

variable {name path : String} {root standing e inside : Expr} {around scopes scopes' : List Scope}
  {names names' : List String}

/-! ## Further in -/

theorem Encloses.child {whole : Expr} (h : Encloses names whole names' e)
    (hmem : inside ∈ e.children) :
    Encloses names whole (e.binds ++ names') inside := by
  induction h with
  | self => exact .inside hmem .self
  | inside hfirst _ ih => exact .inside hfirst (ih hmem)

/-- What is directly inside of an expression occurs in the same scopes, below the parameters that
the expression binds. -/
theorem Occurs.child (h : Occurs around path standing scopes names e) (hmem : inside ∈ e.children) :
    Occurs around path standing scopes (e.binds ++ names) inside := by
  induction h with
  | alone hsingle h => exact .alone hsingle (h.child hmem)
  | spread hspread h => exact .spread hspread (h.child hmem)
  | property hvalue _ ih => exact .property hvalue (ih hmem)

/-- What occurs inside of an expression that stands in a document occurs in the document. -/
theorem Occurs.of_stands (h : Occurs around path standing scopes names e)
    (hstands : Stands name root around path standing) : OccursIn name root scopes names e := by
  induction hstands with
  | root => exact h
  | property _ hvalue ih => exact ih (.property hvalue h)

/-- The scopes are those of an expression that stands in the document. -/
theorem Occurs.exists_stands (h : Occurs around path standing scopes names e)
    (hstands : Stands name root around path standing) :
    ∃ around' path' standing', Stands name root around' path' standing' ∧
      scopes = scopesAt around' path' standing' := by
  induction h with
  | alone => exact ⟨_, _, _, hstands, rfl⟩
  | spread => exact ⟨_, _, _, hstands, rfl⟩
  | property hvalue _ ih => exact ih (hstands.property hvalue)

/-- What the binding of an expression evaluates itself occurs in the scopes of the binding. -/
theorem occursIn_of_mem {b : Suspension} (hb : b ∈ documentBindings name root) :
    (∀ e, b.task = .expression e →
      ∃ scopes, OccursIn name root scopes [] e ∧ b.scopes = scopes.map (·.path)) ∧
    ∀ members e, b.task = .members members → .spread e ∈ members →
      ∃ scopes, OccursIn name root scopes [] e ∧ b.scopes = scopes.map (·.path) := by
  obtain ⟨around, path, standing, hstands, rfl⟩ := exists_stands_of_mem hb
  cases standing with
  | object span members =>
    refine ⟨fun e htask => ?_, fun members e htask hspread => ?_⟩
    · cases htask
    · cases htask
      exact ⟨_, Occurs.of_stands (.spread hspread .self) hstands, rfl⟩
  | _ =>
    refine ⟨fun e htask => ?_, fun members e htask hspread => ?_⟩
    · cases htask
      exact ⟨_, Occurs.of_stands (.alone (fun _ _ => Expr.noConfusion) .self) hstands, rfl⟩
    · cases htask

/-! ## Only in one place -/

/-- No part of the tree is empty, and parts next to one another do not overlap. -/
def Expr.Apart (root : Expr) : Prop :=
  ∀ p : Expr, p.PartOf root → p.span.start < p.span.stop ∧ p.Nested

/-- The tree of a source is such a tree. -/
theorem apart_of_parse {limit : Nat} {bytes : Bytes} (h : parse limit bytes = .ok root) :
    root.Apart := by
  obtain ⟨ts, rest, -, horder, hderives⟩ := exists_derives_of_parse h
  intro p hp
  obtain ⟨hspanned, hnested⟩ := hderives.spanned horder hp
  exact ⟨hspanned.nonempty, hnested⟩

theorem Expr.PartOf.size_le (h : e.PartOf root) : e.size ≤ root.size := by
  induction h with
  | refl => exact Nat.le_refl _
  | tail _ hmem ih => exact Nat.le_trans (Nat.le_of_lt (Expr.size_lt_of_child hmem)) ih

namespace Expr.Apart

variable (h : root.Apart)

include h

theorem part (hp : e.PartOf root) : e.Apart := fun _ hp' => h _ (hp.trans hp')

theorem child (hmem : inside ∈ root.children) : inside.Apart := h.part (.single hmem)

theorem within (hp : e.PartOf root) :
    root.span.start ≤ e.span.start ∧ e.span.stop ≤ root.span.stop := by
  induction hp with
  | refl => exact ⟨Nat.le_refl _, Nat.le_refl _⟩
  | tail hp hmem ih =>
    obtain ⟨hstart, hstop⟩ := (h _ hp).2.inside _ hmem
    omega

/-- An expression is a part of one child only. -/
theorem eq_of_partOf {α : Type} {f : α → Expr} {items : List α}
    (hitems : root.children = items.map f) {a b : α} (ha : a ∈ items) (hb : b ∈ items)
    (hea : e.PartOf (f a)) (heb : e.PartOf (f b)) : a = b := by
  have hmem : ∀ {i}, i ∈ items → f i ∈ root.children := fun hi => hitems ▸ List.mem_map_of_mem hi
  have hordered := (h root .refl).2.ordered
  rw [hitems, List.pairwise_map] at hordered
  -- A part of two children would lie in two spans that do not overlap, and have no extent.
  have hnonempty := (h e (hea.of_child (hmem ha))).1
  have hone : items.Pairwise fun i j => ¬(e.PartOf (f i) ∧ e.PartOf (f j)) := by
    refine hordered.imp_of_mem fun {i j} hi hj hij => ?_
    rintro ⟨hei, hej⟩
    have hi := (h.child (hmem hi)).within hei
    have hj := (h.child (hmem hj)).within hej
    omega
  have hsymm : Std.Symm fun i j => ¬(e.PartOf (f i) ∧ e.PartOf (f j)) :=
    ⟨fun _ _ hij hji => hij hji.symm⟩
  by_contra hne
  exact hone.forall ha hb hne ⟨hea, heb⟩

end Expr.Apart

theorem Encloses.partOf {whole : Expr} (h : Encloses names whole names' e) : e.PartOf whole := by
  induction h with
  | self => exact .refl
  | inside hmem _ ih => exact ih.of_child hmem

/-- Below which parameters an expression is in a tree is up to the tree. -/
theorem Encloses.names_eq {whole : Expr} {names₁ names₂ : List String} (hwhole : whole.Apart)
    (h₁ : Encloses names whole names₁ e) (h₂ : Encloses names whole names₂ e) :
    names₁ = names₂ := by
  have hproper : ∀ {outer inside : Expr}, inside ∈ outer.children → ¬outer.PartOf inside :=
    fun hmem hpart => absurd hpart.size_le (Nat.not_le_of_lt (Expr.size_lt_of_child hmem))
  induction h₁ with
  | self =>
    cases h₂ with
    | self => rfl
    | inside hmem h₂ => exact absurd h₂.partOf (hproper hmem)
  | inside hmem h₁ ih =>
    cases h₂ with
    | self => exact absurd h₁.partOf (hproper hmem)
    | inside hmem' h₂ =>
      obtain rfl :=
        hwhole.eq_of_partOf (f := id) (List.map_id _).symm hmem hmem' h₁.partOf h₂.partOf
      exact ih (hwhole.child hmem) h₂

theorem Occurs.partOf (h : Occurs around path standing scopes names e) : e.PartOf standing := by
  induction h with
  | alone _ h => exact h.partOf
  | spread hmem h => exact h.partOf.of_child (Member.expr_mem_children hmem)
  | property hvalue _ ih => exact ih.of_child (Member.expr_mem_children (lastValue?_mem hvalue))

/-- Where an expression occurs is up to the expression: no other one has its place in the text. -/
theorem Occurs.unique (hstanding : standing.Apart) (h : Occurs around path standing scopes names e)
    (h' : Occurs around path standing scopes' names' e) : scopes' = scopes ∧ names' = names := by
  -- Both ways go through the same members, as the expression is a part of one only.
  induction h with
  | @alone _ _ _ _ _ hsingle h =>
    cases h' with
    | alone _ h' => exact ⟨rfl, h'.names_eq hstanding h⟩
    | spread => exact absurd rfl (hsingle _ _)
    | property => exact absurd rfl (hsingle _ _)
  | @spread around path span members given e names hmem h =>
    cases h' with
    | alone hsingle => exact absurd rfl (hsingle _ _)
    | spread hmem' h' =>
      cases hstanding.eq_of_partOf (f := Member.expr) rfl hmem hmem' h.partOf h'.partOf
      exact ⟨rfl, h'.names_eq (hstanding.child (Member.expr_mem_children hmem)) h⟩
    | property hvalue h' =>
      cases hstanding.eq_of_partOf (f := Member.expr) rfl hmem
        (lastValue?_mem hvalue) h.partOf h'.partOf
  | @property around scopes path key span members value e names hvalue h ih =>
    have hmem := lastValue?_mem hvalue
    cases h' with
    | alone hsingle => exact absurd rfl (hsingle _ _)
    | spread hmem' h' =>
      cases hstanding.eq_of_partOf (f := Member.expr) rfl hmem hmem' h.partOf h'.partOf
    | property hvalue' h' =>
      cases hstanding.eq_of_partOf (f := Member.expr) rfl hmem
        (lastValue?_mem hvalue') h.partOf h'.partOf
      exact ih (hstanding.child (Member.expr_mem_children hmem)) h'

end LazyConfig
