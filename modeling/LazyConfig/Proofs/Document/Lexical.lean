-- Where expressions stand in a document: which object literals are around them, from the inside
-- out. Paths are only names for these literals, and they are good names if no key holds a dot: then
-- a literal declares a key exactly if the path of the literal and the key is bound.
-- Main statements: the bindings of a document are those of the expressions that stand in it, and
-- what is bound below the path of a scope is declared in the scope.
import LazyConfig.Proofs.Document.Paths
import Mathlib.Data.List.Nodup

namespace LazyConfig

/-! ## Scopes -/

/-- The value of a key. Of properties with one key the last counts. -/
def lastValue? (key : String) : List Member → Option Expr
  | [] => none
  | .property key' value :: later =>
    (lastValue? key later).or (if key' = key then some value else none)
  | .spread _ :: later => lastValue? key later

/-- A scope: an object literal in property position, by its path and its members. A root that is no
object literal is a scope without members. -/
structure Scope where
  path : String
  members : List Member

namespace Scope

/-- The value of the property of the scope with a key. -/
def property? (scope : Scope) (key : String) : Option Expr := lastValue? key scope.members

/-- Whether the scope has a property with the key. -/
def declares (scope : Scope) (key : String) : Bool := (scope.property? key).isSome

end Scope

/-- In the document with a name and a root the expression stands in property position, at a path and
inside of object literals, the innermost first. -/
inductive Stands (name : String) (root : Expr) : List Scope → String → Expr → Prop
  | root : Stands name root [] name root
  | property {around : List Scope} {path key : String} {span : Span} {members : List Member}
      {value : Expr} (h : Stands name root around path (.object span members))
      (hvalue : lastValue? key members = some value) :
      Stands name root (⟨path, members⟩ :: around) (childPath path key) value

/-- The scopes that an expression at a path is evaluated in. -/
def scopesAt (around : List Scope) (path : String) : Expr → List Scope
  | .object _ members => ⟨path, members⟩ :: around
  | _ => if around.isEmpty then [⟨path, []⟩] else around

/-- What the binding of an expression evaluates. -/
def Expr.task : Expr → Task
  | .object _ members => .members members
  | e => .expression e

/-- The binding of an expression at a path. -/
def suspensionAt (around : List Scope) (path : String) (e : Expr) : Suspension :=
  ⟨path, (scopesAt around path e).map (·.path), e.task⟩

/-! ## Bindings are of expressions that stand in the document -/

theorem lastValue?_append (key : String) (before later : List Member) :
    lastValue? key (before ++ later) = (lastValue? key later).or (lastValue? key before) := by
  induction before with
  | nil => simp [lastValue?]
  | cons m before ih =>
    cases m with
    | property key' value => rw [List.cons_append, lastValue?, ih, lastValue?, Option.or_assoc]
    | spread e => exact ih

theorem lastValue?_eq_none {key : String} {later : List Member} :
    lastValue? key later = none ↔ isOverridden key later = false := by
  induction later with
  | nil => simp [lastValue?, isOverridden]
  | cons m later ih =>
    cases m with
    | property key' value =>
      rw [lastValue?, Option.or_eq_none_iff, ih]
      by_cases h : key' = key <;> simp [h, Member.key?, isOverridden]
    | spread e =>
      rw [lastValue?, ih]
      simp [isOverridden, Member.key?]

variable {name : String} {root : Expr} {around : List Scope} {path : String}

/-- An object literal comes before the bindings of its properties. -/
theorem bindingsAt_object (around : List Scope) (path : String) (span : Span)
    (members : List Member) :
    bindingsAt (around.map (·.path)) path (.object span members) =
      suspensionAt around path (.object span members) ::
        memberBindings (path :: around.map (·.path)) path members := by
  rw [bindingsAt]
  rfl

/-- Any other expression is the only binding at its path. -/
theorem bindingsAt_single (around : List Scope) (path : String) {e : Expr}
    (h : ∀ span members, e ≠ .object span members) :
    bindingsAt (around.map (·.path)) path e = [suspensionAt around path e] := by
  have hscopes : (if (around.map (·.path)).isEmpty then [path] else around.map (·.path)) =
      (if around.isEmpty then [⟨path, []⟩] else around : List Scope).map (·.path) := by
    cases around <;> rfl
  cases e with
  | object span members => exact absurd rfl (h span members)
  | _ =>
    simp only [bindingsAt, hscopes]
    rfl

theorem suspensionAt_mem (around : List Scope) (path : String) (e : Expr) :
    suspensionAt around path e ∈ bindingsAt (around.map (·.path)) path e := by
  cases e with
  | object span members =>
    rw [bindingsAt_object]
    exact List.mem_cons_self
  | _ =>
    rw [bindingsAt_single around path (by simp)]
    exact List.mem_cons_self

/-- The bindings of the last property with a key are among those of the members. -/
theorem bindingsAt_subset (scopes : List String) (path : String) {key : String} {value : Expr} :
    {members : List Member} → lastValue? key members = some value →
      bindingsAt scopes (childPath path key) value ⊆ memberBindings scopes path members
  | [], h => by cases h
  | .spread _ :: later, h => by
    rw [memberBindings]
    exact bindingsAt_subset scopes path h
  | .property key' value' :: later, h => by
    rw [lastValue?, Option.or_eq_some_iff] at h
    rw [memberBindings]
    rcases h with h | ⟨hlater, hvalue⟩
    · have hmore := bindingsAt_subset scopes path h
      split
      · exact hmore
      · exact fun b hb => List.mem_append_right _ (hmore hb)
    · by_cases hkey : key' = key
      · subst hkey
        rw [if_pos rfl, Option.some.injEq] at hvalue
        rw [if_neg (by simp [lastValue?_eq_none.mp hlater]), hvalue]
        exact fun b hb => List.mem_append_left _ hb
      · rw [if_neg hkey] at hvalue
        cases hvalue

/-- All bindings at the path of an expression that stands in the document are of the document. -/
theorem Stands.bindings_subset {e : Expr} (h : Stands name root around path e) :
    bindingsAt (around.map (·.path)) path e ⊆ documentBindings name root := by
  induction h with
  | root => exact fun b hb => hb
  | @property around path key span members value h hvalue ih =>
    rw [bindingsAt_object] at ih
    exact fun b hb => ih (List.mem_cons_of_mem _ (bindingsAt_subset _ _ hvalue hb))

theorem Stands.mem {e : Expr} (h : Stands name root around path e) :
    suspensionAt around path e ∈ documentBindings name root :=
  h.bindings_subset (suspensionAt_mem around path e)

mutual

theorem exists_stands : (e : Expr) → {around : List Scope} → {path : String} →
    Stands name root around path e → ∀ b ∈ bindingsAt (around.map (·.path)) path e,
      ∃ around' path' e', Stands name root around' path' e' ∧ b = suspensionAt around' path' e'
  | .object span members, around, path, h, b, hb => by
    rw [bindingsAt_object] at hb
    rcases List.mem_cons.mp hb with rfl | hb
    · exact ⟨around, path, _, h, rfl⟩
    · exact exists_stands_member [] members h b hb
  | .number .., around, path, h, b, hb | .string .., around, path, h, b, hb
  | .boolean .., around, path, h, b, hb | .null .., around, path, h, b, hb
  | .blob .., around, path, h, b, hb | .identifier .., around, path, h, b, hb
  | .relative .., around, path, h, b, hb | .array .., around, path, h, b, hb
  | .call .., around, path, h, b, hb | .lambda .., around, path, h, b, hb
  | .binary .., around, path, h, b, hb | .unary .., around, path, h, b, hb => by
    rw [bindingsAt_single around path (by simp), List.mem_singleton] at hb
    exact ⟨around, path, _, h, hb⟩

theorem exists_stands_member (before : List Member) : (later : List Member) →
    {around : List Scope} → {path : String} → {span : Span} →
      Stands name root around path (.object span (before ++ later)) →
        ∀ b ∈ memberBindings (path :: around.map (·.path)) path later,
          ∃ around' path' e', Stands name root around' path' e' ∧ b = suspensionAt around' path' e'
  | [], _, _, _, _, b, hb => by simp [memberBindings] at hb
  | .spread e :: later, around, path, span, h, b, hb => by
    rw [memberBindings] at hb
    rw [List.append_cons] at h
    exact exists_stands_member (before ++ [.spread e]) later h b hb
  | .property key value :: later, around, path, span, h, b, hb => by
    rw [memberBindings] at hb
    have hlater := fun hb => exists_stands_member (before ++ [.property key value]) later
      (List.append_cons before _ later ▸ h) b hb
    split at hb
    · exact hlater hb
    · next hover =>
      rcases List.mem_append.mp hb with hb | hb
      · have hnone := lastValue?_eq_none.mpr (Bool.not_eq_true _ ▸ hover)
        have hvalue : lastValue? key (before ++ .property key value :: later) = some value := by
          rw [lastValue?_append, lastValue?, hnone]
          simp
        exact exists_stands value (h.property hvalue) b hb
      · exact hlater hb

end

/-- Each binding of a document is of an expression that stands in it. -/
theorem exists_stands_of_mem {b : Suspension} (h : b ∈ documentBindings name root) :
    ∃ around path e, Stands name root around path e ∧ b = suspensionAt around path e :=
  exists_stands root .root b h

/-! ## Keys without dots -/

mutual

/-- No key of an object literal in property position holds a dot. -/
def Expr.DotFree : Expr → Prop
  | .object _ members => Member.AllDotFree members
  | _ => True

def Member.AllDotFree : List Member → Prop
  | [] => True
  | .property key value :: later =>
    '.' ∉ key.toList ∧ value.DotFree ∧ Member.AllDotFree later
  | .spread _ :: later => Member.AllDotFree later

end

theorem Member.AllDotFree.of_lastValue? {members : List Member} (h : Member.AllDotFree members)
    {key : String} {value : Expr} (hvalue : lastValue? key members = some value) :
    '.' ∉ key.toList ∧ value.DotFree := by
  induction members with
  | nil => cases hvalue
  | cons m later ih =>
    cases m with
    | spread e => exact ih h hvalue
    | property key' value' =>
      obtain ⟨hkey, hfree, hlater⟩ := h
      rw [lastValue?, Option.or_eq_some_iff] at hvalue
      rcases hvalue with hvalue | ⟨_, hvalue⟩
      · exact ih hlater hvalue
      · by_cases hsame : key' = key
        · rw [if_pos hsame, Option.some.injEq] at hvalue
          exact ⟨hsame ▸ hkey, hvalue ▸ hfree⟩
        · rw [if_neg hsame] at hvalue
          cases hvalue

theorem Stands.dotFree {e : Expr} (h : Stands name root around path e) (hroot : root.DotFree) :
    e.DotFree := by
  induction h with
  | root => exact hroot
  | property h hvalue ih => exact (ih.of_lastValue? hvalue).2

/-- A path is split in one way, if the keys hold no dots. -/
theorem childPath_inj {path' key key' : String} (hkey : '.' ∉ key.toList)
    (hkey' : '.' ∉ key'.toList) (h : childPath path key = childPath path' key') :
    path = path' ∧ key = key' := by
  have hlists : path.toList ++ '.' :: key.toList = path'.toList ++ '.' :: key'.toList := by
    rw [← toList_childPath, ← toList_childPath, h]
  have hsplit : ∀ (more : List Char) {k k' : List Char}, '.' ∉ k → '.' :: k = more ++ '.' :: k' →
      more = [] ∧ k = k' := by
    intro more k k' hk heq
    cases more with
    | nil => exact ⟨rfl, (List.cons.inj heq).2⟩
    | cons c more =>
      rw [List.cons_append, List.cons.injEq] at heq
      rw [heq.2] at hk
      simp at hk
  rcases List.append_eq_append_iff.mp hlists with ⟨more, hpath, hrest⟩ | ⟨more, hpath, hrest⟩
  · obtain ⟨rfl, heq⟩ := hsplit more hkey hrest
    rw [List.append_nil] at hpath
    exact ⟨String.toList_inj.mp hpath.symm, String.toList_inj.mp heq⟩
  · obtain ⟨rfl, heq⟩ := hsplit more hkey' hrest
    rw [List.append_nil] at hpath
    exact ⟨String.toList_inj.mp hpath, (String.toList_inj.mp heq).symm⟩

/-! ## What is bound below a scope -/

/-- No path goes on after itself. -/
theorem Below.child_ne (h : Below name path) (key : String) : name ≠ childPath path key := by
  intro heq
  have hlength := congrArg (fun s => s.toList.length) heq
  simp only [toList_childPath, List.length_append, List.length_cons] at hlength
  rcases h with rfl | ⟨rest, rfl⟩
  · omega
  · simp only [toList_childPath, List.length_append, List.length_cons] at hlength
    omega

/-- Each object literal around stands in the document, inside of those from the next one on. -/
theorem Stands.outer {e : Expr} (h : Stands name root around path e) {front outer : List Scope}
    {scope : Scope} (hsplit : around = front ++ scope :: outer) :
    ∃ span, Stands name root outer scope.path (.object span scope.members) := by
  induction h generalizing front with
  | root => simp at hsplit
  | @property around path key span members value h hvalue ih =>
    cases front with
    | nil =>
      obtain ⟨rfl, rfl⟩ := List.cons.inj hsplit
      exact ⟨span, h⟩
    | cons first front => exact ih (List.cons.inj hsplit).2

/-- The scopes of an expression are object literals that stand in the document, or the root
alone. -/
theorem Stands.scopes {e : Expr} (h : Stands name root around path e) {front outer : List Scope}
    {scope : Scope} (hsplit : scopesAt around path e = front ++ scope :: outer) :
    (∃ span, Stands name root outer scope.path (.object span scope.members)) ∨
      scope = ⟨path, []⟩ ∧ ∀ span members, e ≠ .object span members := by
  unfold scopesAt at hsplit
  split at hsplit
  · next span members =>
    cases front with
    | nil =>
      obtain ⟨rfl, rfl⟩ := List.cons.inj hsplit
      exact .inl ⟨span, h⟩
    | cons first front => exact .inl (h.outer (List.cons.inj hsplit).2)
  · next hsingle =>
    split at hsplit
    · refine .inr ⟨?_, hsingle⟩
      have hmem : scope ∈ [⟨path, []⟩] := hsplit ▸ by simp
      exact List.mem_singleton.mp hmem
    · exact .inl (h.outer hsplit)

theorem Stands.eq_of_path {around' : List Scope} {e e' : Expr}
    (hnodup : ((documentBindings name root).map (·.path)).Nodup)
    (h : Stands name root around path e) (h' : Stands name root around' path e') :
    e.task = e'.task :=
  congrArg Suspension.task (List.inj_on_of_nodup_map hnodup h.mem h'.mem rfl)

/-- What is bound below the path of a scope, the scope declares. -/
theorem Stands.declares_of_bound {e : Expr} (h : Stands name root around path e)
    (hnodup : ((documentBindings name root).map (·.path)).Nodup) (hdots : root.DotFree)
    {scope : Scope} (hscope : scope ∈ scopesAt around path e) {key : String}
    (hkey : '.' ∉ key.toList) {b : Suspension} (hb : b ∈ documentBindings name root)
    (hpath : b.path = childPath scope.path key) : scope.declares key = true := by
  have hbelow : Below name scope.path :=
    (within_documentBindings h.mem).scopes scope.path (List.mem_map_of_mem hscope)
  obtain ⟨around', path', e', h', rfl⟩ := exists_stands_of_mem hb
  cases h' with
  | root => exact absurd hpath (hbelow.child_ne key)
  | property hliteral hvalue =>
    have hdot := ((hliteral.dotFree hdots).of_lastValue? hvalue).1
    obtain ⟨rfl, rfl⟩ := childPath_inj hdot hkey hpath
    -- The literal at the path of the scope is the scope itself.
    obtain ⟨front, outer, hsplit⟩ := List.append_of_mem hscope
    rcases h.scopes hsplit with ⟨span', hscope'⟩ | ⟨rfl, hsingle⟩
    · have htask := hliteral.eq_of_path hnodup hscope'
      cases htask
      exact Option.isSome_iff_exists.mpr ⟨_, hvalue⟩
    · have htask := hliteral.eq_of_path hnodup h
      cases e with
      | object span members => exact absurd rfl (hsingle span members)
      | _ => cases htask

/-- What a scope declares is bound below its path, to what it says. -/
theorem Stands.mem_of_property {e : Expr} (h : Stands name root around path e)
    {front outer : List Scope} {scope : Scope}
    (hsplit : scopesAt around path e = front ++ scope :: outer) {key : String} {value : Expr}
    (hvalue : scope.property? key = some value) :
    suspensionAt (scope :: outer)
      (childPath scope.path key) value ∈ documentBindings name root := by
  rcases h.scopes hsplit with ⟨span, hliteral⟩ | ⟨rfl, -⟩
  · exact (hliteral.property hvalue).mem
  · cases hvalue

end LazyConfig
