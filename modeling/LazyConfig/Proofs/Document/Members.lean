-- Object literals, member by member. A property provides one entry, a spread those of the object
-- that it evaluates to, and the entries of the object are all of these one after another. In
-- property position the values of the properties are asked for by their paths, and elsewhere their
-- expressions are evaluated in place; there is no other difference.
-- Main statements: what the members of a literal provided when it was evaluated, and that a
-- property in property position provided the value that its binding keeps.
import LazyConfig.Proofs.Document.Stages
import LazyConfig.Proofs.Engine.History
import LazyConfig.Proofs.Value.Objects

namespace LazyConfig

open Store Evaluation

/-- The entries that an object gets from one of its members. -/
abbrev Part := List (String × Value)

/-- What a member provides, with the value that it was found to have. -/
def Member.part? : Member → Value → Option Part
  | .property key _, v => some [(key, v)]
  | .spread _, v => v.object?

/-- The object that the parts make up: each key once, where the first part with the key has it, with
the value that the last one gives it. -/
structure MadeOf (entries : Object Value) (parts : List Part) : Prop where
  keys : entries.keys = (parts.flatMap Object.keys).eraseDups
  values : ∀ key, entries.get? key = lastUnder? key parts.flatten

theorem madeOf_ofEntries (parts : List Part) : MadeOf (Object.ofEntries parts.flatten) parts := by
  have hkeys : parts.flatMap Object.keys = parts.flatten.map Prod.fst := by
    rw [List.map_flatten, List.flatMap]
    rfl
  exact ⟨hkeys ▸ Object.keys_ofEntries _, fun key => Object.get?_ofEntries key _⟩

/-! ## Both kinds of literals -/

/-- The entries with those that a member provides, when `ask` finds the value of a member. -/
def mergeMember (ask : Member → Evaluation Value) (entries : Object Value) :
    Member → Evaluation (Object Value)
  | .property key e => do return entries.insert key (← ask (.property key e))
  | .spread e => do mergeSpread e.span entries (← ask (.spread e))

/-- The entries with those that members provide, one after another. -/
def mergeMembers (ask : Member → Evaluation Value) (entries : Object Value) :
    List Member → Evaluation (Object Value)
  | [] => pure entries
  | m :: later => do mergeMembers ask (← mergeMember ask entries m) later

/-- Finds the value of a member by evaluating its expression. -/
def askInPlace (host : Host) (left : Nat) (frame : Frame) (m : Member) : Evaluation Value :=
  eval host left (innerOf host left) frame m.expr

/-- Finds the value of a property below a path by asking for its binding, and that of a spread by
evaluating its expression. -/
def askBelow (host : Host) (left : Nat) (frame : Frame) (path : String) : Member → Evaluation Value
  | .property key _ => Attempt.value left (childPath path key)
  | .spread e => eval host left (innerOf host left) frame e

variable {host : Host} {left : Nat} {frame : Frame} {path : String}

theorem evalMembers_eq (members : List Member) (entries : Object Value) :
    evalMembers host left (innerOf host left) frame entries members =
      mergeMembers (askInPlace host left frame) entries members := by
  induction members generalizing entries with
  | nil => rw [evalMembers, mergeMembers]
  | cons m later ih =>
    cases m with
    | property key e =>
      rw [evalMembers, mergeMembers, mergeMember, askInPlace, Member.expr]
      simp only [ih, bind_assoc, pure_bind]
    | spread e =>
      rw [evalMembers, mergeMembers, mergeMember, askInPlace, Member.expr]
      simp only [ih, bind_assoc]

theorem forceMembers_eq (members : List Member) (entries : Object Value) :
    forceMembers host left (innerOf host left) frame path entries members =
      mergeMembers (askBelow host left frame path) entries members := by
  induction members generalizing entries with
  | nil => rw [forceMembers, mergeMembers]
  | cons m later ih =>
    cases m with
    | property key e =>
      rw [forceMembers, mergeMembers, mergeMember, askBelow]
      simp only [ih, bind_assoc, pure_bind]
    | spread e =>
      rw [forceMembers, mergeMembers, mergeMember, askBelow]
      simp only [ih, bind_assoc]

section

variable {ask : Member → Evaluation Value} {entries merged : Object Value} {p p' : Stage}

/-- A member that is found to have a value adds what it provides with it. -/
theorem succeeds_mergeMember {m : Member} : Succeeds host (mergeMember ask entries m) p merged p' ↔
    ∃ v part, Succeeds host (ask m) p v p' ∧ m.part? v = some part ∧
      merged = entries.extend part := by
  cases m with
  | property key e =>
    constructor
    · intro h
      obtain ⟨v, _, hfound, hmerged⟩ := succeeds_bind.mp h
      obtain ⟨rfl, rfl⟩ := succeeds_pure.mp hmerged
      exact ⟨v, _, hfound, rfl, rfl⟩
    · rintro ⟨v, part, hfound, hpart, rfl⟩
      cases hpart
      exact succeeds_bind.mpr ⟨v, p', hfound, succeeds_pure.mpr ⟨rfl, rfl⟩⟩
  | spread e =>
    constructor
    · intro h
      obtain ⟨v, _, hfound, hmerged⟩ := succeeds_bind.mp h
      obtain ⟨part, hpart, rfl, rfl⟩ := succeeds_mergeSpread.mp hmerged
      exact ⟨v, part, hfound, hpart, rfl⟩
    · rintro ⟨v, part, hfound, hpart, rfl⟩
      exact succeeds_bind.mpr ⟨v, p', hfound, succeeds_mergeSpread.mpr ⟨part, hpart, rfl, rfl⟩⟩

/-- A member fails as the search for its value does, or is the spread of a value that is no
object. -/
theorem fails_mergeMember {m : Member} {e : EvalError} :
    Fails host (mergeMember ask entries m) p e ↔ Fails host (ask m) p e ∨
      ∃ inside v p', m = .spread inside ∧ Succeeds host (ask m) p v p' ∧ v.object? = none ∧
        e = .runtime ⟨.typeMismatch (.spread v.typeName), some inside.span⟩ := by
  cases m with
  | property key value =>
    rw [mergeMember, fails_bind]
    simp [not_fails_pure]
  | spread inside =>
    rw [mergeMember, fails_bind]
    refine or_congr_right ⟨?_, ?_⟩
    · rintro ⟨v, p', hfound, hspread⟩
      exact ⟨inside, v, p', rfl, hfound, fails_mergeSpread.mp hspread⟩
    · rintro ⟨_, v, p', heq, hfound, hspread⟩
      cases heq
      exact ⟨v, p', hfound, fails_mergeSpread.mpr hspread⟩

end

/-! ## What the members provided -/

/-- From one stage to another the members, one after another, are found to have values that provide
these parts. -/
inductive Provides (host : Host) (ask : Member → Evaluation Value) :
    Stage → List Member → List Part → Stage → Prop
  | nil {p} : Provides host ask p [] [] p
  | cons {m later v part parts p p' p''} (hfound : Succeeds host (ask m) p v p')
      (hpart : m.part? v = some part) (hlater : Provides host ask p' later parts p'') :
      Provides host ask p (m :: later) (part :: parts) p''

/-- Members that were merged over entries have added the parts that they provided. -/
theorem provides_of_mergeMembers {ask : Member → Evaluation Value} (members : List Member)
    {entries merged : Object Value} {p p' : Stage}
    (h : Succeeds host (mergeMembers ask entries members) p merged p') :
    ∃ parts, Provides host ask p members parts p' ∧ merged = entries.extend parts.flatten := by
  induction members generalizing entries p with
  | nil =>
    obtain ⟨rfl, rfl⟩ := succeeds_pure.mp h
    exact ⟨[], .nil, rfl⟩
  | cons m later ih =>
    obtain ⟨joined, _, hmember, hlater⟩ := succeeds_bind.mp h
    obtain ⟨v, part, hfound, hpart, rfl⟩ := succeeds_mergeMember.mp hmember
    obtain ⟨parts, hprovides, rfl⟩ := ih hlater
    refine ⟨part :: parts, .cons hfound hpart hprovides, ?_⟩
    rw [List.flatten_cons, Object.extend_append]

/-- An object literal that is evaluated in place has the entries that its members provide. -/
theorem provides_of_eval {span : Span} {members : List Member} {v : Value} {p p' : Stage}
    (h : Succeeds host (eval host left (innerOf host left) frame (.object span members)) p v p') :
    ∃ s made parts, p' = ⟨s, made + 1⟩ ∧
      Provides host (askInPlace host left frame) p members parts ⟨s, made⟩ ∧
        v = .object ⟨frame.owner, made⟩ (Object.ofEntries parts.flatten) := by
  rw [eval, evalMembers_eq] at h
  obtain ⟨merged, ⟨s, made⟩, hmembers, hobject⟩ := succeeds_bind.mp h
  obtain ⟨id, _, hfresh, hv⟩ := succeeds_bind.mp hobject
  obtain ⟨rfl, rfl⟩ := succeeds_fresh.mp hfresh
  obtain ⟨rfl, rfl⟩ := succeeds_pure.mp hv
  obtain ⟨parts, hprovides, rfl⟩ := provides_of_mergeMembers members hmembers
  exact ⟨s, made, parts, rfl, hprovides, rfl⟩

/-- So has one in property position, when its binding is forced. -/
theorem provides_of_behaviour {b : Suspension} {members : List Member}
    (htask : b.task = .members members) {context : Nat} {v : Value} {s s' : Store Suspension}
    (h : s.exec (behaviour host) (behaviour host b context) = (.ok v, s')) :
    ∃ left made parts, context = left + 1 ∧
      Provides host (askBelow host left ⟨b.path, b.scopes, []⟩ b.path) ⟨s, 0⟩ members parts
        ⟨s', made⟩ ∧ v = .object ⟨b.path, made⟩ (Object.ofEntries parts.flatten) := by
  cases context with
  | zero => cases h
  | succ left =>
    obtain ⟨_, hbody⟩ := succeeds_body.mp h
    unfold evalTask at hbody
    rw [htask] at hbody
    dsimp only at hbody
    rw [forceMembers_eq] at hbody
    obtain ⟨merged, ⟨s₁, made⟩, hmembers, hobject⟩ := succeeds_bind.mp hbody
    obtain ⟨id, _, hfresh, hv⟩ := succeeds_bind.mp hobject
    obtain ⟨rfl, rfl⟩ := succeeds_fresh.mp hfresh
    obtain ⟨rfl, heq⟩ := succeeds_pure.mp hv
    cases heq
    obtain ⟨parts, hprovides, rfl⟩ := provides_of_mergeMembers members hmembers
    exact ⟨left, made, parts, rfl, hprovides, rfl⟩

/-! ## In property position -/

/-- A member that was found to have a value in property position: if it is a property, its binding
keeps the value. -/
def Member.AgreesBelow (s : Store Suspension) (path : String) (m : Member) (part : Part) : Prop :=
  ∀ key e, m = .property key e →
    ∃ v, part = [(key, v)] ∧ s.state? (childPath path key) = some (.evaluated v)

theorem Member.AgreesBelow.later {s s' : Store Suspension} {m : Member} {part : Part}
    (h : m.AgreesBelow s path part) (hext : s.Extends s') : m.AgreesBelow s' path part := by
  intro key e hm
  obtain ⟨v, hpart, hv⟩ := h key e hm
  exact ⟨v, hpart, hext.value _ v hv⟩

theorem Provides.agree {p p' : Stage} {members : List Member} {parts : List Part}
    (h : Provides host (askBelow host left frame path) p members parts p') {active : List String}
    (hp : Disciplined p.store active) :
    p.store.Extends p'.store ∧ List.Forall₂ (Member.AgreesBelow p'.store path) members parts := by
  induction h with
  | nil => exact ⟨.refl _, .nil⟩
  | @cons m later v part parts p p₁ p₂ hfound hpart hlater ih =>
    obtain ⟨hdisc, hext⟩ :=
      disciplined_exec (behaviour host) (askBelow host left frame path m p.made).run hp
    rw [hfound] at hdisc hext
    obtain ⟨hext', hagree⟩ := ih hdisc
    refine ⟨hext.trans hext', .cons ?_ hagree⟩
    refine Member.AgreesBelow.later ?_ hext'
    rintro key e rfl
    exact ⟨v, (Option.some.inj hpart).symm, state?_of_value_ok hp (succeeds_value.mp hfound).1⟩

end LazyConfig
