-- Relations between computations that evaluation keeps. Evaluation is put together of a few
-- operations, so a relation that holds of these, and of attempts one after another if it holds of
-- each, holds of evaluation as a whole.
-- Main statements: such a relation holds of what expressions and bindings do at a level, if it
-- holds of the requests for bindings and of evaluation one level further in.
import LazyConfig.Document.Eval

namespace LazyConfig

open Evaluation

/-- A relation between attempts with results of one type. -/
abbrev AttemptRel := (α : Type) → Attempt α → Attempt α → Prop

/-- The relation holds of what evaluation is put together of, with the files of two hosts: attempts
that do nothing, that fail, that ask for a name or a file, and of related ones one after another. -/
structure Composes (Rel : AttemptRel) (host host' : Host) : Prop where
  pure {α : Type} (a : α) : Rel α (pure a) (pure a)
  throw {α : Type} (e : EvalError) : Rel α (throw e) (throw e)
  bind {α β : Type} {x y : Attempt α} {f g : α → Attempt β} :
    Rel α x y → (∀ a, Rel β (f a) (g a)) → Rel β (x >>= f) (y >>= g)
  located {α : Type} {x y : Attempt α} (span : Span) :
    Rel α x y → Rel α (ExceptT.adapt (fun e => e.located span) x)
      (ExceptT.adapt (fun e => e.located span) y)
  contains (path : String) : Rel Bool (Attempt.contains path) (Attempt.contains path)
  loadFile (path : String) : Rel String (Attempt.loadFile host path) (Attempt.loadFile host' path)
  readText (path : String) : Rel String (Attempt.readText host path) (Attempt.readText host' path)
  readBytes (path : String) :
    Rel Bytes (Attempt.readBytes host path) (Attempt.readBytes host' path)

/-- The relation holds of evaluations, however many values the forcing has made. -/
def AttemptRel.OfEvaluations (Rel : AttemptRel) {α : Type} (x y : Evaluation α) : Prop :=
  ∀ count, Rel (α × Nat) (x count) (y count)

/-- Evaluates one level further in, if there is one. -/
def Inner.enter (inner : Inner) : Evaluate := fun frame e =>
  match inner with
  | .ok evaluate => evaluate frame e
  | .error e => throw e

/-- At a level of each host the relation also holds of the requests for bindings, and of evaluation
one level further in. -/
structure HoldsAt (Rel : AttemptRel) (host host' : Host) (left left' : Nat) : Prop
    extends Composes Rel host host' where
  value (path : String) : Rel Value (Attempt.value left path) (Attempt.value left' path)
  inner (frame : Frame) (e : Expr) :
    Rel.OfEvaluations ((innerOf host left).enter frame e) ((innerOf host' left').enter frame e)

variable {Rel : AttemptRel} {host host' : Host} {α β : Type}

/-! ## Inside a forcing -/

namespace Composes

variable (h : Composes Rel host host')

include h

theorem evalPure (a : α) : Rel.OfEvaluations (Pure.pure a) (Pure.pure a) := fun _ => h.pure _

theorem evalThrow (e : EvalError) :
    Rel.OfEvaluations (MonadExcept.throw e : Evaluation α) (MonadExcept.throw e) :=
  fun _ => h.throw e

theorem evalBind {x y : Evaluation α} {f g : α → Evaluation β} (hx : Rel.OfEvaluations x y)
    (hf : ∀ a, Rel.OfEvaluations (f a) (g a)) : Rel.OfEvaluations (x >>= f) (y >>= g) :=
  fun count => h.bind (hx count) fun found => hf found.1 found.2

theorem lift {x y : Attempt α} (hx : Rel α x y) : Rel.OfEvaluations (liftM x) (liftM y) :=
  fun _ => h.bind hx fun _ => h.pure _

theorem locating {x y : Evaluation α} (hx : Rel.OfEvaluations x y) (span : Span) :
    Rel.OfEvaluations (locating span x) (locating span y) := fun count => h.located span (hx count)

theorem fresh (frame : Frame) : Rel.OfEvaluations (fresh frame) (fresh frame) := fun _ => h.pure _

theorem settle (span : Span) (r : Except RuntimeCause α) :
    Rel.OfEvaluations (settle span r) (settle span r) := by
  cases r with
  | ok a => exact h.evalPure a
  | error cause => exact h.evalThrow _

theorem findScoped (name : String) (scopes : List String) :
    Rel (Option String) (findScoped name scopes) (findScoped name scopes) := by
  induction scopes with
  | nil => exact h.pure none
  | cons scope outer ih =>
    unfold LazyConfig.findScoped
    apply h.bind (h.contains _)
    intro found
    split
    · exact h.pure _
    · exact ih

theorem mergeSpread (span : Span) (entries : Object Value) (found : Value) :
    Rel.OfEvaluations (mergeSpread span entries found) (mergeSpread span entries found) := by
  unfold LazyConfig.mergeSpread
  split
  · exact h.evalPure _
  · exact h.evalThrow _

end Composes

namespace HoldsAt

variable {left left' : Nat} (h : HoldsAt Rel host host' left left')

include h

/-! ## Names -/

theorem lookup (frame : Frame) (span : Span) (name : String) :
    Rel.OfEvaluations (lookup left frame span name) (lookup left' frame span name) := by
  unfold LazyConfig.lookup
  split
  · exact h.evalPure _
  apply h.evalBind (h.lift (h.findScoped name frame.scopes))
  intro found
  split
  · exact h.lift (h.value _)
  split
  · exact h.evalBind (h.fresh frame) fun _ => h.evalPure _
  · exact h.evalThrow _

theorem lookupRelative (frame : Frame) (span : Span) (level : Nat) (name : String) :
    Rel.OfEvaluations (lookupRelative left frame span level name)
      (lookupRelative left' frame span level name) := by
  unfold LazyConfig.lookupRelative
  split
  · exact h.evalThrow _
  apply h.evalBind (h.lift (h.contains _))
  intro found
  split
  · exact h.lift (h.value _)
  · exact h.evalThrow _

/-! ## Calls -/

theorem applyBuiltin (b : Builtin) (args : List Value) :
    Rel Value (applyBuiltin host left b args) (applyBuiltin host' left' b args) := by
  unfold LazyConfig.applyBuiltin
  split
  · split
    · exact h.bind (h.loadFile _) h.value
    · exact h.bind (h.readText _) fun _ => h.pure _
    · exact h.bind (h.readBytes _) fun _ => h.pure _
  · exact h.throw _
  · exact h.throw _

theorem applyFunction (frame : Frame) (f : Function) (args : List Value) :
    Rel.OfEvaluations (applyFunction host left (innerOf host left) frame f args)
      (applyFunction host' left' (innerOf host' left') frame f args) := by
  unfold LazyConfig.applyFunction
  cases f with
  | host name => exact h.evalThrow _
  | builtin b => exact h.lift (h.applyBuiltin b args)
  | lambda params body scopes env =>
    dsimp only
    split
    · exact h.evalThrow _
    · exact h.inner _ body

/-! ## Expressions -/

mutual

theorem eval (frame : Frame) : (e : Expr) →
    Rel.OfEvaluations (eval host left (innerOf host left) frame e)
      (eval host' left' (innerOf host' left') frame e)
  | .number span text => h.settle span _
  | .string _ _ | .boolean _ _ | .null _ => h.evalPure _
  | .blob span form text => h.settle span _
  | .identifier span name => h.lookup frame span name
  | .relative span level name => h.lookupRelative frame span level name
  | .array _ elements => by
    unfold LazyConfig.eval
    apply h.evalBind (evalList frame elements)
    exact fun _ => h.evalBind (h.fresh frame) fun _ => h.evalPure _
  | .object _ members => by
    unfold LazyConfig.eval
    apply h.evalBind (evalMembers frame members [])
    exact fun _ => h.evalBind (h.fresh frame) fun _ => h.evalPure _
  | .call span callee args => by
    unfold LazyConfig.eval
    apply h.evalBind (eval frame callee)
    intro found
    split
    · apply h.evalBind (evalList frame args)
      exact fun values => h.locating (h.applyFunction frame _ values) span
    · exact h.evalThrow _
  | .lambda _ params body => h.evalBind (h.fresh frame) fun _ => h.evalPure _
  | .binary span op l r => by
    unfold LazyConfig.eval
    apply h.evalBind (eval frame l)
    intro a
    split
    · exact h.evalPure a
    apply h.evalBind (eval frame r)
    exact fun b => h.evalBind (h.fresh frame) fun _ => h.settle span _
  | .unary span op e => h.evalBind (eval frame e) fun _ => h.settle span _

theorem evalList (frame : Frame) : (es : List Expr) →
    Rel.OfEvaluations (evalList host left (innerOf host left) frame es)
      (evalList host' left' (innerOf host' left') frame es)
  | [] => h.evalPure []
  | e :: es => h.evalBind (eval frame e) fun _ =>
    h.evalBind (evalList frame es) fun _ => h.evalPure _

theorem evalMembers (frame : Frame) :
    (members : List Member) → (entries : Object Value) →
      Rel.OfEvaluations (evalMembers host left (innerOf host left) frame entries members)
        (evalMembers host' left' (innerOf host' left') frame entries members)
  | [], entries => h.evalPure entries
  | .property key e :: later, entries => h.evalBind (eval frame e) fun v =>
    evalMembers frame later (entries.insert key v)
  | .spread e :: later, entries => h.evalBind (eval frame e) fun found =>
    h.evalBind (h.mergeSpread e.span entries found) fun merged => evalMembers frame later merged

end

/-! ## Bindings -/

theorem forceMembers (frame : Frame) (path : String) (members : List Member)
    (entries : Object Value) :
    Rel.OfEvaluations (forceMembers host left (innerOf host left) frame path entries members)
      (forceMembers host' left' (innerOf host' left') frame path entries members) := by
  induction members generalizing entries with
  | nil => exact h.evalPure entries
  | cons m later ih =>
    cases m with
    | property key value =>
      exact h.evalBind (h.lift (h.value _)) fun v => ih (entries.insert key v)
    | spread e =>
      apply h.evalBind (h.eval frame e)
      intro found
      exact h.evalBind (h.mergeSpread e.span entries found) ih

theorem evalTask (b : Suspension) :
    Rel.OfEvaluations (evalTask host left (innerOf host left) b)
      (evalTask host' left' (innerOf host' left') b) := by
  unfold LazyConfig.evalTask
  dsimp only
  split
  · exact h.eval _ _
  · apply h.evalBind (h.forceMembers _ _ _ _)
    exact fun _ => h.evalBind (h.fresh _) fun _ => h.evalPure _

/-! ## The next level -/

/-- One level further out, it holds of what bindings do. -/
theorem behaviour (b : Suspension) :
    Rel Value (behaviour host b (left + 1)) (behaviour host' b (left' + 1)) :=
  h.bind (h.evalTask b 0) fun _ => h.pure _

/-- One level further out, this level is the one inside. -/
theorem inside (frame : Frame) (e : Expr) :
    Rel.OfEvaluations ((innerOf host (left + 1)).enter frame e)
      ((innerOf host' (left' + 1)).enter frame e) := by
  show Rel.OfEvaluations (evaluator host left frame e) (evaluator host' left' frame e)
  rw [evaluator_eq, evaluator_eq]
  exact h.eval frame e

end HoldsAt

end LazyConfig
