-- Evaluation with its nesting in sight. An evaluator that recurs on nothing but fuel, one unit for
-- each activity inside another, and that gives up when the activities under way do not descend by
-- their measure, or when there are more of them than the levels and the tallest document allow.
-- Main definitions: the measure of an activity, and the evaluator.
import LazyConfig.Proofs.Document.Definitions
import LazyConfig.Proofs.Document.Heights
import Mathlib.Data.List.Chain
import Mathlib.Data.Prod.Lex

namespace LazyConfig

open Store Evaluation

variable {α β : Type}

/-! ## Activities -/

/-- The steps that are left, the levels that are left, and the size of the expression, compared in
this order. -/
abbrev Measure := ℕ ×ₗ ℕ ×ₗ ℕ

/-- What may be under way, and with how many levels inside. -/
inductive Activity where
  /-- A request for the value of a binding. -/
  | request (left : Nat) (name : String)
  /-- The body of a binding, from before it takes a level. -/
  | body (left : Nat) (b : Suspension)
  | expression (left : Nat) (frame : Frame) (e : Expr)
  /-- A call of a function, from before it takes a level. -/
  | call (left : Nat) (frame : Frame) (f : Function) (args : List Value)

namespace Activity

def left : Activity → Nat
  | request left _ => left
  | body left _ => left
  | expression left _ _ => left
  | call left _ _ _ => left

/-- The size of the expression. A call is smaller than the expression that makes it. -/
def size : Activity → Nat
  | request _ _ => 0
  | body _ _ => 0
  | expression _ _ e => e.size
  | call _ _ _ _ => 1

def measure (a : Activity) (s : Store Suspension) : Measure :=
  toLex (s.stepsLeft, toLex (a.left, a.size))

/-- The activity in evaluation as it is. -/
def plain (host : Host) : Activity → Evaluation Value
  | request left name => liftM (Attempt.value left name)
  | body 0 _ => throw host.overflow
  | body (left + 1) b => evalTask host left (innerOf host left) b
  | expression left frame e => eval host left (innerOf host left) frame e
  | call left frame f args => applyFunction host left (innerOf host left) frame f args

end Activity

/-! ## Evaluation that may give up -/

/-- An evaluation on a store, with no outcome at all if it gives up. -/
abbrev Watching := StateT Nat (ExceptT EvalError (StateT (Store Suspension) Option))

section

variable (nested : Activity → Watching Value)

/-- Runs a program on a store, with `nested` for its requests. -/
def Program.watch : Program Suspension Nat α → Store Suspension → Option (α × Store Suspension)
  | .done a, s => some (a, s)
  | .define name b next, s => (next (s.define name b).1).watch (s.define name b).2
  | .contains name next, s => (next (s.contains name)).watch s
  | .value left name next, s => do
    let (r, s) ← (nested (.request left name) 0).run.run s
    (next (r.map (·.1))).watch s

/-- An evaluation in which nothing is nested but requests. -/
def Evaluation.watch (x : Evaluation α) : Watching α := fun count =>
  ExceptT.mk ((x count).run.watch nested)

namespace Watching

/-- Gives a place to errors that have none. -/
def locating (span : Span) (x : Watching α) : Watching α := fun count =>
  ExceptT.adapt (fun e => e.located span) (x count)

/-- Forces a binding, unless the request is answered at once. -/
def request (left : Nat) (name : String) : Watching Value := fun count => ExceptT.mk fun s =>
  match s.reply name with
  | .now r => some (r.map (·, count), s)
  | .run b => do
    let (r, s) ← (nested (.body left b) 0).run.run (s.start name)
    let (r, s) := s.finish name (r.map (·.1))
    return (r.map (·, count), s)

/-- The values of expressions in their order. -/
def elements (left : Nat) (frame : Frame) : List Expr → Watching (List Value)
  | [] => pure []
  | e :: es => do
    let v ← nested (.expression left frame e)
    return v :: (← elements left frame es)

/-- The entries of an object literal that is a plain value, over `entries`. -/
def members (left : Nat) (frame : Frame) (entries : Object Value) :
    List Member → Watching (Object Value)
  | [] => pure entries
  | .property key e :: later => do
    let v ← nested (.expression left frame e)
    members left frame (entries.insert key v) later
  | .spread e :: later => do
    let found ← nested (.expression left frame e)
    let merged ← (mergeSpread e.span entries found).watch nested
    members left frame merged later

/-- The entries of an object literal whose properties are bindings below `path`, over `entries`. -/
def properties (left : Nat) (frame : Frame) (path : String) (entries : Object Value) :
    List Member → Watching (Object Value)
  | [] => pure entries
  | .property key _ :: later => do
    let v ← nested (.request left (childPath path key))
    properties left frame path (entries.insert key v) later
  | .spread e :: later => do
    let found ← nested (.expression left frame e)
    let merged ← (mergeSpread e.span entries found).watch nested
    properties left frame path merged later

/-- The body of a binding. -/
def body (left : Nat) (b : Suspension) : Watching Value :=
  let frame : Frame := ⟨b.path, b.scopes, []⟩
  match b.task with
  | .expression e => nested (.expression left frame e)
  | .members ms => do
    let entries ← properties nested left frame b.path [] ms
    let id ← (fresh frame).watch nested
    return .object id entries

/-- The value of an expression, with its parts nested inside. -/
def expression (host : Host) (left : Nat) (frame : Frame) : Expr → Watching Value
  | .array _ es => do
    let items ← elements nested left frame es
    let id ← (fresh frame).watch nested
    return .array id items
  | .object _ ms => do
    let entries ← members nested left frame [] ms
    let id ← (fresh frame).watch nested
    return .object id entries
  | .call span callee args => do
    match ← nested (.expression left frame callee) with
    | .function _ f =>
      let values ← elements nested left frame args
      locating span (nested (.call left frame f values))
    | other => (fail span (.notCallable other.typeName)).watch nested
  | .binary span op l r => do
    let a ← nested (.expression left frame l)
    if op.decidedBy a then pure a
    else
      let b ← nested (.expression left frame r)
      let id ← (fresh frame).watch nested
      (settle span (Value.binary id op a b)).watch nested
  | .unary span op e => do
    let a ← nested (.expression left frame e)
    (settle span (Value.unary op a)).watch nested
  -- Nothing is evaluated inside of what is left: literals, names and lambdas.
  | e => (eval host left (innerOf host left) frame e).watch nested

/-- The value of a function for its arguments. -/
def call (host : Host) (left : Nat) (frame : Frame) (f : Function) (args : List Value) :
    Watching Value :=
  match f with
  | .lambda params body scopes env =>
    if args.length ≠ params.length then
      throw (.runtime ⟨.arity f.name params.length args.length, none⟩)
    else
      match left with
      | 0 => throw host.overflow
      | left + 1 => nested (.expression left ⟨frame.owner, scopes, params.zip args ++ env⟩ body)
  | .builtin b => (liftM (applyBuiltin host left b args) : Evaluation Value).watch nested
  | .host _ => throw (.runtime ⟨.notCallable "function", none⟩)

/-- An activity, with what it needs nested inside. -/
def layer (host : Host) : Activity → Watching Value
  | .request left name => request nested left name
  | .body 0 _ => throw host.overflow
  | .body (left + 1) b => body nested left b
  | .expression left frame e => expression nested host left frame e
  | .call left frame f args => call nested host left frame f args

end Watching

end

/-- The activities under way, the innermost first, get smaller by their measure, and are no more
than the levels and the height of the documents in the store allow. -/
structure Moderate (host : Host) (s : Store Suspension) (underWay : List Measure) : Prop where
  descends : underWay.IsChain (· < ·)
  shallow : underWay.length ≤ (host.maxDepth + 1) * (s.height + 3)

instance (host : Host) (s : Store Suspension) (underWay : List Measure) :
    Decidable (Moderate host s underWay) :=
  decidable_of_iff
    (underWay.IsChain (· < ·) ∧ underWay.length ≤ (host.maxDepth + 1) * (s.height + 3))
    ⟨fun h => ⟨h.1, h.2⟩, fun h => ⟨h.1, h.2⟩⟩

/-- Evaluates an activity inside of others, each nested one with a unit of fuel less. It gives up
when no fuel is left or when too much is under way. -/
def Watching.evaluate (host : Host) : (fuel : Nat) → List Measure → Activity → Watching Value
  | 0, _, _ => fun _ => ExceptT.mk fun _ => none
  | fuel + 1, around, a => fun count => ExceptT.mk fun s =>
    let underWay := a.measure s :: around
    if Moderate host s underWay then
      (layer (evaluate host fuel underWay) host a count).run.run s
    else none

end LazyConfig
