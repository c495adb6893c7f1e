-- What expressions evaluate to. Names are looked up among the parameters of lambdas, then in
-- the scopes from the inside out, then among the builtins. Operands are evaluated left to
-- right, and the first error ends it all.
-- Main statements: a level evaluates expressions over what is one level further in, and a
-- binding that is asked for without levels left is refused.
import LazyConfig.Document.Loading
import LazyConfig.Engine.Store
import LazyConfig.Value.Literal
import LazyConfig.Value.Operation

namespace LazyConfig

/-- An evaluation inside the forcing of one binding, with a count of the compound values that
the forcing has made. -/
abbrev Evaluation := StateT Nat Attempt

/-- Where an expression stands: the binding that is forced, the scopes around the expression by
their paths, innermost first, and the arguments of the lambdas around it, innermost first. -/
structure Frame where
  owner : String
  scopes : List String
  env : List (String × Value)

namespace Evaluation

variable {α : Type}

/-- The identity of a new compound value. -/
def fresh (frame : Frame) : Evaluation Identity :=
  fun count => pure (⟨frame.owner, count⟩, count + 1)

/-- Fails at a place. -/
def fail (span : Span) (cause : RuntimeCause) : Evaluation α :=
  throw (.runtime ⟨cause, some span⟩)

/-- A result of an operation at a place. -/
def settle (span : Span) : Except RuntimeCause α → Evaluation α
  | .ok a => pure a
  | .error cause => fail span cause

/-- Gives a place to errors that have none. -/
def locating (span : Span) (x : Evaluation α) : Evaluation α := fun count =>
  ExceptT.adapt (fun e => e.located span) (x count)

end Evaluation

open Evaluation

/-! ## Names -/

/-- The path of a name in the first of the scopes that binds it. -/
def findScoped (name : String) : List String → Attempt (Option String)
  | [] => pure none
  | scope :: outer => do
    if ← Attempt.contains (childPath scope name) then pure (some (childPath scope name))
    else findScoped name outer

/-- The value of a name. Each mention of a builtin is a function of its own. -/
def lookup (left : Nat) (frame : Frame) (span : Span) (name : String) : Evaluation Value := do
  match frame.env.lookup name with
  | some v => pure v
  | none =>
    match ← findScoped name frame.scopes with
    | some path => Attempt.value left path
    | none =>
      match Builtin.ofName? name with
      | some b => return .function (← fresh frame) (.builtin b)
      | none => fail span (.unknownName name)

/-- The value of a name in the scope `level` scopes out, and in no other. -/
def lookupRelative (left : Nat) (frame : Frame) (span : Span) (level : Nat) (name : String) :
    Evaluation Value := do
  match frame.scopes[level]? with
  | none => fail span (.scopeOutOfRange level name)
  | some scope =>
    if ← Attempt.contains (childPath scope name) then Attempt.value left (childPath scope name)
    else fail span (.unknownName name)

/-! ## Calls -/

/-- Evaluates an expression in a frame. -/
abbrev Evaluate := Frame → Expr → Evaluation Value

/-- The evaluation one level further in, or why there is none. -/
abbrev Inner := Except EvalError Evaluate

/-- The value of a builtin for its arguments: one path. -/
def applyBuiltin (host : Host) (left : Nat) (b : Builtin) (args : List Value) : Attempt Value :=
  match args with
  | [.string path] =>
    match b with
    | .document => do Attempt.value left (← Attempt.loadFile host path)
    | .text => do return .string (← Attempt.readText host path)
    | .blob => do return .blob (← Attempt.readBytes host path)
  | [other] => throw (.runtime ⟨.typeMismatch (.path b.name other.typeName), none⟩)
  | _ => throw (.runtime ⟨.arity b.name 1 args.length, none⟩)

/-- The value of a function for its arguments. The body of a lambda is evaluated one level
further in, for the binding that calls it. -/
def applyFunction (host : Host) (left : Nat) (inner : Inner) (frame : Frame) (f : Function)
    (args : List Value) : Evaluation Value := do
  match f with
  | .lambda params body scopes env =>
    if args.length ≠ params.length then
      throw (.runtime ⟨.arity f.name params.length args.length, none⟩)
    else
      match inner with
      | .ok evaluate => evaluate ⟨frame.owner, scopes, params.zip args ++ env⟩ body
      | .error e => throw e
  | .builtin b => applyBuiltin host left b args
  | .host _ => throw (.runtime ⟨.notCallable "function", none⟩)

/-! ## Expressions -/

/-- Whether the left operand alone decides an operator. -/
def BinaryOp.decidedBy (op : BinaryOp) (left : Value) : Bool :=
  match op with
  | .and => !left.isTruthy
  | .or => left.isTruthy
  | _ => false

/-- The entries of an object after the spread of a value, which must be an object. -/
def mergeSpread (span : Span) (entries : Object Value) (found : Value) :
    Evaluation (Object Value) :=
  match found with
  | .object _ more => pure (entries.extend more)
  | other => fail span (.typeMismatch (.spread other.typeName))

section

variable (host : Host) (left : Nat) (inner : Inner)

mutual

/-- The value of an expression, with `left` levels inside. -/
def eval (frame : Frame) : Expr → Evaluation Value
  | .number span text => settle span (Value.ofNumber text)
  | .string _ text => pure (.string text)
  | .boolean _ b => pure (.boolean b)
  | .null _ => pure .null
  | .blob span form text => settle span (Value.ofBlob form text)
  | .identifier span name => lookup left frame span name
  | .relative span level name => lookupRelative left frame span level name
  | .array _ elements => do
    let items ← evalList frame elements
    return .array (← fresh frame) items
  | .object _ members => do
    let entries ← evalMembers frame [] members
    return .object (← fresh frame) entries
  | .call span callee args => do
    match ← eval frame callee with
    | .function _ f =>
      let values ← evalList frame args
      locating span (applyFunction host left inner frame f values)
    | other => fail span (.notCallable other.typeName)
  | .lambda _ params body => do
    return .function (← fresh frame) (.lambda params body frame.scopes frame.env)
  | .binary span op l r => do
    let a ← eval frame l
    if op.decidedBy a then pure a
    else
      let b ← eval frame r
      settle span (Value.binary (← fresh frame) op a b)
  | .unary span op e => do settle span (Value.unary op (← eval frame e))

/-- The values of expressions in their order. -/
def evalList (frame : Frame) : List Expr → Evaluation (List Value)
  | [] => pure []
  | e :: es => do
    let v ← eval frame e
    return v :: (← evalList frame es)

/-- The entries of an object literal that is a plain value, over `entries`. -/
def evalMembers (frame : Frame) (entries : Object Value) : List Member →
    Evaluation (Object Value)
  | [] => pure entries
  | .property key e :: later => do
    let v ← eval frame e
    evalMembers frame (entries.insert key v) later
  | .spread e :: later => do
    let found ← eval frame e
    evalMembers frame (← mergeSpread e.span entries found) later

end

/-- The entries of an object literal whose properties are bindings below `path`, over
`entries`. -/
def forceMembers (frame : Frame) (path : String) (entries : Object Value) : List Member →
    Evaluation (Object Value)
  | [] => pure entries
  | .property key _ :: later => do
    let v ← Attempt.value left (childPath path key)
    forceMembers frame path (entries.insert key v) later
  | .spread e :: later => do
    let found ← eval host left inner frame e
    forceMembers frame path (← mergeSpread e.span entries found) later

/-- The value of a suspended task. -/
def evalTask (b : Suspension) : Evaluation Value :=
  let frame : Frame := ⟨b.path, b.scopes, []⟩
  match b.task with
  | .expression e => eval host left inner frame e
  | .members members => do
    let entries ← forceMembers host left inner frame b.path [] members
    return .object (← fresh frame) entries

end

/-! ## Levels -/

/-- The evaluation with `left` levels inside. -/
def evaluator (host : Host) : (left : Nat) → Evaluate
  | 0, frame, e => eval host 0 (.error host.overflow) frame e
  | left + 1, frame, e => eval host (left + 1) (.ok (evaluator host left)) frame e

/-- What is one level further in. -/
def innerOf (host : Host) : (left : Nat) → Inner
  | 0 => .error host.overflow
  | left + 1 => .ok (evaluator host left)

/-- What the bindings of documents do when forced: a forcing is a level of its own. -/
def behaviour (host : Host) : Store.Behaviour Suspension Nat
  | _, 0 => (throw host.overflow : Attempt Value)
  | b, left + 1 => (evalTask host left (innerOf host left) b).run' 0

theorem evaluator_eq (host : Host) (left : Nat) :
    evaluator host left = eval host left (innerOf host left) := by
  cases left <;> rfl

theorem behaviour_zero (host : Host) (b : Suspension) :
    behaviour host b 0 = .done (.error host.overflow) := rfl

end LazyConfig
