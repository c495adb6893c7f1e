-- What a request for a value can end with instead of one. Quotas are never refilled, so an
-- exhausted one is told apart from an error of the expression itself.
import LazyConfig.Host.Storage
import LazyConfig.Source.Fault
import LazyConfig.Value.RuntimeError

namespace LazyConfig

inductive EvalError where
  | unknownBinding (name : String)
  /-- A binding that needs its own value. -/
  | cycle (name : String)
  | duplicateBinding (name : String)
  /-- All steps are used. -/
  | timeLimit (steps : Nat)
  /-- A result that costs more than is left. -/
  | spaceLimit (needed remaining : Nat)
  /-- Calls and forcings nested too deep. -/
  | stackOverflow (depth limit : Nat)
  | runtime (error : RuntimeError)
  | storage (error : StorageError)
  /-- A file that is no document. -/
  | document (path : String) (error : ParseError)
  deriving DecidableEq, Repr

namespace EvalError

/-- Whether a quota or the depth limit ran out. -/
def isResource : EvalError → Bool
  | timeLimit _ => true
  | spaceLimit _ _ => true
  | stackOverflow _ _ => true
  | _ => false

def message : EvalError → String
  | unknownBinding name => s!"Unknown binding '{name}'"
  | cycle name => s!"Cyclic dependency while evaluating '{name}'"
  | duplicateBinding name => s!"Binding '{name}' is already defined"
  | timeLimit steps => s!"Time limit exceeded: all {steps} evaluation steps used"
  | spaceLimit needed remaining =>
    s!"Space limit exceeded: result needs {needed} units, {remaining} remaining"
  | stackOverflow depth limit =>
    s!"Evaluation stack overflow: depth {depth} exceeds maximum of {limit}"
  | runtime error => error.message
  | storage error => error.message
  | document path error => s!"Failed to parse included '{path}': {error.kind.message}"

/-- A runtime error at a place, unless it has one. Other errors have no place. -/
def located (e : EvalError) (span : Span) : EvalError :=
  match e with
  | runtime error => runtime (error.located span)
  | other => other

@[simp] theorem located_located (e : EvalError) (inner outer : Span) :
    (e.located inner).located outer = e.located inner := by
  cases e <;> rfl

end EvalError

end LazyConfig
