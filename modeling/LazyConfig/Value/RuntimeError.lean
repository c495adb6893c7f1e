-- What can go wrong when an expression is evaluated, and where. An error keeps the first
-- place it is given.
-- Main statement: placing an error again changes nothing.
import LazyConfig.Codec.Blob
import LazyConfig.Source.Operator

namespace LazyConfig

/-- A value of a type that its use does not allow. Types are given by name. -/
inductive Mismatch where
  | operands (op : BinaryOp) (left right : String)
  | negation (operand : String)
  /-- A spread of what is no object. -/
  | spread (found : String)
  /-- A path that is no text. -/
  | path (function found : String)
  deriving DecidableEq, Repr

def Mismatch.text : Mismatch → String
  | operands op left right => s!"cannot apply '{op.symbol}' to {left} and {right}"
  | negation operand => s!"cannot negate {operand}"
  | spread found => s!"spread member must be an object, got {found}"
  | path function found => s!"{function} expects a string path, got {found}"

/-- Why an expression has no value. -/
inductive RuntimeCause where
  | unknownName (name : String)
  /-- A relative name that climbs out of the document. -/
  | scopeOutOfRange (level : Nat) (name : String)
  | typeMismatch (mismatch : Mismatch)
  | divisionByZero
  | overflow
  | invalidNumber (text : String)
  | invalidBlob (error : BlobError)
  | notCallable (found : String)
  | arity (function : String) (expected got : Nat)
  deriving DecidableEq, Repr

def RuntimeCause.text : RuntimeCause → String
  | unknownName name => s!"Unknown name '{name}'"
  | scopeOutOfRange level name =>
    let dots := String.ofList (List.replicate (level + 1) '.')
    s!"Reference '{dots}{name}' climbs above the document root"
  | typeMismatch mismatch => "Type mismatch: " ++ mismatch.text
  | divisionByZero => "Division by zero"
  | overflow => "BigInt overflow"
  | invalidNumber text => s!"Invalid number literal '{text}'"
  | invalidBlob error => "Invalid blob literal: " ++ error.message
  | notCallable found => s!"Value of type {found} is not callable"
  | arity function expected got =>
    s!"Function {function} expects {expected} argument(s), got {got}"

structure RuntimeError where
  cause : RuntimeCause
  span? : Option Span
  deriving DecidableEq, Repr

namespace RuntimeError

/-- The error at a place, unless it has one. -/
def located (e : RuntimeError) (span : Span) : RuntimeError :=
  ⟨e.cause, some (e.span?.getD span)⟩

def message (e : RuntimeError) : String :=
  match e.span? with
  | some span => e.cause.text ++ " at " ++ span.text
  | none => e.cause.text

@[simp] theorem located_located (e : RuntimeError) (inner outer : Span) :
    (e.located inner).located outer = e.located inner := rfl

end RuntimeError

end LazyConfig
