-- What a request to a session ends with instead of an answer, and how it is told: in one text,
-- or, for a source that is no expression, as a diagnostic that points into that source.
import LazyConfig.Engine.Error

namespace LazyConfig

inductive Failure where
  /-- A source that is no expression. -/
  | source (error : ParseError)
  | evaluation (error : EvalError)
  deriving DecidableEq, Repr

/-- What a failure is about. -/
inductive FailureKind where
  /-- A name that is not bound, or is taken. -/
  | usage
  /-- A source text, loaded or included. -/
  | compilation
  /-- An expression. -/
  | runtime
  /-- A quota or the depth limit. -/
  | resource
  | storage
  deriving DecidableEq, Repr

/-- One fault of a source text: where it is in the text, its code and its help. -/
structure Diagnostic where
  message : String
  span : Span
  code : String
  help? : Option String
  source : String
  deriving DecidableEq, Repr

/-- The diagnostic of a source. -/
def ParseError.diagnostic (e : ParseError) : Diagnostic :=
  ⟨e.kind.message, e.span, e.kind.code, e.kind.help?, e.source⟩

def EvalError.failureKind : EvalError → FailureKind
  | unknownBinding _ => .usage
  | duplicateBinding _ => .usage
  | cycle _ => .runtime
  | runtime _ => .runtime
  | timeLimit _ => .resource
  | spaceLimit _ _ => .resource
  | stackOverflow _ _ => .resource
  | storage _ => .storage
  | document _ _ => .compilation

namespace Failure

def kind : Failure → FailureKind
  | source _ => .compilation
  | evaluation e => e.failureKind

/-- The diagnostic of a source at fault. In an included source the message names its file. -/
def diagnostic? : Failure → Option Diagnostic
  | source e => some e.diagnostic
  | evaluation (.document path e) =>
    some { e.diagnostic with message := s!"in '{path}': {e.kind.message}" }
  | evaluation _ => none

/-- What the failure says by itself. -/
def detail : Failure → String
  | source e => e.message
  | evaluation e => e.message

/-- The failure in one text. Reading a source stops at its first fault. -/
def message (f : Failure) : String :=
  match f.kind with
  | .usage => "API error: " ++ f.detail
  | .compilation => "Compilation failed with 1 error(s)"
  | .runtime => "Runtime error: " ++ f.detail
  | .resource => "Resource limit exceeded: " ++ f.detail
  | .storage => "Storage error: " ++ f.detail

end Failure

end LazyConfig
