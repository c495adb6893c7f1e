-- What can be wrong with a source text, and how it is reported: each cause with its
-- message, its code and its help. Causes found while a text is split into tokens are told
-- apart from the others.
import LazyConfig.Text.Escape

namespace LazyConfig

/-- What a place in a source text calls for. -/
inductive Expected where
  | expression
  | propertyName
  | nameAfterDots
  | endOfInput
  | symbol (text : String)
  deriving DecidableEq, Repr

def Expected.text : Expected → String
  | expression => "expression"
  | propertyName => "property name"
  | nameAfterDots => "identifier after '.'"
  | endOfInput => "end of input"
  | symbol text => s!"'{text}'"

/-- Why a source text is no expression. -/
inductive FaultKind where
  | decode (error : DecodeError)
  /-- A character that starts no token. -/
  | unexpectedCharacter (found : Char)
  | unterminatedString (quote : Char)
  | unterminatedComment
  | unterminatedBlob
  /-- A character that its kind of blob does not allow. -/
  | blobCharacter (found : Char)
  /-- A bad escape in a string. -/
  | invalidString (error : EscapeError)
  /-- A token that does not fit, or the end of the text. -/
  | unexpectedToken (expected : Expected) (found : Option String)
  /-- An expression nested deeper than the limit. -/
  | tooDeep (depth limit : Nat)
  deriving DecidableEq, Repr

namespace FaultKind

/-- Whether the fault is found while the text is split into tokens. Malformed bytes count as
a fault of the text itself. -/
def isLexical : FaultKind → Bool
  | unexpectedCharacter _ => true
  | unterminatedString _ => true
  | unterminatedComment => true
  | unterminatedBlob => true
  | blobCharacter _ => true
  | _ => false

def message : FaultKind → String
  | decode error => error.message
  | unexpectedCharacter found => s!"Unexpected character '{found}'"
  | unterminatedString quote => s!"Unterminated string literal, expected closing {quote}"
  | unterminatedComment => "Unterminated block comment"
  | unterminatedBlob => "Invalid blob literal: missing closing quote"
  | blobCharacter found => s!"Invalid blob literal: unexpected character '{found}'"
  | invalidString error => "Invalid string literal: " ++ error.message
  | unexpectedToken expected (some found) => s!"Expected {expected.text}, found '{found}'"
  | unexpectedToken expected none => s!"Expected {expected.text}, found end of input"
  | tooDeep _ limit => s!"Expression nesting depth exceeds maximum of {limit} levels"

/-- The code under which the fault is documented. -/
def code : FaultKind → String
  | decode _ => "D001"
  | unexpectedCharacter _ => "L001"
  | unterminatedString _ => "L002"
  | unterminatedComment => "L003"
  | unterminatedBlob => "L004"
  | blobCharacter _ => "L004"
  | invalidString _ => "L005"
  | unexpectedToken _ _ => "P001"
  | tooDeep _ _ => "P004"

/-- How the fault can be mended. -/
def help? : FaultKind → Option String
  | decode _ => some "The input must be valid UTF-8"
  | unterminatedString quote => some s!"Add the missing closing {quote}"
  | unterminatedComment => some "Close the comment with */"
  | tooDeep _ _ => some "Reduce nesting or simplify the expression"
  | _ => none

end FaultKind

/-- A fault and where it is. -/
structure Fault where
  kind : FaultKind
  span : Span
  deriving DecidableEq, Repr

/-- A fault together with the text that its span points into. -/
structure ParseError extends Fault where
  source : String
  deriving DecidableEq, Repr

/-- The whole report of a source text in one text: the message, its code and place, and the
help on a line of its own. -/
def ParseError.message (e : ParseError) : String :=
  let report := s!"error: {e.kind.message} [{e.kind.code}] at {e.span.text}"
  match e.kind.help? with
  | some help => report ++ "\nhelp: " ++ help
  | none => report

end LazyConfig
