-- Tokens: the words of a source text, each with its kind, its place and its text.
import LazyConfig.Codec.Blob

namespace LazyConfig

inductive TokenKind where
  | number
  /-- A text in single or double quotes. -/
  | string
  /-- A text in back quotes. -/
  | template
  | blob (form : BlobForm)
  | identifier
  /-- A run of dots. -/
  | dots
  | punct
  /-- The end of the text, which is the last token. -/
  | eof
  deriving DecidableEq, Repr

structure Token where
  kind : TokenKind
  span : Span
  text : String
  deriving DecidableEq, Repr

namespace Token

/-- The end of a text of `size` bytes. -/
def endAt (size : Nat) : Token := ⟨.eof, .point size, ""⟩

/-- Whether the token is this symbol. -/
def isSymbol (t : Token) (symbol : String) : Bool := t.kind = .punct && t.text = symbol

theorem isSymbol_iff {t : Token} {symbol : String} :
    t.isSymbol symbol = true ↔ t.kind = .punct ∧ t.text = symbol := by
  simp [isSymbol]

end Token

/-! ## Names and symbols -/

/-- The characters that a name may start with. -/
def isNameStart (c : Char) : Bool := c.isAlpha || c = '_' || c = '$'

/-- The characters that a name may go on with. -/
def isNameRest (c : Char) : Bool := c.isAlphanum || c = '_' || c = '$'

/-- Whether a text is a name, so that it can stand bare as a key. -/
def isName (s : String) : Bool :=
  match s.toList with
  | [] => false
  | c :: cs => isNameStart c && cs.all isNameRest

/-- The symbols of the language, a longer one before any that it starts with. -/
def symbols : List (List Char) :=
  [['=', '=', '='], ['!', '=', '='], ['=', '='], ['!', '='], ['<', '='], ['>', '='], ['=', '>'],
   ['&', '&'], ['|', '|'], ['<'], ['>'], ['!'], ['+'], ['-'], ['*'], ['/'], ['%'], ['('], [')'],
   ['['], [']'], ['{'], ['}'], [':'], [',']]

end LazyConfig
