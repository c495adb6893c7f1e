-- Blob literals: bytes written as hexadecimal digits or in base64. Values print the
-- hexadecimal form.
import LazyConfig.Codec.Hex
import LazyConfig.Codec.Base64

namespace LazyConfig

/-- Why the contents of a blob literal are no bytes. -/
inductive BlobError where
  | hex (error : HexError)
  | base64 (error : Base64Error)
  deriving DecidableEq, Repr

def BlobError.message : BlobError → String
  | hex error => "invalid hex blob: " ++ error.message
  | base64 error => "invalid base64 blob: " ++ error.message

/-- The two forms of a blob literal. -/
inductive BlobForm where
  | b16
  | b64
  deriving DecidableEq, Repr

namespace BlobForm

/-- The name before the quote. -/
def name : BlobForm → String
  | b16 => "b16"
  | b64 => "b64"

/-- The characters that may stand between the quotes. -/
def allows (form : BlobForm) (c : Char) : Bool :=
  match form with
  | b16 => (Escape.hexValue? c).isSome
  | b64 => c.isAlphanum || c = '+' || c = '/' || c = '='

/-- The bytes of the contents of a literal. -/
def decode (form : BlobForm) (text : String) : Except BlobError Bytes :=
  match form with
  | b16 => (Hex.decode text).mapError .hex
  | b64 => (Base64.decode text).mapError .base64

end BlobForm

/-- Bytes as a blob literal. -/
def blobLiteral (bytes : Bytes) : String := "b16'" ++ Hex.encode bytes ++ "'"

end LazyConfig
