-- The values of literals, read from their text. A number with the mark `n` is whole and must
-- fit in 128 bits; any other is the nearest double.
-- Main statement: what digits and the mark write.
import LazyConfig.Number.Decimal
import LazyConfig.Value.RuntimeError
import LazyConfig.Value.Basic

namespace LazyConfig.Value

/-- The whole number that a row of digits writes. -/
def whole? (digits : List Char) : Option Int128 :=
  if !digits.isEmpty && digits.all Char.isDigit then Int128.ofInt? (Decimal.digitsValue digits)
  else none

/-- The number that the characters of a literal write. -/
def numberOfChars? (cs : List Char) : Option Value :=
  if cs.getLast? = some 'n' then (whole? cs.dropLast).map .bigint
  else (Decimal.ofChars? cs).map fun d => .number (d.toDouble false)

/-- The value of a number literal. -/
def ofNumber (text : String) : Except RuntimeCause Value :=
  match numberOfChars? text.toList with
  | some v => .ok v
  | none => .error (.invalidNumber text)

/-- The value of a blob literal. -/
def ofBlob (form : BlobForm) (text : String) : Except RuntimeCause Value :=
  match form.decode text with
  | .ok bytes => .ok (.blob bytes)
  | .error e => .error (.invalidBlob e)

theorem numberOfChars?_whole (digits : List Char) :
    numberOfChars? (digits ++ ['n']) = (whole? digits).map .bigint := by
  simp [numberOfChars?]

end LazyConfig.Value
