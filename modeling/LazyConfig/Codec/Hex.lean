-- Bytes as hexadecimal digits, two to a byte. Digits are read in either case and written
-- in small letters.
import LazyConfig.Text.Escape

namespace LazyConfig

/-- Why a text is no row of bytes. -/
inductive HexError where
  | oddLength
  /-- A byte that is no digit, and its offset. -/
  | invalidDigit (byte : UInt8) (offset : Nat)
  deriving DecidableEq, Repr

namespace Hex

/-- The value of a byte that is a hexadecimal digit. -/
def digit? (b : UInt8) : Option Nat := Escape.hexValue? (Char.ofNat b.toNat)

/-- The bytes of pairs of digits, or the first byte that is none. -/
def pairs (offset : Nat) : Bytes → Except HexError Bytes
  | [] => .ok []
  | [_] => .error .oddLength
  | high :: low :: rest =>
    match digit? high, digit? low with
    | some h, some l => (pairs (offset + 2) rest).map (UInt8.ofNat (16 * h + l) :: ·)
    | none, _ => .error (.invalidDigit high offset)
    | some _, none => .error (.invalidDigit low (offset + 1))

/-- The bytes of a text of digits. An odd length is found before any bad digit. -/
def decode (text : String) : Except HexError Bytes :=
  let bytes := Utf8.encode text
  if bytes.length % 2 = 1 then .error .oddLength else pairs 0 bytes

/-- The digits of bytes. -/
def encode (bytes : Bytes) : String := String.join (bytes.map byteHex)

/-- A byte that is no digit, as a quoted character: the usual short escapes, and other control
characters by their number. -/
def quotedByte (b : UInt8) : String :=
  let inner :=
    if b = 0 then "\\0"
    else if b = 9 then "\\t"
    else if b = 10 then "\\n"
    else if b = 13 then "\\r"
    else if b = 39 then "\\'"
    else if b = 92 then "\\\\"
    else if Escape.isControl (Char.ofNat b.toNat) then
      "\\u\x7b" ++ lowerDigits 16 b.toNat ++ "\x7d"
    else String.singleton (Char.ofNat b.toNat)
  "'" ++ inner ++ "'"

end Hex

def HexError.message : HexError → String
  | oddLength => "Odd number of digits"
  | invalidDigit byte offset => s!"Invalid character {Hex.quotedByte byte} at position {offset}"

end LazyConfig
