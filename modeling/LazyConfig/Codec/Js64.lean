-- Bytes as identifiers: six bits to a symbol, low bits first, behind a dollar sign. All
-- symbols may stand in a bare name, so an encoded digest can name a binding.
-- Main statement: a text has a symbol for each six bits begun, and the dollar sign.
import LazyConfig.Text.Utf8

namespace LazyConfig

/-- Why a text is not the name of any bytes. -/
inductive Js64Error where
  | empty
  | missingSentinel
  /-- A character outside the alphabet, at a byte offset. -/
  | invalidSymbol (offset : Nat)
  deriving DecidableEq, Repr

def Js64Error.message : Js64Error → String
  | empty => "empty js64 text"
  | missingSentinel => "js64 text must start with '$'"
  | invalidSymbol offset => s!"invalid js64 symbol at offset {offset}"

namespace Js64

/-! ## The alphabet -/

/-- The symbol of six bits: the dollar sign, the digits, capitals, the underscore and small
letters, in the order of their codes. -/
def symbol (n : Nat) : Char :=
  if n = 0 then '$'
  else if n < 11 then Char.ofNat (n + 47)
  else if n < 37 then Char.ofNat (n + 54)
  else if n = 37 then '_'
  else Char.ofNat (n + 59)

/-- The six bits of a symbol. -/
def value? (c : Char) : Option Nat :=
  if c = '$' then some 0
  else if '0' ≤ c ∧ c ≤ '9' then some (c.toNat - 47)
  else if 'A' ≤ c ∧ c ≤ 'Z' then some (c.toNat - 54)
  else if c = '_' then some 37
  else if 'a' ≤ c ∧ c ≤ 'z' then some (c.toNat - 59)
  else none

/-! ## Writing -/

/-- The six-bit values of bytes, low bits first. The last value is filled up with zeros. -/
def sextets : Bytes → List Nat
  | [] => []
  | [a] => [a.toNat % 64, a.toNat / 64]
  | [a, b] =>
    let n := a.toNat + 256 * b.toNat
    [n % 64, n / 64 % 64, n / 4096]
  | a :: b :: c :: rest =>
    let n := a.toNat + 256 * b.toNat + 65536 * c.toNat
    n % 64 :: n / 64 % 64 :: n / 4096 % 64 :: n / 262144 :: sextets rest

/-- The text of bytes. -/
def encode (bytes : Bytes) : String := String.ofList ('$' :: (sextets bytes).map symbol)

/-- How many characters the text of `n` bytes has. -/
def encodedLength (n : Nat) : Nat := (n * 4 + 2) / 3 + 1

/-! ## Reading -/

/-- The values of symbols, or the offset of the first character that is none. -/
def values (offset : Nat) : List Char → Except Js64Error (List Nat)
  | [] => .ok []
  | c :: cs =>
    match value? c with
    | some v => (values (offset + 1) cs).map (v :: ·)
    | none => .error (.invalidSymbol offset)

/-- The bytes of six-bit values. Bits that fill no byte are dropped. -/
def octets : List Nat → Bytes
  | [] => []
  | [_] => []
  | [a, b] => [UInt8.ofNat (a + 64 * b)]
  | [a, b, c] =>
    let n := a + 64 * b + 4096 * c
    [UInt8.ofNat n, UInt8.ofNat (n / 256)]
  | a :: b :: c :: d :: rest =>
    let n := a + 64 * b + 4096 * c + 262144 * d
    UInt8.ofNat n :: UInt8.ofNat (n / 256) :: UInt8.ofNat (n / 65536) :: octets rest

/-- The bytes that a text names. -/
def decode (text : String) : Except Js64Error Bytes :=
  match text.toList with
  | [] => .error .empty
  | '$' :: symbols => (values 1 symbols).map octets
  | _ :: _ => .error .missingSentinel

/-- Whether a text names bytes. -/
def isJs64 (text : String) : Bool :=
  match decode text with
  | .ok _ => true
  | .error _ => false

/-! ## Small facts -/

theorem length_sextets : (bytes : Bytes) → (sextets bytes).length = (bytes.length * 4 + 2) / 3
  | [] => by simp [sextets]
  | [_] => by simp [sextets]
  | [_, _] => by simp [sextets]
  | _ :: _ :: _ :: rest => by
    simp only [sextets, List.length_cons, length_sextets rest]
    omega

theorem length_encode (bytes : Bytes) : (encode bytes).length = encodedLength bytes.length := by
  rw [encode, String.length_ofList, List.length_cons, List.length_map, length_sextets,
    encodedLength]

end Js64

end LazyConfig
