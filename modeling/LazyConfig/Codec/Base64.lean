-- Bytes in the standard base64 alphabet. Only the canonical text of bytes is read: padding
-- is required, and the bits that padding stands for must be zero. The last group, the tail,
-- is judged after all groups before it.
import LazyConfig.Text.Utf8

namespace LazyConfig

/-- Why a text is not the canonical text of any bytes. -/
inductive Base64Error where
  | invalidSymbol (byte : UInt8) (offset : Nat)
  | invalidLength (length : Nat)
  | invalidPadding
  /-- The last symbol has bits that no byte takes. -/
  | invalidLastSymbol (byte : UInt8) (offset : Nat)
  deriving DecidableEq, Repr

def Base64Error.message : Base64Error → String
  | invalidSymbol byte offset => s!"Invalid symbol {byte.toNat}, offset {offset}."
  | invalidLength length => s!"Invalid input length: {length}"
  | invalidPadding => "Invalid padding"
  | invalidLastSymbol byte offset => s!"Invalid last symbol {byte.toNat}, offset {offset}."

namespace Base64

/-- The code of the padding character. -/
def pad : UInt8 := 61

/-- The six bits of a symbol. -/
def value? (b : UInt8) : Option Nat :=
  if 65 ≤ b ∧ b ≤ 90 then some (b.toNat - 65)
  else if 97 ≤ b ∧ b ≤ 122 then some (b.toNat - 71)
  else if 48 ≤ b ∧ b ≤ 57 then some (b.toNat + 4)
  else if b = 43 then some 62
  else if b = 47 then some 63
  else none

/-- The values of symbols, or the first byte that is none. -/
def values (offset : Nat) : Bytes → Except Base64Error (List Nat)
  | [] => .ok []
  | b :: bs =>
    match value? b with
    | some v => (values (offset + 1) bs).map (v :: ·)
    | none => .error (.invalidSymbol b offset)

/-- The bytes of six-bit values, high bits first. Bits that fill no byte are dropped. -/
def octets : List Nat → Bytes
  | [] => []
  | [_] => []
  | [a, b] => [UInt8.ofNat ((64 * a + b) / 16)]
  | [a, b, c] =>
    let n := 4096 * a + 64 * b + c
    [UInt8.ofNat (n / 1024), UInt8.ofNat (n / 4)]
  | a :: b :: c :: d :: rest =>
    let n := 262144 * a + 4096 * b + 64 * c + d
    UInt8.ofNat (n / 65536) :: UInt8.ofNat (n / 256) :: UInt8.ofNat n :: octets rest

/-- The last group of a text. -/
structure Tail where
  /-- The symbols with their values, in order. -/
  symbols : List (UInt8 × Nat)
  /-- How many padding characters follow them. -/
  padding : Nat

/-- Reads the padding of a tail. A symbol after padding makes the first padding wrong. -/
def readPadding (first count : Nat) : Bytes → Except Base64Error Nat
  | [] => .ok count
  | b :: bs =>
    if b = pad then readPadding first (count + 1) bs else .error (.invalidSymbol pad first)

/-- Reads the tail from `offset` on, after `read` symbols of it. Padding may start after two. -/
def readTail (offset read : Nat) : Bytes → Except Base64Error Tail
  | [] => .ok ⟨[], 0⟩
  | b :: bs =>
    if b = pad then
      if read < 2 then .error (.invalidSymbol pad offset)
      else (readPadding offset 1 bs).map (⟨[], ·⟩)
    else
      match value? b with
      | none => .error (.invalidSymbol b offset)
      | some v =>
        (readTail (offset + 1) (read + 1) bs).map fun tail =>
          ⟨(b, v) :: tail.symbols, tail.padding⟩

/-- The bits of a last symbol that fill no byte, after `count` symbols of the tail. -/
def unusedBits (count v : Nat) : Nat :=
  if count = 2 then v % 16 else if count = 3 then v % 4 else 0

/-- The values of a tail that ends at a byte with no bits left over. -/
def closeTail (start : Nat) (tail : Tail) : Except Base64Error (List Nat) := do
  let count := tail.symbols.length
  if count < 2 then .error (.invalidLength (start + count))
  else if (count + tail.padding) % 4 ≠ 0 then .error .invalidPadding
  else
    match tail.symbols.getLast? with
    | some (b, v) =>
      if unusedBits count v ≠ 0 then .error (.invalidLastSymbol b (start + count - 1))
      else .ok (tail.symbols.map (·.2))
    | none => .ok []

/-- The bytes of a canonical text. -/
def decode (text : String) : Except Base64Error Bytes := do
  let bytes := Utf8.encode text
  let n := bytes.length
  match bytes.getLast? with
  | none => .ok []
  | some last =>
    if n % 4 = 1 ∧ last ≠ pad ∧ value? last = none then .error (.invalidSymbol last (n - 1))
    else
      let start := n - (if n % 4 = 0 then 4 else n % 4)
      let front ← values 0 (bytes.take start)
      let tail ← readTail start 0 (bytes.drop start)
      let back ← closeTail start tail
      .ok (octets (front ++ back))

end Base64

end LazyConfig
