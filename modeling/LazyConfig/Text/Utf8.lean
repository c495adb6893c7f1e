-- Strict UTF-8. One character is decoded at a time, and a malformed sequence is named
-- with the offset where it fails. A whole text is valid when every character decodes;
-- a text that is not is shown with replacement characters.
-- Main statement: characters are encoded one by one, each in as many bytes as its width.
import LazyConfig.Text.Span

namespace LazyConfig

/-! ## Malformed sequences -/

/-- What is wrong with a sequence of bytes, and where. -/
inductive DecodeError where
  /-- A byte that starts no character. -/
  | invalidLeadByte (offset : Nat) (byte : UInt8)
  /-- A character cut off by the end. -/
  | truncated (offset : Nat)
  /-- A byte that should continue a character and does not. -/
  | invalidContinuation (offset : Nat) (byte : UInt8)
  /-- A number that is no character, or one that has a shorter form. -/
  | invalidCodePoint (offset : Nat) (value : Nat)
  deriving DecidableEq, Repr

/-- The digits of `n` in a base up to sixteen, in small letters. -/
def lowerDigits (base n : Nat) : String := String.ofList (Nat.toDigits base n)

/-- The hexadecimal digits of `n` in capitals. -/
def upperHex (n : Nat) : String := String.ofList ((Nat.toDigits 16 n).map Char.toUpper)

/-- The text `s` filled up with zeros on the left to at least `width` characters. -/
def zeroFilled (width : Nat) (s : String) : String :=
  String.ofList (List.replicate (width - s.length) '0') ++ s

/-- A byte as two hexadecimal digits in small letters. -/
def byteHex (b : UInt8) : String := zeroFilled 2 (lowerDigits 16 b.toNat)

namespace DecodeError

/-- Where the sequence fails. -/
def offset : DecodeError → Nat
  | invalidLeadByte offset _ => offset
  | truncated offset => offset
  | invalidContinuation offset _ => offset
  | invalidCodePoint offset _ => offset

def message : DecodeError → String
  | invalidLeadByte offset byte => s!"invalid UTF-8 lead byte 0x{byteHex byte} at offset {offset}"
  | truncated offset => s!"truncated UTF-8 sequence at offset {offset}"
  | invalidContinuation offset byte =>
    s!"invalid UTF-8 continuation byte 0x{byteHex byte} at offset {offset}"
  | invalidCodePoint offset value => s!"invalid code point U+{upperHex value} at offset {offset}"

end DecodeError

namespace Utf8

/-! ## One character -/

/-- Whether a byte continues a character: its two high bits are `10`. -/
def isContinuation (b : UInt8) : Bool := 0x80 ≤ b && b < 0xC0

/-- What a lead byte promises: how many bytes follow, its own bits of the number, and the
least number that needs that many bytes. -/
structure Lead where
  extra : Nat
  bits : Nat
  least : Nat

/-- The promise of a lead byte, if the byte can lead. -/
def lead? (b : UInt8) : Option Lead :=
  if b < 0x80 then some ⟨0, b.toNat, 0⟩
  else if b < 0xC0 then none
  else if b < 0xE0 then some ⟨1, b.toNat - 0xC0, 0x80⟩
  else if b < 0xF0 then some ⟨2, b.toNat - 0xE0, 0x800⟩
  else if b < 0xF8 then some ⟨3, b.toNat - 0xF0, 0x10000⟩
  else none

/-- Adds continuation bytes to a number, six bits each. -/
def accumulate (offset value : Nat) : Bytes → Except DecodeError Nat
  | [] => .ok value
  | b :: bs =>
    if isContinuation b then accumulate (offset + 1) (value * 64 + (b.toNat - 0x80)) bs
    else .error (.invalidContinuation offset b)

/-- The character with a number, if there is one. -/
def scalar? (n : Nat) : Option Char := if n.isValidChar then some (Char.ofNat n) else none

/-- The character that starts with the byte `b` at `offset`, when `after` is all that follows. -/
def decodeFirst (offset : Nat) (b : UInt8) (after : Bytes) : Except DecodeError Char := do
  match lead? b with
  | none => .error (.invalidLeadByte offset b)
  | some lead =>
    let tail := after.take lead.extra
    if tail.length < lead.extra then .error (.truncated offset)
    else
      let value ← accumulate (offset + 1) lead.bits tail
      if value < lead.least then .error (.invalidCodePoint offset value)
      else
        match scalar? value with
        | some c => .ok c
        | none => .error (.invalidCodePoint offset value)

/-! ## A whole text -/

/-- The bytes of a list of characters. -/
def encodeChars (cs : List Char) : Bytes := cs.flatMap String.utf8EncodeChar

/-- The bytes of a text. -/
def encode (s : String) : Bytes := encodeChars s.toList

/-- How many bytes a list of characters takes. -/
def width : List Char → Nat
  | [] => 0
  | c :: cs => c.utf8Size + width cs

/-- The characters from `offset` on, or the offset of the first that does not decode. -/
def decodeFrom (offset : Nat) : Bytes → Except Nat (List Char)
  | [] => .ok []
  | b :: bs =>
    match decodeFirst offset b bs with
    | .error _ => .error offset
    | .ok c => (decodeFrom (offset + c.utf8Size) (bs.drop (c.utf8Size - 1))).map (c :: ·)
  termination_by bs => bs.length
  decreasing_by simp only [List.length_drop, List.length_cons]; omega

/-- The text of valid bytes, or how many bytes are valid before the first fault. -/
def decode (bytes : Bytes) : Except Nat String := (decodeFrom 0 bytes).map String.ofList

/-! ## A text that may be broken -/

/-- The bytes that can stand second after the lead `b` in some character. -/
def canFollow (b second : UInt8) : Bool :=
  isContinuation second &&
    if b < 0xC2 then false
    else if b == 0xE0 then 0xA0 ≤ second
    else if b == 0xED then second < 0xA0
    else if b == 0xF0 then 0x90 ≤ second
    else if b == 0xF4 then second < 0x90
    else b < 0xF5

/-- How many bytes after `b` belong to the same broken character: the longest run with which
some character could still start. -/
def brokenTail (b : UInt8) : Bytes → Nat
  | [] => 0
  | second :: rest =>
    if canFollow b second then
      match rest with
      | third :: _ => if 0xF0 ≤ b && isContinuation third then 2 else 1
      | [] => 1
    else 0

/-- The characters of bytes that may be malformed, one replacement character for each broken
one. -/
def showChars : Bytes → List Char
  | [] => []
  | b :: bs =>
    match decodeFirst 0 b bs with
    | .ok c => c :: showChars (bs.drop (c.utf8Size - 1))
    | .error _ => '\uFFFD' :: showChars (bs.drop (brokenTail b bs))
  termination_by bs => bs.length
  decreasing_by all_goals simp only [List.length_drop, List.length_cons]; omega

/-- The text that stands for bytes in reports. -/
def shown (bytes : Bytes) : String := String.ofList (showChars bytes)

/-! ## Small facts -/

theorem encodeChars_nil : encodeChars [] = [] := rfl

theorem encodeChars_cons (c : Char) (cs : List Char) :
    encodeChars (c :: cs) = String.utf8EncodeChar c ++ encodeChars cs := rfl

@[simp] theorem encodeChars_append (xs ys : List Char) :
    encodeChars (xs ++ ys) = encodeChars xs ++ encodeChars ys := by
  simp [encodeChars]

@[simp] theorem width_nil : width [] = 0 := rfl

@[simp] theorem width_cons (c : Char) (cs : List Char) :
    width (c :: cs) = c.utf8Size + width cs := rfl

theorem length_encodeChars (cs : List Char) : (encodeChars cs).length = width cs := by
  induction cs with
  | nil => rfl
  | cons c cs ih => simp [encodeChars_cons, ih]

end Utf8

end LazyConfig
