-- String literals: a text is written between double quotes with escapes, and the contents
-- of a literal are read back, each escape for the character that it stands for.
-- Main statement: a text without a backslash stands for itself.
import LazyConfig.Text.Utf8

namespace LazyConfig

/-- What is wrong with an escape. Positions are byte offsets of the backslash. -/
inductive EscapeError where
  /-- No escape is written like this. -/
  | unknown (position : Nat) (sequence : String)
  /-- A character that is no hexadecimal digit, or one digit too many. -/
  | notHex (position : Nat) (sequence : String)
  /-- The text ends inside the digits. -/
  | incomplete (position expected got : Nat)
  /-- The digits name no character. -/
  | notScalar (position value : Nat)
  deriving DecidableEq, Repr

namespace EscapeError

/-- The offset of the backslash that starts the escape. -/
def position : EscapeError → Nat
  | unknown position _ => position
  | notHex position _ => position
  | incomplete position _ _ => position
  | notScalar position _ => position

/-- The same error with its position moved by `n` bytes. -/
def shift (n : Nat) : EscapeError → EscapeError
  | unknown position sequence => unknown (position + n) sequence
  | notHex position sequence => notHex (position + n) sequence
  | incomplete position expected got => incomplete (position + n) expected got
  | notScalar position value => notScalar (position + n) value

def message : EscapeError → String
  | unknown position sequence => s!"invalid escape sequence '{sequence}' at position {position}"
  | notHex position sequence => s!"invalid hex digit in '{sequence}' at position {position}"
  | incomplete position expected got =>
    s!"incomplete escape at position {position}: expected {expected} digits, got {got}"
  | notScalar position value =>
    s!"invalid Unicode scalar value U+{upperHex value} at position {position}"

end EscapeError

namespace Escape

/-! ## Writing -/

/-- The control characters of Unicode. -/
def isControl (c : Char) : Bool := c.toNat < 0x20 || (0x7F ≤ c.toNat && c.toNat < 0xA0)

/-- How one character is written inside double quotes. -/
def writeChar (c : Char) : List Char :=
  if c = '"' then ['\\', '"']
  else if c = '\\' then ['\\', '\\']
  else if c = '\n' then ['\\', 'n']
  else if c = '\r' then ['\\', 'r']
  else if c = '\t' then ['\\', 't']
  else if c = '\x00' then ['\\', '0']
  else if isControl c then '\\' :: 'u' :: (zeroFilled 4 (lowerDigits 16 c.toNat)).toList
  else [c]

/-- A text as a literal in double quotes. -/
def quote (s : String) : String :=
  String.ofList ('"' :: (s.toList.flatMap writeChar ++ ['"']))

/-! ## Reading -/

/-- The value of a hexadecimal digit. -/
def hexValue? (c : Char) : Option Nat :=
  if '0' ≤ c ∧ c ≤ '9' then some (c.toNat - 48)
  else if 'a' ≤ c ∧ c ≤ 'f' then some (c.toNat - 87)
  else if 'A' ≤ c ∧ c ≤ 'F' then some (c.toNat - 55)
  else none

/-- The character that a single letter after the backslash stands for. -/
def single? (c : Char) : Option Char :=
  match c with
  | 'n' => some '\n'
  | 'r' => some '\r'
  | 't' => some '\t'
  | 'b' => some '\x08'
  | 'f' => some '\x0C'
  | 'v' => some '\x0B'
  | '0' => some '\x00'
  | '\\' | '\'' | '"' | '`' | '$' | '/' => some c
  | _ => none

/-- Reads `missing` more of `count` digits, after those that make up `value`. -/
def readDigits (position count : Nat) (opening : List Char) :
    (missing value : Nat) → List Char → Except EscapeError Nat
  | 0, value, _ => .ok value
  | missing + 1, _, [] => .error (.incomplete position count (count - (missing + 1)))
  | missing + 1, value, c :: cs =>
    match hexValue? c with
    | some d => readDigits position count opening missing (value * 16 + d) cs
    | none => .error (.notHex position (String.ofList (opening ++ [c])))

/-- Reads one to six digits up to a closing brace: the value, and how many digits there are. -/
def readBraced (position : Nat) : (got value : Nat) → List Char → Except EscapeError (Nat × Nat)
  | got, _, [] => .error (.incomplete position 1 got)
  | got, value, c :: cs =>
    let bad := Except.error (.notHex position (String.ofList ['\\', 'u', '{', c]))
    if c = '}' ∧ 0 < got then .ok (value, got)
    else
      match hexValue? c with
      | some d => if got < 6 then readBraced position (got + 1) (value * 16 + d) cs else bad
      | none => bad

/-- The character with a number, as an escape at `position` asks for it. -/
def named (position value : Nat) : Except EscapeError Char :=
  match Utf8.scalar? value with
  | some c => .ok c
  | none => .error (.notScalar position value)

/-- One escape, read from what follows its backslash: the character it stands for, if any, and
how many characters it takes. They are all ASCII, so it takes as many bytes. -/
def read (position : Nat) : List Char → Except EscapeError (Option Char × Nat)
  | [] => .error (.unknown position "\\")
  | c :: cs =>
    if c = '\n' then .ok (none, 1)
    else if c = '\r' then .ok (none, if cs.head? = some '\n' then 2 else 1)
    else if c = 'x' then do
      let value ← readDigits position 2 ['\\', 'x'] 2 0 cs
      let found ← named position value
      .ok (some found, 3)
    else if c = 'u' then
      if cs.head? = some '{' then do
        let (value, digits) ← readBraced position 0 0 cs.tail
        let found ← named position value
        .ok (some found, digits + 3)
      else do
        let value ← readDigits position 4 ['\\', 'u'] 4 0 cs
        let found ← named position value
        .ok (some found, 5)
    else
      match single? c with
      | some found => .ok (some found, 1)
      | none => .error (.unknown position (String.ofList ['\\', c]))

/-- What the characters of a literal stand for, from the byte `position` on. -/
def unescapeFrom (position : Nat) : List Char → Except EscapeError (List Char)
  | [] => .ok []
  | c :: cs =>
    if c = '\\' then
      match read position cs with
      | .error e => .error e
      | .ok (found, taken) =>
        (unescapeFrom (position + 1 + taken) (cs.drop taken)).map (found.toList ++ ·)
    else (unescapeFrom (position + c.utf8Size) cs).map (c :: ·)
  termination_by cs => cs.length
  decreasing_by all_goals simp only [List.length_drop, List.length_cons]; omega

/-- What the contents of a literal stand for. -/
def unescape (s : String) : Except EscapeError String :=
  (unescapeFrom 0 s.toList).map String.ofList

/-! ## Small facts -/

theorem unescapeFrom_plain (position : Nat) (cs : List Char) (h : ∀ c ∈ cs, c ≠ '\\') :
    unescapeFrom position cs = .ok cs := by
  induction cs generalizing position with
  | nil => simp [unescapeFrom]
  | cons c cs ih =>
    have hc : c ≠ '\\' := h c (by simp)
    have hcs : ∀ d ∈ cs, d ≠ '\\' := fun d hd => h d (by simp [hd])
    rw [unescapeFrom, if_neg hc, ih _ hcs]
    rfl

end Escape

end LazyConfig
