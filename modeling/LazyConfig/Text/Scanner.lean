-- A cursor over a window of bytes that moves by whole characters, forward and backward,
-- and can return to a place it was at. It holds the bytes on both sides of itself.
-- Main statements: no move changes the bytes of the window, and saving then restoring
-- changes nothing.
import LazyConfig.Text.Utf8

namespace LazyConfig

/-- A cursor in the window that starts at `begin`. The bytes before it are kept nearest
first. -/
structure Scanner where
  begin : Nat
  before : Bytes
  after : Bytes
  deriving DecidableEq, Repr

/-- A place a cursor can return to: a byte offset. -/
structure Mark where
  offset : Nat
  deriving DecidableEq, Repr

namespace Scanner

open Utf8 (isContinuation)

/-! ## Where the cursor is -/

/-- The byte offset of the cursor. -/
def offset (s : Scanner) : Nat := s.begin + s.before.length

/-- All bytes of the window, in order. -/
def window (s : Scanner) : Bytes := s.before.reverse ++ s.after

def isStart (s : Scanner) : Bool := s.before.isEmpty

def isEnd (s : Scanner) : Bool := s.after.isEmpty

/-- The cursor at `n` bytes into the window. -/
def seek (s : Scanner) (n : Nat) : Scanner :=
  ⟨s.begin, (s.window.take n).reverse, s.window.drop n⟩

/-! ## Moves -/

/-- Moves over continuation bytes, away from the start. -/
def settleForward (s : Scanner) : Scanner :=
  let passed := s.after.takeWhile isContinuation
  ⟨s.begin, passed.reverse ++ s.before, s.after.dropWhile isContinuation⟩

/-- Moves to the next start of a character, and nowhere at the end. -/
def advance (s : Scanner) : Scanner :=
  match s.after with
  | [] => s
  | b :: after => settleForward ⟨s.begin, b :: s.before, after⟩

/-- Moves back byte by byte up to a byte that starts a character, or to the start. -/
def settleBackward (begin : Nat) : Bytes → Bytes → Scanner
  | [], after => ⟨begin, [], after⟩
  | b :: before, after =>
    if isContinuation b then settleBackward begin before (b :: after)
    else ⟨begin, before, b :: after⟩

/-- Moves to the previous start of a character, and nowhere at the start. -/
def retreat (s : Scanner) : Scanner := settleBackward s.begin s.before s.after

def save (s : Scanner) : Mark := ⟨s.offset⟩

/-- Returns to a mark, or to the end of the window that is nearest to it. -/
def restore (s : Scanner) (m : Mark) : Scanner := s.seek (m.offset - s.begin)

/-- A cursor over `bytes` from `begin` to `stop`, both moved into the bytes, at the first start
of a character. -/
def ofWindow (bytes : Bytes) (begin stop : Nat) : Scanner :=
  let stop := min stop bytes.length
  let begin := min begin stop
  settleForward ⟨begin, [], (bytes.take stop).drop begin⟩

/-- A cursor over all of `bytes`. -/
def ofBytes (bytes : Bytes) : Scanner := ofWindow bytes 0 bytes.length

/-! ## Reading -/

/-- The character under the cursor, or none at the end. -/
def current (s : Scanner) : Except DecodeError (Option Char) :=
  match s.after with
  | [] => .ok none
  | b :: after => (Utf8.decodeFirst s.offset b after).map some

/-- The character after the current one. -/
def peekNext (s : Scanner) : Except DecodeError (Option Char) := s.advance.current

/-- Passes over `c` if it is the current character. The cursor stays where reading failed. -/
def eat (s : Scanner) (c : Char) : Except DecodeError Bool × Scanner :=
  match s.current with
  | .error e => (.error e, s)
  | .ok found => if found = some c then (.ok true, s.advance) else (.ok false, s)

/-- Passes over the characters one by one, up to the first that is missing. -/
def eatChars (s : Scanner) : List Char → Except DecodeError Bool × Scanner
  | [] => (.ok true, s)
  | c :: cs =>
    match s.eat c with
    | (.ok true, next) => next.eatChars cs
    | stopped => stopped

/-- Passes over `text` if the window goes on with it. Otherwise the cursor stays, except that
after a malformed character it stands there. -/
def eatText (s : Scanner) (text : String) : Except DecodeError Bool × Scanner :=
  match s.eatChars text.toList with
  | (.ok false, _) => (.ok false, s)
  | outcome => outcome

/-! ## Small facts -/

@[simp] theorem window_settleForward (s : Scanner) : s.settleForward.window = s.window := by
  simp [settleForward, window]

@[simp] theorem window_advance (s : Scanner) : s.advance.window = s.window := by
  unfold advance
  split
  · rfl
  · next h =>
    rw [window_settleForward]
    simp [window, h]

theorem window_settleBackward (begin : Nat) (before after : Bytes) :
    (settleBackward begin before after).window = before.reverse ++ after := by
  induction before generalizing after with
  | nil => rfl
  | cons b before ih =>
    unfold settleBackward
    split
    · simp [ih]
    · simp [window]

@[simp] theorem window_retreat (s : Scanner) : s.retreat.window = s.window :=
  window_settleBackward s.begin s.before s.after

@[simp] theorem window_seek (s : Scanner) (n : Nat) : (s.seek n).window = s.window := by
  simp [seek, window]

@[simp] theorem restore_save (s : Scanner) : s.restore s.save = s := by
  obtain ⟨begin, before, after⟩ := s
  simp [restore, save, offset, seek, window]

end Scanner

end LazyConfig
