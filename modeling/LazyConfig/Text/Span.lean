-- Spans of a text: a half-open range of byte offsets. An empty span marks a place
-- between two characters.
namespace LazyConfig

/-- The bytes of a text or a file. -/
abbrev Bytes := List UInt8

/-- The bytes from `start` up to but not including `stop`. -/
structure Span where
  start : Nat
  stop : Nat
  deriving DecidableEq, Repr, Inhabited

namespace Span

/-- The empty span at an offset. -/
def point (offset : Nat) : Span := ⟨offset, offset⟩

/-- From the start of the first span to the end of the second. -/
def through (first last : Span) : Span := ⟨first.start, last.stop⟩

/-- How many bytes the span covers. -/
def size (s : Span) : Nat := s.stop - s.start

/-- A span as messages write it. -/
def text (s : Span) : String := s!"{s.start}..{s.stop}"

@[simp] theorem through_start (a b : Span) : (a.through b).start = a.start := rfl

@[simp] theorem through_stop (a b : Span) : (a.through b).stop = b.stop := rfl

end Span

end LazyConfig
