-- Reports: a failure as lines of plain text. A diagnostic is drawn as the line of its source
-- with a mark under the fault, the message beside the mark, and the help below.
import LazyConfig.Diagnostic.Failure

namespace LazyConfig

/-! ## Lines of a source -/

/-- The lines of a text without their ends. The end of the last line is optional. -/
def textLines : List Char → List (List Char)
  | [] => []
  | c :: cs =>
    if c = '\n' then [] :: textLines cs
    else
      match textLines cs with
      | [] => [[c]]
      | line :: lines => (c :: line) :: lines

/-- A line of a source: its number, counted from one, and the offset of its start. -/
structure SourceLine where
  number : Nat
  start : Nat
  chars : List Char
  deriving DecidableEq, Repr

/-- The last of the lines from `first` on that starts at or before the offset, or `first`. -/
def SourceLine.findFrom (offset : Nat) (first : SourceLine) : List (List Char) → SourceLine
  | [] => first
  | chars :: lines =>
    let next : SourceLine := ⟨first.number + 1, first.start + first.chars.length + 1, chars⟩
    if offset < next.start then first else findFrom offset next lines

/-- The line of a source at an offset. -/
def SourceLine.ofOffset (source : String) (offset : Nat) : SourceLine :=
  match textLines source.toList with
  | [] => ⟨1, 0, []⟩
  | chars :: lines => findFrom offset ⟨1, 0, chars⟩ lines

/-! ## Drawing -/

def copies (n : Nat) (c : Char) : String := String.ofList (List.replicate n c)

/-- Characters without the blanks of ASCII at their end. -/
def withoutTrailing (cs : List Char) : List Char :=
  (cs.reverse.dropWhile fun c => c = ' ' || (9 ≤ c.toNat && c.toNat ≤ 13)).reverse

namespace Diagnostic

/-- The row under a fault in the columns from `a` to `b`: a line under its characters with a
branch in the middle, and two columns more. -/
def underline (a b : Nat) : String :=
  let middle := (a + b) / 2
  String.ofList ((List.range (b + 2)).map fun column =>
    if column = middle then if a = b then '│' else '┬'
    else if a ≤ column ∧ column < b then '─'
    else ' ')

/-- The row that leads from the branch to the message. -/
def arrow (a b : Nat) : String :=
  let middle := (a + b) / 2
  copies middle ' ' ++ "╰" ++ copies (b + 1 - middle) '─'

/-- The lines of the report of a diagnostic. -/
def reportLines (d : Diagnostic) : List String :=
  let line := SourceLine.ofOffset d.source d.span.start
  let number := toString line.number
  let a := d.span.start - line.start
  let b := d.span.stop - line.start
  let margin := copies (number.length + 2) ' '
  let help :=
    match d.help? with
    | some help => [margin ++ "│ ", margin ++ "│ Help: " ++ help]
    | none => []
  [s!"[{d.code}] Error: {d.message}",
    margin ++ s!"╭─[ <unknown>:{number}:{a + 1} ]",
    margin ++ "│",
    s!" {number} │ " ++ String.ofList (withoutTrailing line.chars),
    margin ++ "│ " ++ underline a b,
    margin ++ "│ " ++ arrow a b ++ " " ++ d.message]
    ++ help ++ [copies (number.length + 2) '─' ++ "╯"]

end Diagnostic

/-- The report of a failure. -/
def Failure.report (f : Failure) : String :=
  match f.diagnostic? with
  | some d => String.join (d.reportLines.map (· ++ "\n"))
  | none => f.message ++ "\n"

end LazyConfig
