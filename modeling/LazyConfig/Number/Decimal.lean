-- Decimal text of doubles. A text is read as the double nearest to what it says. A double
-- is written with the fewest digits that read back to it, never with an exponent.
-- Of two shortest decimals the nearer is written, and of two as near the larger.
import LazyConfig.Number.Double

namespace LazyConfig

/-- The decimal number `digits * 10 ^ exponent`. -/
structure Decimal where
  digits : Nat
  exponent : Int
  deriving DecidableEq, Repr

namespace Decimal

/-! ## Reading -/

/-- The number that a row of digits writes. -/
def digitsValue (cs : List Char) : Nat := cs.foldl (fun n c => 10 * n + (c.toNat - 48)) 0

/-- How many digits a number is written with. -/
def width (n : Nat) : Nat := (Nat.toDigits 10 n).length

/-- The double nearest to a decimal. A decimal out of reach of any double is settled by its
size alone. -/
def toDouble (negative : Bool) (d : Decimal) : Float :=
  if d.digits = 0 then Double.ofSize negative 0
  else if 310 < d.exponent then Double.infinity negative
  else if d.exponent + width d.digits < -350 then Double.ofSize negative 0
  else if 0 ≤ d.exponent then
    Double.ofQuotient negative (d.digits * Nat.pow 10 d.exponent.toNat) 1
  else Double.ofQuotient negative d.digits (Nat.pow 10 (-d.exponent).toNat)

/-- An exponent: a sign and digits, and nothing else. -/
def exponent? (cs : List Char) : Option Int :=
  let (negative, digits) :=
    match cs with
    | '-' :: rest => (true, rest)
    | '+' :: rest => (false, rest)
    | _ => (false, cs)
  if digits.isEmpty || !digits.all Char.isDigit then none
  else some (if negative then -(digitsValue digits : Int) else digitsValue digits)

/-- A decimal without a sign: digits, perhaps a point and digits, perhaps an exponent. -/
def ofChars? (cs : List Char) : Option Decimal :=
  let whole := cs.takeWhile Char.isDigit
  let rest := cs.dropWhile Char.isDigit
  let (part, rest) :=
    match rest with
    | '.' :: rest => (rest.takeWhile Char.isDigit, rest.dropWhile Char.isDigit)
    | _ => ([], rest)
  if whole.isEmpty then none
  else
    let shifted (e : Int) : Decimal := ⟨digitsValue (whole ++ part), e - part.length⟩
    match rest with
    | [] => some (shifted 0)
    | c :: rest => if c = 'e' ∨ c = 'E' then (exponent? rest).map shifted else none

/-! ## Writing -/

/-- A positive double between its two neighbours, all in units of a quarter of the least double
on its scale: half the way to the smaller and to the larger neighbour, and whether the middles
themselves still read back. -/
structure Neighbourhood where
  low : Nat
  value : Nat
  high : Nat
  closed : Bool

/-- The neighbourhood of a positive double. Below a power of two the smaller neighbour is twice
as near. -/
def Neighbourhood.of (x : Float) : Neighbourhood :=
  let m := Double.mantissa x
  let unit := Nat.pow 2 (Double.scale x)
  let step := if m = Double.hiddenBit ∧ 0 < Double.scale x then 1 else 2
  ⟨(4 * m - step) * unit, 4 * m * unit, (4 * m + 2) * unit, m % 2 = 0⟩

/-- Whether `n / d` of a unit lies where all reads back to the double. -/
def Neighbourhood.holds (near : Neighbourhood) (n d : Nat) : Bool :=
  if near.closed then near.low * d ≤ n && n ≤ near.high * d
  else near.low * d < n && n < near.high * d

/-- The point of the grid `10 ^ exponent` that reads back, if one of the two around the double
does: the nearer of both, the larger if both are as near. Zero never reads back. -/
def Neighbourhood.onGrid? (near : Neighbourhood) (exponent : Int) : Option Nat :=
  let up := Nat.pow 10 exponent.toNat * Nat.pow 2 1076
  let down := Nat.pow 10 (-exponent).toNat
  let below := near.value * down / up
  let above := below + 1
  let fits (k : Nat) := near.holds (k * up) down
  if 0 < below ∧ fits below then
    if fits above ∧ above * up - near.value * down ≤ near.value * down - below * up
    then some above
    else some below
  else if fits above then some above
  else none

/-- The first of `count` grids from `exponent` downward with a point that reads back. -/
def Neighbourhood.coarsest (near : Neighbourhood) : (count : Nat) → (exponent : Int) → Decimal
  | 0, exponent =>
    let up := Nat.pow 10 exponent.toNat * Nat.pow 2 1076
    ⟨near.value * Nat.pow 10 (-exponent).toNat / up, exponent⟩
  | count + 1, exponent =>
    match near.onGrid? exponent with
    | some k => ⟨k, exponent⟩
    | none => near.coarsest count (exponent - 1)

/-- An exponent of ten above the neighbourhood of a double. -/
def Neighbourhood.ceiling (near : Neighbourhood) : Int :=
  let whole := near.value / Nat.pow 2 1076
  if 0 < whole then (width whole : Int) + 1
  else 2 - (width (Nat.pow 2 1076 / near.value) : Int)

/-- The shortest decimal that reads back to a positive double. Twenty grids below the ceiling
are seventeen digits and more, which always read back. -/
def shortest (x : Float) : Decimal :=
  let near := Neighbourhood.of x
  near.coarsest 20 near.ceiling

/-- A decimal without an exponent. -/
def text (d : Decimal) : String :=
  let digits := Nat.toDigits 10 d.digits
  if 0 ≤ d.exponent then String.ofList (digits ++ List.replicate d.exponent.toNat '0')
  else
    let places := (-d.exponent).toNat
    let filled := List.replicate (places + 1 - digits.length) '0' ++ digits
    let point := filled.length - places
    String.ofList (filled.take point ++ '.' :: filled.drop point)

end Decimal

namespace Double

/-- A double as text. -/
def text (x : Float) : String :=
  if isNaN x then "NaN"
  else
    let size :=
      if isInfinite x then "Infinity" else if isZero x then "0" else (Decimal.shortest x).text
    if isNegative x then "-" ++ size else size

/-- The double that a text without a sign writes. -/
def ofUnsigned? (negative : Bool) (cs : List Char) : Option Float :=
  if cs = "Infinity".toList then some (infinity negative)
  else (Decimal.ofChars? cs).map (·.toDouble negative)

/-- The double that a text writes, read back from any text of a double and from more. -/
def ofText? (s : String) : Option Float :=
  match s.toList with
  | '-' :: cs => ofUnsigned? true cs
  | cs => if s = "NaN" then some nan else ofUnsigned? false cs

end Double

end LazyConfig
