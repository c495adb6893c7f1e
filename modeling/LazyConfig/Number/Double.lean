-- Double-precision numbers by their bits. A finite number is a mantissa times a power of
-- two, and the double nearest to a quotient is found in exact arithmetic: an even mantissa
-- wins between two that are as near.
-- Main statements: equality is symmetric and transitive on all numbers, and every number
-- but NaN equals itself.
namespace LazyConfig.Double

/-! ## The parts of a double -/

/-- The weight of the sign bit. -/
def signBit : Nat := 0x8000000000000000

/-- The weight of the lowest bit above the fraction. -/
def hiddenBit : Nat := 0x10000000000000

def isNegative (x : Float) : Bool := signBit ≤ x.toBits.toNat

/-- The exponent field, eleven bits. -/
def exponentField (x : Float) : Nat := x.toBits.toNat / hiddenBit % 2048

/-- The fraction field, fifty-two bits. -/
def fraction (x : Float) : Nat := x.toBits.toNat % hiddenBit

def isNaN (x : Float) : Bool := exponentField x = 2047 && fraction x ≠ 0

def isInfinite (x : Float) : Bool := exponentField x = 2047 && fraction x = 0

def isZero (x : Float) : Bool := exponentField x = 0 && fraction x = 0

/-- The mantissa of a finite number. -/
def mantissa (x : Float) : Nat :=
  if exponentField x = 0 then fraction x else hiddenBit + fraction x

/-- How far the power of two of a finite number lies above the least one, which is -1074. -/
def scale (x : Float) : Nat := exponentField x - 1

/-- The size of a finite number as a fraction of `2 ^ 1074`. -/
def magnitude (x : Float) : Nat := mantissa x * Nat.pow 2 (scale x)

/-! ## Making doubles -/

def nan : Float := Float.ofBits 0x7FF8000000000000

/-- A number by its size in bits and its sign. -/
def ofSize (negative : Bool) (bits : Nat) : Float :=
  Float.ofBits (UInt64.ofNat (if negative then signBit + bits else bits))

/-- The bits of infinity. -/
def infinityBits : Nat := 2047 * hiddenBit

def infinity (negative : Bool) : Float := ofSize negative infinityBits

/-- The whole number nearest to a quotient, and the even one of two that are as near. -/
def roundQuotient (n d : Nat) : Nat :=
  let q := n / d
  let r := n % d
  if 2 * r < d then q else if d < 2 * r then q + 1 else q + q % 2

/-- The bits of the double nearest to `n / d` in units of the least double. The power of two is
the least that leaves a mantissa of fifty-three bits. A mantissa that rounds up to one bit more
carries into the exponent. -/
def nearestBits (n d : Nat) : Nat :=
  let power := (n / d).log2 - 52
  min (power * hiddenBit + roundQuotient n (d * Nat.pow 2 power)) infinityBits

/-- The double nearest to `n / d`, with a sign. -/
def ofQuotient (negative : Bool) (n d : Nat) : Float :=
  ofSize negative (nearestBits (n * Nat.pow 2 1074) d)

/-! ## Comparing -/

/-- Equality of numbers: NaN equals nothing, and the two zeros are equal. -/
def equals (x y : Float) : Bool :=
  !isNaN x && !isNaN y && (x.toBits = y.toBits || (isZero x && isZero y))

/-! ## The remainder -/

/-- The remainder of a division that truncates. It is exact and has the sign of `x`. -/
def remainder (x y : Float) : Float :=
  if isNaN x || isNaN y || isInfinite x || isZero y then nan
  else if isInfinite y then x
  else ofSize (isNegative x) (nearestBits (magnitude x % magnitude y) 1)

/-! ## Small facts -/

theorem equals_comm (x y : Float) : equals x y = equals y x := by
  have h : (x.toBits = y.toBits) = (y.toBits = x.toBits) := propext eq_comm
  simp only [equals, h, Bool.and_comm]

theorem equals_self {x : Float} (h : isNaN x = false) : equals x x = true := by
  simp [equals, h]

theorem isZero_congr {x y : Float} (h : x.toBits = y.toBits) : isZero x = isZero y := by
  unfold isZero exponentField fraction
  rw [h]

theorem equals_trans {x y z : Float} (hxy : equals x y = true) (hyz : equals y z = true) :
    equals x z = true := by
  simp only [equals, Bool.and_eq_true, Bool.or_eq_true, decide_eq_true_eq] at *
  obtain ⟨⟨hx, hy⟩, hxy⟩ := hxy
  obtain ⟨⟨_, hz⟩, hyz⟩ := hyz
  refine ⟨⟨hx, hz⟩, ?_⟩
  rcases hxy with hxy | ⟨zx, zy⟩
  · rcases hyz with hyz | ⟨zy, zz⟩
    · exact Or.inl (hxy.trans hyz)
    · exact Or.inr ⟨(isZero_congr hxy).trans zy, zz⟩
  · rcases hyz with hyz | ⟨_, zz⟩
    · exact Or.inr ⟨zx, (isZero_congr hyz).symm.trans zy⟩
    · exact Or.inr ⟨zx, zz⟩

end LazyConfig.Double
