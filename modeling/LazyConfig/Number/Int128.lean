-- Whole numbers of 128 bits with a sign. Arithmetic is exact or fails: division truncates,
-- and a remainder has the sign of the dividend.
-- Main statement: a number is made of an integer exactly when the integer is in range.
namespace LazyConfig

/-- An integer that fits in 128 bits: its size is below `2 ^ 127`, or it is the negative of
that. -/
structure Int128 where
  val : Int
  least_le : -0x80000000000000000000000000000000 ≤ val
  lt_bound : val < 0x80000000000000000000000000000000

namespace Int128

instance : DecidableEq Int128 := fun a b =>
  decidable_of_iff (a.val = b.val) <| by
    cases a
    cases b
    simp

/-- The number with a value, if the value is in range. -/
def ofInt? (n : Int) : Option Int128 :=
  if h : -0x80000000000000000000000000000000 ≤ n ∧ n < 0x80000000000000000000000000000000 then
    some ⟨n, h.1, h.2⟩
  else none

instance : Inhabited Int128 := ⟨⟨0, by decide, by decide⟩⟩

instance : Repr Int128 := ⟨fun n => reprPrec n.val⟩

def add? (a b : Int128) : Option Int128 := ofInt? (a.val + b.val)

def sub? (a b : Int128) : Option Int128 := ofInt? (a.val - b.val)

def mul? (a b : Int128) : Option Int128 := ofInt? (a.val * b.val)

/-- The quotient, truncated toward zero. The divisor must not be zero. -/
def div? (a b : Int128) : Option Int128 := ofInt? (a.val.tdiv b.val)

/-- The remainder of the truncated quotient, which fails with the quotient. -/
def rem? (a b : Int128) : Option Int128 := do
  let _ ← a.div? b
  ofInt? (a.val.tmod b.val)

def neg? (a : Int128) : Option Int128 := ofInt? (-a.val)

/-- A number in decimal digits, with a sign if it is negative. -/
def text (n : Int128) : String :=
  let digits := String.ofList (Nat.toDigits 10 n.val.natAbs)
  if n.val < 0 then "-" ++ digits else digits

/-! ## Small facts -/

theorem ofInt?_eq_some {n : Int} {b : Int128} : ofInt? n = some b ↔ b.val = n := by
  obtain ⟨v, lo, hi⟩ := b
  unfold ofInt?
  split
  · simp [eq_comm]
  · next h =>
    simp only [reduceCtorEq, false_iff]
    rintro rfl
    exact h ⟨lo, hi⟩

theorem ofInt?_eq_none {n : Int} :
    ofInt? n = none ↔
      n < -0x80000000000000000000000000000000 ∨ 0x80000000000000000000000000000000 ≤ n := by
  unfold ofInt?
  split
  · next h => simp only [reduceCtorEq, false_iff]; omega
  · next h => simp only [true_iff]; omega

end Int128

end LazyConfig
