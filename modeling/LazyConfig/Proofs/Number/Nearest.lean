-- The double nearest to a number. The sizes of doubles grow with their bits, so the neighbours of a
-- double are those with one bit more and one bit less, and of two neighbours one has an even
-- mantissa.
-- Main statements: the double that is found for a quotient is the nearest one, and there is only
-- one nearest double for each sign.
import LazyConfig.Proofs.Number.Bits
import LazyConfig.Number.Decimal
import Mathlib.Data.Nat.Dist

namespace LazyConfig.Double

/-! ## The sizes of patterns -/

/-- The bits of a double without its sign. -/
def sizeBits (x : Float) : Nat := x.toBits.toNat % signBit

/-- The size that bits without a sign stand for, in units of the least double. Infinity comes out as
the power of two that follows the largest double. -/
def magnitudeOf (size : Nat) : Nat :=
  (if size / hiddenBit = 0 then size % hiddenBit else hiddenBit + size % hiddenBit) *
    2 ^ (size / hiddenBit - 1)

/-- Bits are a power of two and a mantissa. A mantissa of one bit too many goes with the next
power. -/
theorem magnitudeOf_add {power m : Nat} (hm : m ≤ 2 * hiddenBit)
    (hpower : power = 0 ∨ hiddenBit ≤ m) :
    magnitudeOf (power * hiddenBit + m) = m * 2 ^ power := by
  have hfields : ∀ more fraction, m = more * hiddenBit + fraction → fraction < hiddenBit →
      (power * hiddenBit + m) / hiddenBit = power + more ∧
        (power * hiddenBit + m) % hiddenBit = fraction := by
    simp only [hiddenBit]
    omega
  unfold magnitudeOf
  by_cases hsmall : m < hiddenBit
  · obtain ⟨hdiv, hmod⟩ := hfields 0 m (by omega) hsmall
    have hzero : power = 0 := by omega
    rw [if_pos (by omega), hdiv, hmod, hzero]
  · have hexponent : ¬(power * hiddenBit + m) / hiddenBit = 0 := by
      simp only [hiddenBit] at *
      omega
    rw [if_neg hexponent]
    by_cases hlarge : m < 2 * hiddenBit
    · obtain ⟨hdiv, hmod⟩ := hfields 1 (m - hiddenBit) (by omega) (by omega)
      rw [hdiv, hmod, Nat.add_sub_cancel, Nat.add_sub_cancel' (by omega)]
    · obtain ⟨hdiv, hmod⟩ := hfields 2 0 (by omega) (by decide)
      have hm : m = hiddenBit * 2 := by omega
      rw [hdiv, hmod, hm, Nat.add_zero, Nat.add_sub_assoc (by decide), pow_succ]
      ring

theorem exists_parts (size : Nat) :
    ∃ power m, size = power * hiddenBit + m ∧ m < 2 * hiddenBit ∧
      (power = 0 ∨ hiddenBit ≤ m) := by
  have hpos : 0 < hiddenBit := by decide
  have hmod := Nat.mod_lt size hpos
  have hparts := Nat.div_add_mod' size hiddenBit
  by_cases h : size / hiddenBit = 0
  · refine ⟨0, size, by omega, ?_, .inl rfl⟩
    rw [h] at hparts
    omega
  · refine ⟨size / hiddenBit - 1, hiddenBit + size % hiddenBit, ?_, by omega, .inr (by omega)⟩
    rw [Nat.sub_mul]
    have := Nat.le_mul_of_pos_left hiddenBit (Nat.pos_of_ne_zero h)
    omega

theorem magnitudeOf_strictMono : StrictMono magnitudeOf := by
  apply strictMono_nat_of_lt_succ
  intro size
  obtain ⟨power, m, rfl, hm, hpower⟩ := exists_parts size
  rw [magnitudeOf_add hm.le hpower, Nat.add_assoc, magnitudeOf_add (by omega) (by omega)]
  exact Nat.mul_lt_mul_of_pos_right (Nat.lt_succ_self m) (by positivity)

/-! ## Rounding a quotient -/

/-- The multiples below and above a number are as far as its remainder says, all others farther. -/
theorem dist_multiple {q d r : Nat} (h : r < d) (k : Nat) :
    k = q ∧ Nat.dist (k * d) (q * d + r) = r ∨
      k = q + 1 ∧ Nat.dist (k * d) (q * d + r) = d - r ∨
      (k < q ∧ d + r ≤ Nat.dist (k * d) (q * d + r)) ∨
      (q + 1 < k ∧ d + d - r ≤ Nat.dist (k * d) (q * d + r)) := by
  have hnext := Nat.add_mul q 1 d
  unfold Nat.dist
  rcases Nat.lt_trichotomy k q with hlt | rfl | hgt
  · have hbelow := Nat.mul_le_mul_right d hlt
    rw [Nat.succ_mul] at hbelow
    omega
  · omega
  · by_cases hk : k = q + 1
    · subst hk
      omega
    · have habove := Nat.mul_le_mul_right d (show q + 2 ≤ k by omega)
      rw [Nat.add_mul] at habove
      omega

/-- A quotient is rounded to one of the two whole numbers around it, and in the middle to the even
one. -/
theorem roundQuotient_cases (n d : Nat) :
    (roundQuotient n d = n / d ∧ 2 * (n % d) ≤ d ∧ (2 * (n % d) = d → n / d % 2 = 0)) ∨
      (roundQuotient n d = n / d + 1 ∧ d ≤ 2 * (n % d) ∧
        (2 * (n % d) = d → (n / d + 1) % 2 = 0)) := by
  unfold roundQuotient
  dsimp only
  split
  · exact .inl ⟨rfl, by omega, by omega⟩
  · split
    · exact .inr ⟨rfl, by omega, by omega⟩
    · rcases Nat.mod_two_eq_zero_or_one (n / d) with h | h
      · exact .inl ⟨by omega, by omega, fun _ => h⟩
      · exact .inr ⟨by omega, by omega, fun _ => by omega⟩

/-- No other multiple is nearer, and if another one is as near, the multiplier is even. -/
theorem roundQuotient_nearest (n : Nat) {d : Nat} (hd : 0 < d) (k : Nat) :
    Nat.dist (roundQuotient n d * d) n ≤ Nat.dist (k * d) n ∧
      (Nat.dist (k * d) n = Nat.dist (roundQuotient n d * d) n →
        k = roundQuotient n d ∨ roundQuotient n d % 2 = 0) := by
  have hrest := Nat.mod_lt n hd
  have hself := dist_multiple (q := n / d) hrest (roundQuotient n d)
  have hother := dist_multiple (q := n / d) hrest k
  rw [Nat.div_add_mod'] at hself hother
  rcases roundQuotient_cases n d with ⟨h, hle, heven⟩ | ⟨h, hle, heven⟩
  · rw [h] at hself ⊢
    rcases hother with hother | hother | hother | hother <;> omega
  · rw [h] at hself ⊢
    rcases hother with hother | hother | hother | hother <;> omega

/-! ## The nearest bits -/

/-- The power of two that goes with a quotient. -/
def powerOf (n d : Nat) : Nat := (n / d).log2 - 52

/-- The mantissa of a quotient, before it carries into the exponent. -/
def roundedMantissa (n d : Nat) : Nat := roundQuotient n (d * 2 ^ powerOf n d)

theorem nearestBits_eq (n d : Nat) :
    nearestBits n d = min (powerOf n d * hiddenBit + roundedMantissa n d) infinityBits :=
  rfl

/-- A mantissa has fifty-three bits, fewer only with the least power. -/
theorem roundedMantissa_bounds (n d : Nat) :
    roundedMantissa n d ≤ 2 * hiddenBit ∧
      (powerOf n d = 0 ∨ hiddenBit ≤ n / (d * 2 ^ powerOf n d) ∧
        hiddenBit ≤ roundedMantissa n d) := by
  have hquotient : n / (d * 2 ^ powerOf n d) = n / d / 2 ^ powerOf n d :=
    (Nat.div_div_eq_div_mul n d _).symm
  have hupper : n / d / 2 ^ powerOf n d < 2 * hiddenBit := by
    apply Nat.div_lt_of_lt_mul
    have hlt : n / d < 2 ^ ((n / d).log2 + 1) := Nat.lt_log2_self
    apply hlt.trans_le
    rw [show 2 * hiddenBit = 2 ^ 53 from rfl, ← Nat.pow_add]
    apply Nat.pow_le_pow_right (by decide)
    unfold powerOf
    omega
  have hlower : powerOf n d = 0 ∨ hiddenBit ≤ n / d / 2 ^ powerOf n d := by
    by_cases hpower : powerOf n d = 0
    · exact .inl hpower
    · right
      apply (Nat.le_div_iff_mul_le (by positivity)).mpr
      unfold powerOf at *
      rw [show hiddenBit = 2 ^ 52 from rfl, ← Nat.pow_add, Nat.add_sub_cancel' (by omega)]
      apply Nat.log2_self_le
      intro hzero
      rw [hzero] at hpower
      exact hpower rfl
  unfold roundedMantissa
  rcases roundQuotient_cases n (d * 2 ^ powerOf n d) with ⟨h, -⟩ | ⟨h, -⟩ <;> omega

/-- All that has a power of two lies below the least mantissa of any greater power. -/
theorem mul_two_pow_lt {power power' m : Nat} (hm : m < 2 * hiddenBit) (h : power < power') :
    m * 2 ^ power < hiddenBit * 2 ^ power' := by
  calc m * 2 ^ power < 2 * hiddenBit * 2 ^ power := by gcongr
    _ = hiddenBit * 2 ^ (power + 1) := by ring
    _ ≤ hiddenBit * 2 ^ power' := by
      gcongr
      · decide
      · omega

/-- Without a bound on the exponent no other size is nearer to a quotient, and if another one is as
near, the bits are even. -/
theorem unbounded_nearest (n : Nat) {d : Nat} (hd : 0 < d) {bits : Nat}
    (hbits : bits = powerOf n d * hiddenBit + roundedMantissa n d) (size : Nat) :
    Nat.dist (magnitudeOf bits * d) n ≤ Nat.dist (magnitudeOf size * d) n ∧
      (Nat.dist (magnitudeOf size * d) n = Nat.dist (magnitudeOf bits * d) n →
        size = bits ∨ bits % 2 = 0) := by
  obtain ⟨hupper, hlower⟩ := roundedMantissa_bounds n d
  have hunit : 0 < d * 2 ^ powerOf n d := by positivity
  have hmagnitude : magnitudeOf bits = roundedMantissa n d * 2 ^ powerOf n d := by
    rw [hbits, magnitudeOf_add hupper (hlower.imp_right And.right)]
  have hmultiple (k : Nat) : k * 2 ^ powerOf n d * d = k * (d * 2 ^ powerOf n d) := by ring
  have hnearest := roundQuotient_nearest n hunit
  obtain ⟨power, m, hsize, hm, hpower⟩ := exists_parts size
  have hother : magnitudeOf size = m * 2 ^ power := by
    rw [hsize, magnitudeOf_add hm.le hpower]
  rw [hmagnitude, hmultiple]
  by_cases hle : powerOf n d ≤ power
  · -- The other size is a multiple of the unit that the quotient is rounded in.
    have hsplit : magnitudeOf size = m * 2 ^ (power - powerOf n d) * 2 ^ powerOf n d := by
      rw [hother, Nat.mul_assoc, ← Nat.pow_add, Nat.sub_add_cancel hle]
    rw [hsplit, hmultiple]
    obtain ⟨hfar, htie⟩ := hnearest (m * 2 ^ (power - powerOf n d))
    refine ⟨hfar, fun h => ?_⟩
    rcases htie h with hsame | heven
    · left
      apply magnitudeOf_strictMono.injective
      rw [hsplit, hmagnitude, hsame]
      rfl
    · right
      rw [hbits, show hiddenBit = 2 * 2 ^ 51 from rfl]
      unfold roundedMantissa
      omega
  · -- The other size lies below the least mantissa of the power, which is below the quotient.
    have hquotient : hiddenBit * (d * 2 ^ powerOf n d) ≤ n :=
      (Nat.le_div_iff_mul_le hunit).mp (hlower.resolve_left (by omega)).1
    have hsmall : magnitudeOf size * d < hiddenBit * (d * 2 ^ powerOf n d) := by
      rw [hother, ← hmultiple]
      exact Nat.mul_lt_mul_of_pos_right (mul_two_pow_lt hm (by omega)) hd
    obtain ⟨hfar, -⟩ := hnearest hiddenBit
    unfold roundedMantissa
    unfold Nat.dist at *
    omega

/-- Bits above those of infinity belong to quotients above it. -/
theorem infinity_le {n d : Nat} (hd : 0 < d)
    (h : infinityBits < powerOf n d * hiddenBit + roundedMantissa n d) :
    magnitudeOf infinityBits * d ≤ n := by
  obtain ⟨hupper, hlower⟩ := roundedMantissa_bounds n d
  have hpower : 2046 ≤ powerOf n d := by
    simp only [infinityBits, hiddenBit] at *
    omega
  have hinfinity : magnitudeOf infinityBits = hiddenBit * 2 ^ 2046 := by
    rw [show infinityBits = 2046 * hiddenBit + hiddenBit from rfl]
    exact magnitudeOf_add (by decide) (.inr le_rfl)
  have hquotient := (Nat.le_div_iff_mul_le (by positivity)).mp (hlower.resolve_left (by omega)).1
  calc magnitudeOf infinityBits * d = hiddenBit * (d * 2 ^ 2046) := by
        rw [hinfinity, Nat.mul_assoc, Nat.mul_comm d]
    _ ≤ hiddenBit * (d * 2 ^ powerOf n d) := by
      gcongr
      decide
    _ ≤ n := hquotient

/-- No other size is nearer to a quotient, and if another one is as near, the bits are even. -/
theorem nearestBits_nearest (n : Nat) {d : Nat} (hd : 0 < d) {size : Nat}
    (hsize : size ≤ infinityBits) :
    Nat.dist (magnitudeOf (nearestBits n d) * d) n ≤ Nat.dist (magnitudeOf size * d) n ∧
      (Nat.dist (magnitudeOf size * d) n = Nat.dist (magnitudeOf (nearestBits n d) * d) n →
        size = nearestBits n d ∨ nearestBits n d % 2 = 0) := by
  rw [nearestBits_eq]
  by_cases hbits : powerOf n d * hiddenBit + roundedMantissa n d ≤ infinityBits
  · rw [Nat.min_eq_left hbits]
    exact unbounded_nearest n hd rfl size
  · rw [Nat.min_eq_right (by omega)]
    have hfar := infinity_le hd (Nat.lt_of_not_le hbits)
    have hle : magnitudeOf size * d ≤ magnitudeOf infinityBits * d :=
      Nat.mul_le_mul_right d (magnitudeOf_strictMono.monotone hsize)
    refine ⟨?_, fun _ => .inr (by decide)⟩
    unfold Nat.dist
    omega

/-! ## The bits of any double -/

section Bits

variable (x : Float)

theorem toBits_lt : x.toBits.toNat < 2 * signBit := x.toBits.toNat_lt

theorem exponentField_eq : exponentField x = sizeBits x / hiddenBit := by
  have hlt := toBits_lt x
  unfold exponentField sizeBits
  simp only [signBit, hiddenBit] at *
  omega

theorem fraction_eq : fraction x = sizeBits x % hiddenBit :=
  (Nat.mod_mod_of_dvd _ (by decide)).symm

theorem magnitude_eq : magnitude x = magnitudeOf (sizeBits x) := by
  unfold magnitude mantissa scale magnitudeOf
  rw [exponentField_eq, fraction_eq]
  rfl

/-- The mantissa ends in the last bit. -/
theorem mantissa_mod_two : mantissa x % 2 = sizeBits x % 2 := by
  unfold mantissa
  rw [fraction_eq]
  simp only [hiddenBit]
  split <;> omega

theorem isNaN_eq_false : isNaN x = false ↔ sizeBits x ≤ infinityBits := by
  have hlt : sizeBits x < signBit := Nat.mod_lt _ (by decide)
  unfold isNaN infinityBits
  rw [exponentField_eq, fraction_eq, Bool.and_eq_false_iff, decide_eq_false_iff_not,
    decide_eq_false_iff_not, not_not]
  simp only [signBit, hiddenBit] at *
  omega

/-- A sign and a size make a double. -/
theorem eq_of_sizeBits {x y : Float} (hsign : isNegative x = isNegative y)
    (hsize : sizeBits x = sizeBits y) : x = y := by
  have hx := toBits_lt x
  have hy := toBits_lt y
  rw [← Float.toBits_inj]
  apply UInt64.toNat_inj.mp
  unfold isNegative at hsign
  rw [decide_eq_decide] at hsign
  unfold sizeBits at hsize
  simp only [signBit] at *
  omega

variable (negative : Bool) {size : Nat} (h : size ≤ infinityBits)

include h

theorem sizeBits_ofSize : sizeBits (ofSize negative size) = size := by
  have hlt := Nat.lt_of_le_of_lt h infinityBits_lt
  unfold sizeBits
  rw [toBits_ofSize negative h]
  unfold pattern
  split
  · rw [Nat.add_mod_left, Nat.mod_eq_of_lt hlt]
  · exact Nat.mod_eq_of_lt hlt

theorem isNegative_ofSize : isNegative (ofSize negative size) = negative := by
  have hlt := Nat.lt_of_le_of_lt h infinityBits_lt
  unfold isNegative
  rw [toBits_ofSize negative h]
  unfold pattern
  cases negative
  · exact decide_eq_false (Nat.not_le.mpr hlt)
  · exact decide_eq_true (Nat.le_add_right _ _)

end Bits

/-! ## The nearest double -/

/-- How many of the least double make one. -/
def unit : Nat := Nat.pow 2 1074

theorem unit_eq : unit = 2 ^ 1074 := by
  unfold unit
  generalize 1074 = power
  exact Nat.pow_eq

theorem ofQuotient_eq (negative : Bool) (n d : Nat) :
    ofQuotient negative n d = ofSize negative (nearestBits (n * unit) d) := by
  unfold ofQuotient unit
  rfl

attribute [irreducible] unit

theorem unit_pos : (0 : ℚ) < unit := by
  rw [unit_eq, Nat.cast_pow]
  positivity

/-- The size of a double. Infinity comes out as the power of two that follows the largest double. -/
def sizeOf (x : Float) : ℚ := magnitude x / unit

/-- A double of a sign that is as near to a number as any double can be, and of two that are as near
the one with the even mantissa. -/
structure IsNearest (negative : Bool) (q : ℚ) (x : Float) : Prop where
  sign : isNegative x = negative
  number : isNaN x = false
  nearest (y : Float) : isNaN y = false → |sizeOf x - q| ≤ |sizeOf y - q|
  even (y : Float) : isNaN y = false → |sizeOf y - q| = |sizeOf x - q| →
    magnitude y = magnitude x ∨ mantissa x % 2 = 0

/-- The nearest double by its bits. -/
theorem isNearest_ofSize {negative : Bool} {q : ℚ} {size : Nat} (h : size ≤ infinityBits)
    (hnearest : ∀ other ≤ infinityBits,
      |(magnitudeOf size / unit : ℚ) - q| ≤ |magnitudeOf other / unit - q| ∧
        (|(magnitudeOf other / unit : ℚ) - q| = |magnitudeOf size / unit - q| →
          other = size ∨ size % 2 = 0)) :
    IsNearest negative q (ofSize negative size) := by
  have hsize := sizeBits_ofSize negative h
  refine ⟨isNegative_ofSize negative h, ?_, fun y hy => ?_, fun y hy => ?_⟩
  · rw [isNaN_eq_false, hsize]
    exact h
  · unfold sizeOf
    rw [magnitude_eq, magnitude_eq, hsize]
    exact (hnearest _ ((isNaN_eq_false y).mp hy)).1
  · unfold sizeOf
    rw [magnitude_eq, magnitude_eq, mantissa_mod_two, hsize]
    intro htie
    exact ((hnearest _ ((isNaN_eq_false y).mp hy)).2 htie).imp_left (congrArg magnitudeOf)

theorem cast_dist (m n : Nat) : (Nat.dist m n : ℚ) = |(m : ℚ) - n| := by
  rcases Nat.le_total m n with h | h
  · rw [Nat.dist_eq_sub_of_le h, Nat.cast_sub h, abs_sub_comm, abs_of_nonneg]
    exact sub_nonneg.mpr (Nat.cast_le.mpr h)
  · rw [Nat.dist_eq_sub_of_le_right h, Nat.cast_sub h, abs_of_nonneg]
    exact sub_nonneg.mpr (Nat.cast_le.mpr h)

/-- A distance between quotients is one between whole numbers. -/
theorem abs_sub_quotient (m n : Nat) {d : Nat} (hd : (0 : ℚ) < d) :
    |(m / unit : ℚ) - n / d| = Nat.dist (m * d) (n * unit) / (d * unit) := by
  rw [cast_dist, div_sub_div _ _ unit_pos.ne' hd.ne', abs_div, abs_of_pos (mul_pos unit_pos hd)]
  push_cast
  rw [mul_comm (unit : ℚ), mul_comm (unit : ℚ)]

/-- The double that is found for a quotient is the nearest one. -/
theorem isNearest_ofQuotient (negative : Bool) (n : Nat) {d : Nat} (hd : 0 < d) :
    IsNearest negative (n / d) (ofQuotient negative n d) := by
  have hd' : (0 : ℚ) < d := Nat.cast_pos.mpr hd
  have hunit : (0 : ℚ) < d * unit := mul_pos hd' unit_pos
  rw [ofQuotient_eq]
  apply isNearest_ofSize (Nat.min_le_right _ _)
  intro other hother
  rw [abs_sub_quotient _ _ hd', abs_sub_quotient _ _ hd', div_le_div_iff_of_pos_right hunit,
    div_left_inj' hunit.ne', Nat.cast_le, Nat.cast_inj]
  exact nearestBits_nearest (n * unit) hd hother

theorem two_pow_mul_two_pow (a b c d : Nat) (h : a + b = c + d) :
    2 ^ a * 2 ^ b = 2 ^ c * 2 ^ d := by
  rw [← Nat.pow_add, ← Nat.pow_add, h]

theorem magnitudeOf_infinityBits : magnitudeOf infinityBits = 2 ^ 1024 * unit := by
  rw [show infinityBits = 2046 * hiddenBit + hiddenBit from rfl,
    magnitudeOf_add (by decide) (.inr le_rfl)]
  rw [unit_eq, show hiddenBit = 2 ^ 52 from rfl, two_pow_mul_two_pow 52 2046 1024 1074 rfl]

/-- Nothing is nearer to a number beyond the doubles than infinity. -/
theorem isNearest_infinity (negative : Bool) {q : ℚ} (h : (2 ^ 1024 : Nat) ≤ q) :
    IsNearest negative q (infinity negative) := by
  apply isNearest_ofSize le_rfl
  intro other hother
  refine ⟨?_, fun _ => .inr (by decide)⟩
  have hinfinity : (magnitudeOf infinityBits / unit : ℚ) = (2 ^ 1024 : Nat) := by
    rw [magnitudeOf_infinityBits, Nat.cast_mul, mul_div_cancel_right₀ _ unit_pos.ne']
  have hle : (magnitudeOf other / unit : ℚ) ≤ magnitudeOf infinityBits / unit := by
    rw [div_le_div_iff_of_pos_right unit_pos, Nat.cast_le]
    exact magnitudeOf_strictMono.monotone hother
  rw [← hinfinity] at h
  rw [abs_of_nonpos (by linarith), abs_of_nonpos (by linarith)]
  linarith

/-- Nothing is nearer to a number below half the least double than zero. -/
theorem isNearest_zero (negative : Bool) {q : ℚ} (hnonneg : 0 ≤ q) (h : 2 * q ≤ 1 / unit) :
    IsNearest negative q (ofSize negative 0) := by
  apply isNearest_ofSize (Nat.zero_le _)
  intro other _
  refine ⟨?_, fun _ => .inr rfl⟩
  rcases Nat.eq_zero_or_pos other with rfl | hpos
  · exact le_rfl
  · have hmagnitude : 1 ≤ magnitudeOf other := magnitudeOf_strictMono hpos
    have hle : (1 / unit : ℚ) ≤ magnitudeOf other / unit := by
      rw [div_le_div_iff_of_pos_right unit_pos]
      exact_mod_cast hmagnitude
    have hzero : (magnitudeOf 0 / unit : ℚ) = 0 := by simp [magnitudeOf]
    rw [hzero, abs_of_nonpos (by linarith), abs_of_nonneg (by linarith)]
    linarith

/-! ## One nearest double -/

/-- Of two doubles that are nearest to a number none has more bits. Their mantissas would be even,
and a double between them would be nearer than both. -/
theorem IsNearest.not_lt {negative : Bool} {q : ℚ} {x y : Float} (hx : IsNearest negative q x)
    (hy : IsNearest negative q y) : ¬sizeBits x < sizeBits y := by
  intro hlt
  have hsame : |sizeOf y - q| = |sizeOf x - q| :=
    le_antisymm (hy.nearest x hx.number) (hx.nearest y hy.number)
  have hmagnitude : magnitude x < magnitude y := by
    rw [magnitude_eq, magnitude_eq]
    exact magnitudeOf_strictMono hlt
  have hxeven := (hx.even y hy.number hsame).resolve_left hmagnitude.ne'
  have hyeven := (hy.even x hx.number hsame.symm).resolve_left hmagnitude.ne
  rw [mantissa_mod_two] at hxeven hyeven
  have hbound := (isNaN_eq_false y).mp hy.number
  have hbetween : sizeBits x + 1 < sizeBits y := by omega
  have hz := sizeBits_ofSize negative (show sizeBits x + 1 ≤ infinityBits by omega)
  have hlow : sizeOf x < sizeOf (ofSize negative (sizeBits x + 1)) := by
    unfold sizeOf
    rw [div_lt_div_iff_of_pos_right unit_pos, Nat.cast_lt, magnitude_eq, magnitude_eq, hz]
    exact magnitudeOf_strictMono (Nat.lt_succ_self _)
  have hhigh : sizeOf (ofSize negative (sizeBits x + 1)) < sizeOf y := by
    unfold sizeOf
    rw [div_lt_div_iff_of_pos_right unit_pos, Nat.cast_lt, magnitude_eq, magnitude_eq, hz]
    exact magnitudeOf_strictMono hbetween
  have hnumber : isNaN (ofSize negative (sizeBits x + 1)) = false := by
    rw [isNaN_eq_false, hz]
    omega
  have hnearest := hx.nearest _ hnumber
  -- The number lies in the middle of the two.
  rcases abs_eq_abs.mp hsame with hequal | hmiddle
  · linarith
  · rw [abs_of_nonpos (by linarith)] at hnearest
    rcases abs_cases (sizeOf (ofSize negative (sizeBits x + 1)) - q) with ⟨h, _⟩ | ⟨h, _⟩
    · rw [h] at hnearest
      linarith
    · rw [h] at hnearest
      linarith

/-- There is one nearest double for each sign. -/
theorem IsNearest.unique {negative : Bool} {q : ℚ} {x y : Float} (hx : IsNearest negative q x)
    (hy : IsNearest negative q y) : x = y := by
  apply eq_of_sizeBits (hx.sign.trans hy.sign.symm)
  exact Nat.le_antisymm (Nat.le_of_not_lt (hy.not_lt hx)) (Nat.le_of_not_lt (hx.not_lt hy))

end LazyConfig.Double

namespace LazyConfig.Decimal

open Double (IsNearest)

/-! ## Reading a decimal -/

/-- The number that a decimal stands for. -/
def value (d : Decimal) : ℚ := d.digits * 10 ^ d.exponent

theorem lt_ten_pow_width (n : Nat) : n < 10 ^ width n :=
  (Nat.length_toDigits_le_iff (by decide) Nat.length_toDigits_pos).mp le_rfl

/-- A decimal beyond the largest exponent lies beyond the doubles. -/
theorem le_value {d : Decimal} (hdigits : d.digits ≠ 0) (hexponent : 310 < d.exponent) :
    (2 ^ 1024 : Nat) ≤ d.value := by
  have hone : (1 : ℚ) ≤ d.digits := by exact_mod_cast Nat.pos_of_ne_zero hdigits
  calc ((2 ^ 1024 : Nat) : ℚ) ≤ ((10 ^ 311 : Nat) : ℚ) := Nat.cast_le.mpr (by decide +kernel)
    _ = (10 : ℚ) ^ (311 : Int) := by rw [Nat.cast_pow, zpow_ofNat, Nat.cast_ofNat]
    _ ≤ 10 ^ d.exponent := zpow_le_zpow_right₀ (by norm_num) (by omega)
    _ ≤ d.value := le_mul_of_one_le_left (by positivity) hone

/-- A decimal below the least exponent is less than half the least double. -/
theorem two_mul_value_le {d : Decimal} (h : d.exponent + width d.digits < -350) :
    2 * d.value ≤ 1 / Double.unit := by
  have hdigits : (d.digits : ℚ) ≤ 10 ^ (width d.digits : Int) := by
    rw [zpow_natCast]
    exact_mod_cast (lt_ten_pow_width d.digits).le
  have hsmall : d.value ≤ 1 / 10 ^ 351 :=
    calc d.value ≤ 10 ^ (width d.digits : Int) * 10 ^ d.exponent :=
          mul_le_mul_of_nonneg_right hdigits (by positivity)
      _ = (10 : ℚ) ^ (width d.digits + d.exponent) := (zpow_add₀ (by norm_num) _ _).symm
      _ ≤ (10 : ℚ) ^ (-351 : Int) := zpow_le_zpow_right₀ (by norm_num) (by omega)
      _ = 1 / 10 ^ 351 := by rw [zpow_neg, zpow_ofNat, one_div]
  have hunit : 2 * (Double.unit : ℚ) ≤ 10 ^ 351 := by
    rw [Double.unit_eq]
    exact_mod_cast (show 2 * 2 ^ 1074 ≤ 10 ^ 351 by decide +kernel)
  have hpos := Double.unit_pos
  calc 2 * d.value ≤ 2 * (1 / 10 ^ 351) := by gcongr
    _ ≤ 1 / Double.unit := by
      rw [mul_one_div, div_le_div_iff₀ (by positivity) hpos, one_mul]
      exact hunit

theorem cast_pow_ten (e : Nat) : ((Nat.pow 10 e : Nat) : ℚ) = 10 ^ e := by
  rw [Nat.pow_eq, Nat.cast_pow, Nat.cast_ofNat]

theorem value_of_nonneg {d : Decimal} (h : 0 ≤ d.exponent) :
    d.value = (d.digits * Nat.pow 10 d.exponent.toNat : Nat) / (1 : Nat) := by
  obtain ⟨e, he⟩ := Int.eq_ofNat_of_zero_le h
  rw [value, he, Int.toNat_natCast, zpow_natCast, Nat.cast_mul, cast_pow_ten, Nat.cast_one, div_one]

theorem value_of_neg {d : Decimal} (h : d.exponent < 0) :
    d.value = d.digits / (Nat.pow 10 (-d.exponent).toNat : Nat) := by
  obtain ⟨e, he⟩ := Int.eq_ofNat_of_zero_le (show 0 ≤ -d.exponent by omega)
  rw [value, he, Int.toNat_natCast, cast_pow_ten, show d.exponent = -e by omega, zpow_neg,
    zpow_natCast, div_eq_mul_inv]

/-- A decimal is read as the double nearest to it. -/
theorem isNearest_toDouble (negative : Bool) (d : Decimal) :
    IsNearest negative d.value (d.toDouble negative) := by
  have hpos := Double.unit_pos
  unfold toDouble
  split
  · next hzero =>
    have hvalue : d.value = 0 := by rw [value, hzero, Nat.cast_zero, zero_mul]
    rw [hvalue]
    exact Double.isNearest_zero negative le_rfl (by rw [mul_zero]; positivity)
  · next hdigits =>
    split
    · next hlarge => exact Double.isNearest_infinity negative (le_value hdigits hlarge)
    · split
      · next hsmall =>
        apply Double.isNearest_zero negative _ (two_mul_value_le hsmall)
        unfold value
        positivity
      · split
        · next hexponent =>
          rw [value_of_nonneg hexponent]
          exact Double.isNearest_ofQuotient negative _ (by decide)
        · next hexponent =>
          rw [value_of_neg (by omega)]
          exact Double.isNearest_ofQuotient negative _ (Nat.pow_pos (by decide))

end LazyConfig.Decimal
