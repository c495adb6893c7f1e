-- Doubles and their bits. A pattern that is no NaN is the bits of the double that is made of it,
-- and the negative of a double has the same size and the other sign.
-- What the library has on the model of floats comes only with all of it.
-- Main statements: the bits of a double that is made of a sign and a size, and its negative.
import Mathlib
import LazyConfig.Number.Double

namespace LazyConfig.Double

open Float.Model (Format UnpackedFloat)
open Float.Model.UnpackedFloat

/-! ## Patterns -/

/-- The pattern of a sign and a size. -/
def pattern (negative : Bool) (size : Nat) : Nat := if negative then signBit + size else size

/-- A sign, as the model of floats takes it. -/
def modelSign (negative : Bool) : Sign := if negative then .negative else .positive

/-- A pattern by its parts, as the model of floats takes them. -/
def components (negative : Bool) (size : Nat) : BitVec Format.binary64.numBits :=
  packComponents .binary64 (modelSign negative) (BitVec.ofNat _ (size / hiddenBit))
    (BitVec.ofNat _ (size % hiddenBit))

variable (negative : Bool) {size : Nat}

theorem pattern_lt (h : size < signBit) : pattern negative size < 2 ^ 64 := by
  unfold pattern signBit at *
  split <;> omega

theorem toNat_components (h : size < signBit) :
    (components negative size).toNat = pattern negative size := by
  have hexponent : size / hiddenBit < 2048 := by
    simp only [signBit, hiddenBit] at *
    omega
  have hmantissa : size % hiddenBit < 2 ^ 52 := Nat.mod_lt _ (by decide)
  have hparts := Nat.div_add_mod size hiddenBit
  have hsign : (modelSign negative).toBitVec.toNat = if negative then 1 else 0 := by
    cases negative <;> rfl
  have htoNat : (components negative size).toNat =
      ((if negative then 1 else 0) * 2048 + size / hiddenBit) * 2 ^ 52 + size % hiddenBit := by
    simp only [components, packComponents, BitVec.toNat_append, BitVec.toNat_ofNat, hsign]
    rw [Nat.mod_eq_of_lt hmantissa, Nat.mod_eq_of_lt hexponent,
      ← Nat.shiftLeft_add_eq_or_of_lt hmantissa, ← Nat.shiftLeft_add_eq_or_of_lt hexponent,
      Nat.shiftLeft_eq, Nat.shiftLeft_eq]
  rw [htoNat]
  unfold pattern signBit
  simp only [hiddenBit] at *
  split <;> omega

theorem toBitVec_pattern (h : size < signBit) :
    (UInt64.ofNat (pattern negative size)).toBitVec = components negative size := by
  apply BitVec.eq_of_toNat_eq
  rw [toNat_components negative h]
  exact Nat.mod_eq_of_lt (pattern_lt negative h)

/-- An exponent of all ones is that of infinity. -/
theorem exponent_eq_neg_one (h : size ≤ infinityBits)
    (hexponent : BitVec.ofNat Format.binary64.exponentBits (size / hiddenBit) = -1#_) :
    size = infinityBits := by
  have htoNat : size / hiddenBit % 2048 = 2047 := congrArg BitVec.toNat hexponent
  unfold infinityBits at *
  simp only [hiddenBit] at *
  omega

theorem isNaNBits_components (h : size ≤ infinityBits) :
    isNaNBits (components negative size) = false := by
  unfold isNaNBits components
  rw [unpackExponent_packComponents, unpackMantissa_packComponents, decide_eq_false_iff_not]
  rintro ⟨hexponent, hmantissa⟩
  apply hmantissa
  rw [exponent_eq_neg_one h hexponent]
  rfl

theorem neg_unpack_components (h : size ≤ infinityBits) :
    (unpack .binary64 (components negative size)).neg =
      unpack .binary64 (components (!negative) size) := by
  have hsign : -modelSign negative = modelSign (!negative) := by cases negative <;> rfl
  unfold unpack components
  simp only [unpackExponent_packComponents, unpackMantissa_packComponents,
    unpackSign_packComponents, Sign.ofBitVec_toBitVec]
  split
  · next hexponent =>
    have hmantissa :
        BitVec.ofNat Format.binary64.mantissaBitsWithoutImplicit (size % hiddenBit) = 0#_ := by
      rw [exponent_eq_neg_one h hexponent]
      rfl
    rw [if_pos hmantissa, if_pos hmantissa, neg, hsign]
  · split
    · split <;> rw [neg, hsign]
    · rw [neg, hsign]

/-! ## Doubles that are made of their size -/

theorem infinityBits_lt : infinityBits < signBit := by decide

theorem toModel_ofSize (h : size ≤ infinityBits) :
    (ofSize negative size).toModel.toBits = UInt64.ofNat (pattern negative size) := by
  have hbits := toBitVec_pattern negative (Nat.lt_of_le_of_lt h infinityBits_lt)
  show UInt64.ofBitVec (pack .binary64
    (unpack .binary64 (UInt64.ofNat (pattern negative size)).toBitVec)) = _
  rw [hbits, pack_unpack, isNaNBits_components _ h]
  simp [← hbits]

/-- The bits of a double that is made of a sign and a size. -/
theorem toBits_ofSize (h : size ≤ infinityBits) :
    (ofSize negative size).toBits.toNat = pattern negative size := by
  show (ofSize negative size).toModel.toBits.toNat = _
  rw [toModel_ofSize _ h, UInt64.toNat_ofNat']
  exact Nat.mod_eq_of_lt (pattern_lt negative (Nat.lt_of_le_of_lt h infinityBits_lt))

/-- The negative of a double has the other sign. -/
theorem neg_ofSize (h : size ≤ infinityBits) : -ofSize negative size = ofSize (!negative) size := by
  have hsize := Nat.lt_of_le_of_lt h infinityBits_lt
  have hbits := toBitVec_pattern negative hsize
  have hbits' := toBitVec_pattern (!negative) hsize
  rw [← Float.toBits_inj]
  show UInt64.ofBitVec (pack .binary64
    (unpack .binary64 (ofSize negative size).toModel.toBits.toBitVec).neg) =
      (ofSize (!negative) size).toModel.toBits
  rw [toModel_ofSize _ h, toModel_ofSize _ h, hbits, neg_unpack_components _ h, pack_unpack,
    isNaNBits_components _ h]
  simp [← hbits']

end LazyConfig.Double
