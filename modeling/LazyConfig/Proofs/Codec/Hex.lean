-- Bytes as hexadecimal digits, written and read.
-- Main statement: the digits of bytes are read back as the bytes.
import LazyConfig.Codec.Blob
import LazyConfig.Proofs.Text.Escape
import LazyConfig.Proofs.Text.Utf8

namespace LazyConfig.Hex

/-- The byte that is a digit. -/
def digitByte (d : Nat) : UInt8 := UInt8.ofNat d.digitChar.toNat

theorem encodeChars_digitChar {d : Nat} (h : d < 16) :
    Utf8.encodeChars [d.digitChar] = [digitByte d] := by
  have hall : ∀ d : Fin 16, Utf8.encodeChars [Nat.digitChar d] = [digitByte d] := by decide
  exact hall ⟨d, h⟩

theorem digit?_digitByte {d : Nat} (h : d < 16) : digit? (digitByte d) = some d := by
  have hall : ∀ d : Fin 16, digit? (digitByte d) = some d.val := by decide
  exact hall ⟨d, h⟩

theorem toList_byteHex (b : UInt8) :
    (byteHex b).toList = [(b.toNat / 16).digitChar, (b.toNat % 16).digitChar] :=
  Escape.toList_zeroFilled b.toNat_lt 0

theorem toList_encode (bytes : Bytes) :
    (encode bytes).toList =
      bytes.flatMap fun b => [(b.toNat / 16).digitChar, (b.toNat % 16).digitChar] := by
  simp [encode, String.toList_join, List.flatMap_def, List.map_map, Function.comp_def,
    toList_byteHex]

theorem encodeChars_encode (bytes : Bytes) :
    Utf8.encodeChars (encode bytes).toList =
      bytes.flatMap fun b => [digitByte (b.toNat / 16), digitByte (b.toNat % 16)] := by
  rw [toList_encode]
  induction bytes with
  | nil => rfl
  | cons b bytes ih =>
    have hb := b.toNat_lt
    have hhigh := encodeChars_digitChar (show b.toNat / 16 < 16 by omega)
    have hlow := encodeChars_digitChar (show b.toNat % 16 < 16 by omega)
    simp only [List.flatMap_cons, Utf8.encodeChars_append, ih]
    rw [← List.singleton_append, Utf8.encodeChars_append, hhigh, hlow]
    rfl

theorem pairs_digits (bytes : Bytes) (offset : Nat) :
    pairs offset (bytes.flatMap fun b => [digitByte (b.toNat / 16), digitByte (b.toNat % 16)]) =
      .ok bytes := by
  induction bytes generalizing offset with
  | nil => rfl
  | cons b bytes ih =>
    have hb := b.toNat_lt
    have hhigh := digit?_digitByte (show b.toNat / 16 < 16 by omega)
    have hlow := digit?_digitByte (show b.toNat % 16 < 16 by omega)
    have hbyte : UInt8.ofNat (16 * (b.toNat / 16) + b.toNat % 16) = b := by
      rw [Nat.div_add_mod, UInt8.ofNat_toNat]
    simp only [List.flatMap_cons, List.cons_append, List.nil_append, pairs, hhigh, hlow, ih, hbyte]
    rfl

/-- The digits of bytes are read back as the bytes. -/
theorem decode_encode (bytes : Bytes) : decode (encode bytes) = .ok bytes := by
  have hlength : (Utf8.encode (encode bytes)).length % 2 = 0 := by
    rw [Utf8.encode, encodeChars_encode, List.length_flatMap]
    simp [Nat.mul_mod_left]
  unfold decode
  rw [if_neg (by omega), Utf8.encode, encodeChars_encode, pairs_digits]

/-- The digits of bytes may stand in a blob. -/
theorem allows_encode (bytes : Bytes) :
    ∀ c ∈ (encode bytes).toList, BlobForm.b16.allows c = true := by
  have hall : ∀ d < 16, BlobForm.b16.allows (Nat.digitChar d) = true := by decide
  intro c hc
  rw [toList_encode, List.mem_flatMap] at hc
  obtain ⟨b, -, hc⟩ := hc
  have hb := b.toNat_lt
  simp only [List.mem_cons, List.not_mem_nil, or_false] at hc
  rcases hc with rfl | rfl
  · exact hall _ (by omega)
  · exact hall _ (by omega)

end LazyConfig.Hex
