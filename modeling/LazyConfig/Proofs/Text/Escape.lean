-- Escapes undo each other: what is written between quotes is read back as the text that was
-- written.
-- Main statement: the contents of a quoted text stand for the text.
import LazyConfig.Text.Escape

namespace LazyConfig.Escape

/-! ## Hexadecimal digits -/

theorem hexValue?_digitChar {d : Nat} (h : d < 16) : hexValue? d.digitChar = some d := by
  have hall : ∀ d : Fin 16, hexValue? (Nat.digitChar d) = some d.val := by decide
  exact hall ⟨d, h⟩

/-- Two digits are enough for a byte, and zeros fill up what is missing. -/
theorem toList_zeroFilled {n : Nat} (h : n < 256) (zeros : Nat) :
    (zeroFilled (zeros + 2) (lowerDigits 16 n)).toList =
      List.replicate zeros '0' ++ [(n / 16).digitChar, (n % 16).digitChar] := by
  unfold zeroFilled lowerDigits
  by_cases hn : n < 16
  · rw [Nat.toDigits_of_lt_base hn, Nat.div_eq_of_lt hn, Nat.mod_eq_of_lt hn]
    simp [List.replicate_succ']
  · rw [Nat.toDigits_of_base_le (by decide) (by omega), Nat.toDigits_of_lt_base (by omega)]
    simp

theorem toList_fourDigits {n : Nat} (h : n < 256) :
    (zeroFilled 4 (lowerDigits 16 n)).toList =
      ['0', '0', (n / 16).digitChar, (n % 16).digitChar] := toList_zeroFilled h 2

/-! ## One character -/

/-- An escape is read, and then what follows it. -/
theorem unescapeFrom_escape {position : Nat} {body rest : List Char} {found : Option Char}
    (h : read position (body ++ rest) = .ok (found, body.length)) :
    unescapeFrom position ('\\' :: (body ++ rest)) =
      (unescapeFrom (position + 1 + body.length) rest).map (found.toList ++ ·) := by
  rw [unescapeFrom, if_pos rfl, h]
  simp only [List.drop_left]

theorem unescapeFrom_cons {c : Char} (h : c ≠ '\\') (position : Nat) (rest : List Char) :
    unescapeFrom position (c :: rest) =
      (unescapeFrom (position + c.utf8Size) rest).map (c :: ·) := by
  rw [unescapeFrom, if_neg h]

theorem read_fourDigits {c : Char} (h : c.toNat < 256) (position : Nat) (rest : List Char) :
    read position ('u' :: (zeroFilled 4 (lowerDigits 16 c.toNat)).toList ++ rest) =
      .ok (some c, 5) := by
  have hvalue : c.toNat / 16 * 16 + c.toNat % 16 = c.toNat := Nat.div_add_mod' c.toNat 16
  have hhigh := hexValue?_digitChar (show c.toNat / 16 < 16 by omega)
  have hlow := hexValue?_digitChar (show c.toNat % 16 < 16 by omega)
  have hzero : hexValue? '0' = some 0 := by decide
  have hchar : Utf8.scalar? c.toNat = some c := by
    have hvalid : c.toNat.isValidChar := c.valid
    simp [Utf8.scalar?, hvalid]
  rw [toList_fourDigits h]
  simp [read, readDigits, hhigh, hlow, hzero, hvalue, named, hchar, bind, Except.bind]

/-- What a written character is followed by is read after the character itself. -/
theorem unescapeFrom_writeChar (c : Char) (position : Nat) (rest : List Char) :
    ∃ position', unescapeFrom position (writeChar c ++ rest) =
      (unescapeFrom position' rest).map (c :: ·) := by
  have hshort : ∀ x : Char, read position ([x] ++ rest) = .ok (some c, 1) →
      ∃ position', unescapeFrom position (['\\', x] ++ rest) =
        (unescapeFrom position' rest).map (c :: ·) :=
    fun x h =>
      ⟨_, unescapeFrom_escape (show read position ([x] ++ rest) = .ok (some c, [x].length) from h)⟩
  unfold writeChar
  split
  · next h => exact hshort '"' (by rw [h]; rfl)
  split
  · next h => exact hshort '\\' (by rw [h]; rfl)
  split
  · next h => exact hshort 'n' (by rw [h]; rfl)
  split
  · next h => exact hshort 'r' (by rw [h]; rfl)
  split
  · next h => exact hshort 't' (by rw [h]; rfl)
  split
  · next h => exact hshort '0' (by rw [h]; rfl)
  split
  · next h =>
    have hsmall : c.toNat < 256 := by
      simp only [isControl, Bool.or_eq_true, Bool.and_eq_true, decide_eq_true_eq] at h
      omega
    have hread := read_fourDigits hsmall position rest
    exact ⟨_, unescapeFrom_escape (by rw [hread, toList_fourDigits hsmall]; rfl)⟩
  · next _ h _ _ _ _ _ => exact ⟨_, unescapeFrom_cons h position rest⟩

/-! ## A whole text -/

theorem unescapeFrom_written (cs : List Char) (position : Nat) :
    unescapeFrom position (cs.flatMap writeChar) = .ok cs := by
  induction cs generalizing position with
  | nil => simp [unescapeFrom]
  | cons c cs ih =>
    obtain ⟨position', h⟩ := unescapeFrom_writeChar c position (cs.flatMap writeChar)
    rw [List.flatMap_cons, h, ih]
    rfl

end LazyConfig.Escape
