-- Bytes that may be malformed: where decoding them fails, and how they are shown. The replacement
-- character takes as many bytes as the longest broken character, so nothing gets shorter.
-- Main statements: the valid bytes at the front of a text are decoded and shown as they are, and
-- bytes are shown in no fewer bytes.
import LazyConfig.Proofs.Text.Utf8

namespace LazyConfig.Utf8

variable {offset : Nat} {b : UInt8} {after : Bytes} {e : DecodeError}

/-! ## Where decoding fails -/

theorem offset_of_accumulate {value : Nat} {tail : Bytes}
    (h : accumulate offset value tail = .error e) :
    offset ≤ e.offset ∧ e.offset < offset + tail.length := by
  induction tail generalizing offset value with
  | nil => cases h
  | cons b tail ih =>
    rw [accumulate] at h
    rw [List.length_cons]
    split at h
    · have := ih h
      omega
    · cases h
      show offset ≤ offset ∧ offset < offset + (tail.length + 1)
      omega

/-- A character fails where it starts or at a byte after that. -/
theorem offset_of_decodeFirst (h : decodeFirst offset b after = .error e) :
    offset ≤ e.offset ∧ e.offset ≤ offset + after.length := by
  have hstart : offset ≤ offset ∧ offset ≤ offset + after.length := by omega
  unfold decodeFirst at h
  split at h
  · cases h
    exact hstart
  · next lead _ =>
    dsimp only at h
    split at h
    · cases h
      exact hstart
    · cases hvalue : accumulate (offset + 1) lead.bits (after.take lead.extra) with
      | error e' =>
        rw [hvalue] at h
        cases h
        have hwithin := offset_of_accumulate hvalue
        have hlen := List.length_take_le' lead.extra after
        omega
      | ok value =>
        rw [hvalue] at h
        simp only [bind, Except.bind] at h
        split at h
        · cases h
          exact hstart
        · split at h
          · cases h
          · cases h
            exact hstart

/-- The first character of a text is decoded, and what follows it is what its encoding leaves. -/
theorem exists_cons_of_encodeChars (c : Char) (cs : List Char) (rest : Bytes) :
    ∃ b after, encodeChars (c :: cs) ++ rest = b :: after ∧
      (∀ offset, decodeFirst offset b after = .ok c) ∧
      after.drop (c.utf8Size - 1) = encodeChars cs ++ rest := by
  obtain ⟨b, tail, lead, hbytes, henc⟩ := exists_encodes c
  refine ⟨b, tail ++ (encodeChars cs ++ rest), ?_, fun offset => decodeFirst_of_encodes henc _,
    henc.drop_eq _⟩
  rw [encodeChars_cons, hbytes]
  simp

theorem offset_of_decodeFrom {bytes : Bytes} {n : Nat} (h : decodeFrom offset bytes = .error n) :
    offset ≤ n ∧ n ≤ offset + bytes.length := by
  fun_induction decodeFrom offset bytes with
  | case1 => cases h
  | case2 offset b bs e he =>
    cases h
    omega
  | case3 offset b bs c hc ih =>
    have hsize : c.utf8Size - 1 ≤ bs.length := by
      obtain ⟨lead, tail, rest, rfl, henc⟩ := encodes_of_decodeFirst hc
      rw [← String.length_utf8EncodeChar, henc.encode_eq]
      simp
    cases hmore : decodeFrom (offset + c.utf8Size) (bs.drop (c.utf8Size - 1)) with
    | ok ds =>
      rw [hmore] at h
      cases h
    | error m =>
      rw [hmore] at h
      cases h
      have hwithin := ih hmore
      have hpos := c.utf8Size_pos
      rw [List.length_drop] at hwithin
      rw [List.length_cons]
      omega

/-- No character fails before the valid bytes at the front end. -/
theorem le_of_decodeFrom {cs : List Char} {rest : Bytes} {n : Nat}
    (h : decodeFrom offset (encodeChars cs ++ rest) = .error n) : offset + width cs ≤ n := by
  induction cs generalizing offset with
  | nil => exact (offset_of_decodeFrom h).1
  | cons c cs ih =>
    obtain ⟨b, after, hbytes, hfirst, hdrop⟩ := exists_cons_of_encodeChars c cs rest
    rw [hbytes, decodeFrom, hfirst offset] at h
    dsimp only at h
    rw [hdrop] at h
    cases hmore : decodeFrom (offset + c.utf8Size) (encodeChars cs ++ rest) with
    | ok ds =>
      rw [hmore] at h
      cases h
    | error m =>
      rw [hmore] at h
      cases h
      have := ih hmore
      rw [width_cons]
      omega

/-! ## What is shown -/

theorem showChars_append (cs : List Char) (rest : Bytes) :
    showChars (encodeChars cs ++ rest) = cs ++ showChars rest := by
  induction cs with
  | nil => rfl
  | cons c cs ih =>
    obtain ⟨b, after, hbytes, hfirst, hdrop⟩ := exists_cons_of_encodeChars c cs rest
    rw [hbytes, showChars, hfirst 0]
    dsimp only
    rw [hdrop, ih, List.cons_append]

theorem showChars_encodeChars (cs : List Char) : showChars (encodeChars cs) = cs := by
  have h := showChars_append cs []
  rwa [List.append_nil, showChars, List.append_nil] at h

theorem brokenTail_le_two (b : UInt8) (after : Bytes) : brokenTail b after ≤ 2 := by
  unfold brokenTail
  repeat' split
  all_goals omega

/-- What is shown for bytes takes up as much room as the bytes. -/
theorem length_le_width_showChars (bytes : Bytes) : bytes.length ≤ width (showChars bytes) := by
  fun_induction showChars bytes with
  | case1 => exact Nat.le_refl _
  | case2 b bs c hc ih =>
    have hpos := c.utf8Size_pos
    rw [List.length_drop] at ih
    rw [List.length_cons, width_cons]
    omega
  | case3 b bs e he ih =>
    have hbroken := brokenTail_le_two b bs
    have hsize : '\uFFFD'.utf8Size = 3 := rfl
    rw [List.length_drop] at ih
    rw [List.length_cons, width_cons, hsize]
    omega

end LazyConfig.Utf8
