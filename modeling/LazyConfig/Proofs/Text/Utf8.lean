-- What is decoded is what was encoded: a lead byte promises how many bytes follow, and the number
-- that they make up together is the number of the character.
-- Main statement: bytes decode to a text exactly when they are the bytes of the text.
import LazyConfig.Text.Utf8
import Mathlib.Data.List.Basic
import Mathlib.Tactic.SplitIfs

namespace LazyConfig.Utf8

/-! ## Bytes by their numbers -/

theorem isContinuation_iff (b : UInt8) :
    isContinuation b = true ↔ 0x80 ≤ b.toNat ∧ b.toNat < 0xC0 := by
  simp only [isContinuation, Bool.and_eq_true, decide_eq_true_eq, UInt8.le_iff_toNat_le,
    UInt8.lt_iff_toNat_lt]
  rfl

theorem lead?_eq (b : UInt8) : lead? b =
    if b.toNat < 0x80 then some ⟨0, b.toNat, 0⟩
    else if b.toNat < 0xC0 then none
    else if b.toNat < 0xE0 then some ⟨1, b.toNat - 0xC0, 0x80⟩
    else if b.toNat < 0xF0 then some ⟨2, b.toNat - 0xE0, 0x800⟩
    else if b.toNat < 0xF8 then some ⟨3, b.toNat - 0xF0, 0x10000⟩
    else none := by
  simp only [lead?, UInt8.lt_iff_toNat_lt]
  rfl

theorem ofNat_eq_iff {n : Nat} {b : UInt8} (h : n < 256) : UInt8.ofNat n = b ↔ n = b.toNat := by
  rw [← UInt8.toNat_inj, UInt8.toNat_ofNat', Nat.mod_eq_of_lt h]

theorem toNat_lt (c : Char) : c.toNat < 0x110000 := by
  have h : c.toNat.isValidChar := c.valid
  simp only [Nat.isValidChar] at h
  omega

theorem scalar?_eq_some {n : Nat} {c : Char} : scalar? n = some c ↔ c.toNat = n := by
  unfold scalar?
  split
  · next h =>
    rw [Option.some.injEq]
    constructor
    · rintro rfl
      rw [Char.ofNat, dif_pos h]
      rfl
    · rintro rfl
      exact Char.ofNat_toNat c
  · next h =>
    simp only [reduceCtorEq, false_iff]
    rintro rfl
    exact h c.valid

/-- The number that continuation bytes make up after the bits of their lead. -/
def joined (bits : Nat) (tail : Bytes) : Nat :=
  tail.foldl (fun n b => n * 64 + (b.toNat - 0x80)) bits

theorem accumulate_eq_ok {offset bits n : Nat} {tail : Bytes} :
    accumulate offset bits tail = .ok n ↔
      (∀ b ∈ tail, isContinuation b = true) ∧ joined bits tail = n := by
  induction tail generalizing offset bits with
  | nil => simp [accumulate, joined]
  | cons b tail ih =>
    rw [accumulate]
    by_cases h : isContinuation b = true
    · simp [ih, h, joined]
    · simp [h]

/-! ## One character -/

/-- The bytes write the character: as many follow as the lead byte promises, and the number that
they make up needs them all. -/
structure Encodes (b : UInt8) (tail : Bytes) (lead : Lead) (c : Char) : Prop where
  lead_eq : lead? b = some lead
  length_eq : tail.length = lead.extra
  continues : ∀ b' ∈ tail, isContinuation b' = true
  joined_eq : joined lead.bits tail = c.toNat
  least_le : lead.least ≤ c.toNat

variable {offset : Nat} {b : UInt8} {tail : Bytes} {lead : Lead} {c : Char}

theorem Encodes.starts (h : Encodes b tail lead c) : isContinuation b = false := by
  have hlead := h.lead_eq
  rw [lead?_eq] at hlead
  rw [← Bool.not_eq_true, isContinuation_iff]
  rintro ⟨hlow, hhigh⟩
  rw [if_neg (by omega), if_pos hhigh] at hlead
  cases hlead

theorem decodeFirst_of_encodes (h : Encodes b tail lead c) (rest : Bytes) :
    decodeFirst offset b (tail ++ rest) = .ok c := by
  have htake : (tail ++ rest).take lead.extra = tail := by rw [← h.length_eq, List.take_left]
  have hvalue : accumulate (offset + 1) lead.bits tail = .ok c.toNat :=
    accumulate_eq_ok.mpr ⟨h.continues, h.joined_eq⟩
  have hchar : scalar? c.toNat = some c := scalar?_eq_some.mpr rfl
  simp only [decodeFirst, h.lead_eq, htake, h.length_eq, Nat.lt_irrefl, if_false, hvalue, bind,
    Except.bind, Nat.not_lt.mpr h.least_le, hchar]

theorem encodes_of_decodeFirst {after : Bytes} (h : decodeFirst offset b after = .ok c) :
    ∃ lead tail rest, after = tail ++ rest ∧ Encodes b tail lead c := by
  unfold decodeFirst at h
  cases hlead : lead? b with
  | none => simp [hlead] at h
  | some lead =>
    simp only [hlead] at h
    split at h
    · cases h
    · next hlen =>
      cases hvalue : accumulate (offset + 1) lead.bits (after.take lead.extra) with
      | error e =>
        rw [hvalue] at h
        cases h
      | ok value =>
        rw [hvalue] at h
        simp only [bind, Except.bind] at h
        obtain ⟨hcont, hjoined⟩ := accumulate_eq_ok.mp hvalue
        split at h
        · cases h
        · next hleast =>
          split at h
          · next d hd =>
            cases h
            have hc := scalar?_eq_some.mp hd
            rw [List.length_take] at hlen
            refine ⟨lead, after.take lead.extra, after.drop lead.extra,
              (List.take_append_drop _ _).symm, hlead, ?_, hcont, hjoined.trans hc.symm, ?_⟩
            · rw [List.length_take]
              omega
            · omega
          · cases h

/-- The bytes that write a character are those that it is encoded in. -/
theorem Encodes.encode_eq (h : Encodes b tail lead c) : String.utf8EncodeChar c = b :: tail := by
  obtain ⟨hlead, hlen, hcont, hjoined, hleast⟩ := h
  have hlt := toNat_lt c
  have hnum : c.val.toNat = c.toNat := rfl
  rw [lead?_eq] at hlead
  simp only [isContinuation_iff] at hcont
  unfold String.utf8EncodeChar
  simp only [hnum]
  -- One case for each length, in which the bytes have names and the rest is arithmetic.
  split_ifs at hlead <;> cases hlead
  · obtain rfl := List.length_eq_zero_iff.mp hlen
    simp only [joined, List.foldl_nil] at hjoined
    rw [if_pos (by omega), List.cons.injEq, ofNat_eq_iff (by omega)]
    exact ⟨hjoined.symm, rfl⟩
  · obtain ⟨t, rfl⟩ := List.length_eq_one_iff.mp hlen
    simp only [joined, List.foldl_cons, List.foldl_nil, List.mem_singleton, forall_eq] at *
    rw [if_neg (by omega), if_pos (by omega)]
    simp only [List.cons.injEq, and_true]
    rw [ofNat_eq_iff (by omega), ofNat_eq_iff (by omega)]
    omega
  · obtain ⟨t, u, rfl⟩ := List.length_eq_two.mp hlen
    simp only [joined, List.foldl_cons, List.foldl_nil, List.mem_cons, List.not_mem_nil, or_false,
      forall_eq_or_imp, forall_eq] at *
    rw [if_neg (by omega), if_neg (by omega), if_pos (by omega)]
    simp only [List.cons.injEq, and_true]
    rw [ofNat_eq_iff (by omega), ofNat_eq_iff (by omega), ofNat_eq_iff (by omega)]
    omega
  · obtain ⟨t, u, v, rfl⟩ := List.length_eq_three.mp hlen
    simp only [joined, List.foldl_cons, List.foldl_nil, List.mem_cons, List.not_mem_nil, or_false,
      forall_eq_or_imp, forall_eq] at *
    rw [if_neg (by omega), if_neg (by omega), if_neg (by omega)]
    simp only [List.cons.injEq, and_true]
    rw [ofNat_eq_iff (by omega), ofNat_eq_iff (by omega), ofNat_eq_iff (by omega),
      ofNat_eq_iff (by omega)]
    omega

/-- A character is encoded in bytes that write it. -/
theorem exists_encodes (c : Char) :
    ∃ b tail lead, String.utf8EncodeChar c = b :: tail ∧ Encodes b tail lead c := by
  have hlt := toNat_lt c
  have hnum : c.val.toNat = c.toNat := rfl
  have hbyte : ∀ n < 256, (UInt8.ofNat n).toNat = n := fun n hn =>
    ((ofNat_eq_iff hn).mp rfl).symm
  unfold String.utf8EncodeChar
  simp only [hnum]
  -- Again one case for each length.
  split_ifs
  · refine ⟨_, _, ⟨0, c.toNat, 0⟩, rfl, ?_, rfl, by simp, rfl, Nat.zero_le _⟩
    rw [lead?_eq, hbyte _ (by omega), if_pos (by omega)]
  · refine ⟨_, _, ⟨1, c.toNat / 64 % 32, 0x80⟩, rfl, ?_, rfl, ?_, ?_, ?_⟩
    · rw [lead?_eq, hbyte _ (by omega), if_neg (by omega), if_neg (by omega), if_pos (by omega)]
      simp
    · simp only [List.mem_singleton, forall_eq, isContinuation_iff]
      rw [hbyte _ (by omega)]
      omega
    · simp only [joined, List.foldl_cons, List.foldl_nil]
      rw [hbyte _ (by omega)]
      omega
    · show 0x80 ≤ c.toNat
      omega
  · refine ⟨_, _, ⟨2, c.toNat / 4096 % 16, 0x800⟩, rfl, ?_, rfl, ?_, ?_, ?_⟩
    · rw [lead?_eq, hbyte _ (by omega), if_neg (by omega), if_neg (by omega), if_neg (by omega),
        if_pos (by omega)]
      simp
    · simp only [List.mem_cons, List.not_mem_nil, or_false, forall_eq_or_imp, forall_eq,
        isContinuation_iff]
      rw [hbyte _ (by omega), hbyte _ (by omega)]
      omega
    · simp only [joined, List.foldl_cons, List.foldl_nil]
      rw [hbyte _ (by omega), hbyte _ (by omega)]
      omega
    · show 0x800 ≤ c.toNat
      omega
  · refine ⟨_, _, ⟨3, c.toNat / 262144 % 8, 0x10000⟩, rfl, ?_, rfl, ?_, ?_, ?_⟩
    · rw [lead?_eq, hbyte _ (by omega), if_neg (by omega), if_neg (by omega), if_neg (by omega),
        if_neg (by omega), if_pos (by omega)]
      simp
    · simp only [List.mem_cons, List.not_mem_nil, or_false, forall_eq_or_imp, forall_eq,
        isContinuation_iff]
      rw [hbyte _ (by omega), hbyte _ (by omega), hbyte _ (by omega)]
      omega
    · simp only [joined, List.foldl_cons, List.foldl_nil]
      rw [hbyte _ (by omega), hbyte _ (by omega), hbyte _ (by omega)]
      omega
    · show 0x10000 ≤ c.toNat
      omega

/-- Bytes start with a character exactly when they start with its encoding. -/
theorem decodeFirst_eq_ok {after : Bytes} :
    decodeFirst offset b after = .ok c ↔ String.utf8EncodeChar c <+: b :: after := by
  constructor
  · intro h
    obtain ⟨lead, tail, rest, rfl, henc⟩ := encodes_of_decodeFirst h
    rw [henc.encode_eq]
    exact ⟨rest, rfl⟩
  · rintro ⟨rest, hrest⟩
    obtain ⟨b', tail, lead, hbytes, henc⟩ := exists_encodes c
    rw [hbytes] at hrest
    obtain ⟨rfl, rfl⟩ := List.cons.inj hrest
    exact decodeFirst_of_encodes henc rest

/-! ## A whole text -/

theorem width_append (xs ys : List Char) : width (xs ++ ys) = width xs + width ys := by
  simp only [← length_encodeChars, encodeChars_append, List.length_append]

theorem Encodes.drop_eq (h : Encodes b tail lead c) (rest : Bytes) :
    (tail ++ rest).drop (c.utf8Size - 1) = rest := by
  have hsize : c.utf8Size - 1 = tail.length := by
    rw [← String.length_utf8EncodeChar, h.encode_eq]
    rfl
  rw [hsize, List.drop_left]

theorem decodeFrom_encodeChars (offset : Nat) (cs : List Char) :
    decodeFrom offset (encodeChars cs) = .ok cs := by
  induction cs generalizing offset with
  | nil => simp [encodeChars_nil, decodeFrom]
  | cons c cs ih =>
    obtain ⟨b, tail, lead, hbytes, h⟩ := exists_encodes c
    rw [encodeChars_cons, hbytes, List.cons_append, decodeFrom, decodeFirst_of_encodes h]
    simp only [h.drop_eq, ih]
    rfl

/-- Bytes decode to a text exactly when they are its bytes. -/
theorem decodeFrom_eq_ok {bytes : Bytes} {cs : List Char} :
    decodeFrom offset bytes = .ok cs ↔ bytes = encodeChars cs := by
  constructor
  · intro h
    fun_induction decodeFrom offset bytes generalizing cs with
    | case1 =>
      cases h
      rfl
    | case2 => cases h
    | case3 offset b bs c hc ih =>
      obtain ⟨lead, tail, rest, rfl, henc⟩ := encodes_of_decodeFirst hc
      rw [henc.drop_eq] at h ih
      cases hrest : decodeFrom (offset + c.utf8Size) rest with
      | error e =>
        rw [hrest] at h
        cases h
      | ok ds =>
        rw [hrest] at h
        cases h
        rw [encodeChars_cons, henc.encode_eq, ← ih hrest, List.cons_append]
  · rintro rfl
    exact decodeFrom_encodeChars offset cs

end LazyConfig.Utf8
