-- The glyphs of a valid text: one for each character, at the offset where its bytes start. On
-- them a reader is a matter of characters alone. It passes over some first characters, and the
-- rest are glyphs of a valid text again.
-- Main statements: the glyphs of the bytes of a text, and what an end piece of them is.
import LazyConfig.Proofs.Text.Utf8
import LazyConfig.Source.Lexer
import Mathlib.Data.List.TakeWhile

namespace LazyConfig.Lexer

open Utf8 (width encodeChars)

/-- The glyphs of characters, the first of which stands at `offset`. -/
def places (offset : Nat) : List Char → List Glyph
  | [] => []
  | c :: cs => ⟨offset, .ok c⟩ :: places (offset + c.utf8Size) cs

/-! ## The glyphs of a text -/

theorem glyphs_continuations (offset : Nat) {tail : Bytes}
    (h : ∀ b ∈ tail, Utf8.isContinuation b = true) (rest : Bytes) :
    glyphs offset (tail ++ rest) = glyphs (offset + tail.length) rest := by
  induction tail generalizing offset with
  | nil => rfl
  | cons b tail ih =>
    rw [List.cons_append, glyphs, if_pos (h b (by simp)), ih _ fun b' hb' => h b' (by simp [hb']),
      List.length_cons]
    congr 1
    omega

/-- The valid bytes at the front have a glyph for each character. -/
theorem glyphs_append (offset : Nat) (cs : List Char) (rest : Bytes) :
    glyphs offset (encodeChars cs ++ rest) =
    places offset cs ++ glyphs (offset + width cs) rest := by
  induction cs generalizing offset with
  | nil => rfl
  | cons c cs ih =>
    obtain ⟨b, tail, lead, hbytes, h⟩ := Utf8.exists_encodes c
    have hsize : offset + c.utf8Size = offset + 1 + tail.length := by
      rw [← String.length_utf8EncodeChar, hbytes, List.length_cons]
      omega
    rw [Utf8.encodeChars_cons, hbytes, List.cons_append, List.cons_append, glyphs, h.starts,
      List.append_assoc, Utf8.decodeFirst_of_encodes h,
      glyphs_continuations _ h.continues, ← hsize, ih, Utf8.width_cons, Nat.add_assoc]
    rfl

theorem glyphs_encodeChars (offset : Nat) (cs : List Char) :
    glyphs offset (encodeChars cs) = places offset cs := by
  have h := glyphs_append offset cs []
  rwa [glyphs, List.append_nil, List.append_nil] at h

/-! ## Reading what is there -/

section

variable (offset : Nat)

@[simp] theorem places_nil : places offset [] = [] := rfl

theorem places_cons (c : Char) (cs : List Char) :
    places offset (c :: cs) = ⟨offset, .ok c⟩ :: places (offset + c.utf8Size) cs := rfl

theorem places_append (w rest : List Char) :
    places offset (w ++ rest) = places offset w ++ places (offset + width w) rest := by
  induction w generalizing offset with
  | nil => simp
  | cons c w ih => simp [places_cons, ih, Nat.add_assoc]

theorem length_places (cs : List Char) : (places offset cs).length = cs.length := by
  induction cs generalizing offset with
  | nil => rfl
  | cons c cs ih => simp [places_cons, ih]

@[simp] theorem peek_places (cs : List Char) : peek (places offset cs) = .ok cs.head? := by
  cases cs <;> rfl

theorem chars_places (cs : List Char) : chars (places offset cs) = cs := by
  induction cs generalizing offset with
  | nil => rfl
  | cons c cs ih =>
    rw [places_cons, chars, List.filterMap_cons]
    exact congrArg (c :: ·) (ih _)

/-- What is taken of a text is its first characters. -/
theorem chars_taken_places (w rest : List Char) :
    chars (taken (places offset (w ++ rest)) (places (offset + width w) rest)) = w := by
  have hlen : (places offset (w ++ rest)).length - (places (offset + width w) rest).length =
      (places offset w).length := by
    simp only [length_places, List.length_append]
    omega
  rw [taken, hlen, places_append, List.take_left, chars_places]

theorem skipWhile_places (p : Char → Bool) (cs : List Char) :
    skipWhile p (places offset cs) =
      .ok (places (offset + width (cs.takeWhile p)) (cs.dropWhile p)) := by
  induction cs generalizing offset with
  | nil => rfl
  | cons c cs ih =>
    cases hp : p c with
    | true => simp [places_cons, skipWhile, hp, ih, Nat.add_assoc]
    | false => simp [places_cons, skipWhile, hp]

end

/-! ## What comes next -/

/-- The text does not start with a character of a class. -/
def Avoids (p : Char → Bool) (rest : List Char) : Prop := ∀ c ∈ rest.head?, p c = false

theorem avoids_nil (p : Char → Bool) : Avoids p [] := by simp [Avoids]

theorem avoids_cons {p : Char → Bool} {c : Char} {rest : List Char} :
    Avoids p (c :: rest) ↔ p c = false := by simp [Avoids]

theorem Avoids.mono {p q : Char → Bool} {rest : List Char} (h : Avoids q rest)
    (hpq : ∀ c, p c = true → q c = true) : Avoids p rest := by
  intro c hc
  cases hp : p c with
  | false => rfl
  | true => exact absurd (hpq c hp) (by simp [h c hc])

theorem Avoids.append {p : Char → Bool} {w rest : List Char} (hw : Avoids p w)
    (hrest : Avoids p rest) : Avoids p (w ++ rest) := by
  cases w with
  | nil => exact hrest
  | cons c w => exact avoids_cons.mpr (avoids_cons.mp hw)

/-- What a reader took of a text: some first characters, which are as `G` says. -/
def Took (G : List Char → Prop) (offset : Nat) (cs : List Char) (left : List Glyph) : Prop :=
  ∃ w rest, G w ∧ cs = w ++ rest ∧ left = places (offset + width w) rest

variable {offset : Nat} {cs w rest : List Char} {left : List Glyph}

theorem Took.mono {G H : List Char → Prop} (h : Took G offset cs left) (hH : ∀ w, G w → H w) :
    Took H offset cs left := by
  obtain ⟨w, rest, hw, hcs, hleft⟩ := h
  exact ⟨w, rest, hH w hw, hcs, hleft⟩

theorem took_nothing {G : List Char → Prop} (h : G []) :
    Took G offset cs (places offset cs) := ⟨[], cs, h, rfl, rfl⟩

/-- One character, and a reader after it. -/
theorem Took.cons {G H : List Char → Prop} {c : Char}
    (h : Took G (offset + c.utf8Size) cs left) (hH : ∀ w, G w → H (c :: w)) :
    Took H offset (c :: cs) left := by
  obtain ⟨w, rest, hw, rfl, rfl⟩ := h
  exact ⟨c :: w, rest, hH w hw, rfl, by rw [Utf8.width_cons, Nat.add_assoc]⟩

/-! ## The longest word -/

/-- Of the beginnings of a text that are as `G` says, the word is the longest. -/
structure Longest (G : List Char → Prop) (cs w : List Char) : Prop where
  fits : G w
  longest : ∀ v, G v → v <+: cs → v.length ≤ w.length

theorem Longest.congr {G H : List Char → Prop} (h : Longest G cs w) (hGH : ∀ v, G v ↔ H v) :
    Longest H cs w :=
  ⟨(hGH w).mp h.fits, fun v hv => h.longest v ((hGH v).mpr hv)⟩

/-- Nothing is the longest word if no word starts there. -/
theorem longest_nothing {G : List Char → Prop} (h : G [])
    (hnone : ∀ c v, G (c :: v) → ¬ c :: v <+: cs) : Longest G cs [] := by
  refine ⟨h, fun v hv hcs => ?_⟩
  cases v with
  | nil => exact Nat.le_refl _
  | cons c v => exact absurd hcs (hnone c v hv)

/-- A longest word and a longest word after it make up a longest word, if where a shorter first word
could be cut off no second one starts. -/
theorem Longest.append {G H : List Char → Prop} {u : List Char} (hw : Longest G (w ++ rest) w)
    (hu : Longest H rest u)
    (hcut : ∀ x c more, G x → G (x ++ c :: more) → ∀ y, H y → Avoids (· = c) y) :
    Longest (fun v => ∃ x y, G x ∧ H y ∧ v = x ++ y) (w ++ rest) (w ++ u) := by
  refine ⟨⟨w, u, hw.fits, hu.fits, rfl⟩, ?_⟩
  rintro v ⟨x, y, hx, hy, rfl⟩ hcs
  have hxw : x <+: w :=
    List.prefix_of_prefix_length_le ((List.prefix_append x y).trans hcs) (List.prefix_append w rest)
      (hw.longest x hx ((List.prefix_append x y).trans hcs))
  obtain ⟨more, rfl⟩ := hxw
  cases more with
  | nil =>
    rw [List.append_nil, List.prefix_append_right_inj] at hcs
    simpa using hu.longest y hy hcs
  | cons c more =>
    rw [List.append_assoc, List.prefix_append_right_inj] at hcs
    cases y with
    | nil => simp
    | cons d y =>
      have hd := avoids_cons.mp (hcut x c more hx hw.fits _ hy)
      rw [List.cons_append, List.cons_prefix_cons] at hcs
      simp [hcs.1] at hd

theorem length_le_takeWhile {p : Char → Bool} {v : List Char} (hv : ∀ c ∈ v, p c = true)
    (h : v <+: cs) : v.length ≤ (cs.takeWhile p).length := by
  obtain ⟨rest, rfl⟩ := h
  rw [List.takeWhile_append_of_pos hv, List.length_append]
  exact Nat.le_add_right _ _

/-! ## Characters of one class -/

theorem skipWhile_word {p : Char → Bool} (hw : ∀ c ∈ w, p c = true) (hrest : Avoids p rest)
    (offset : Nat) :
    skipWhile p (places offset (w ++ rest)) = .ok (places (offset + width w) rest) := by
  have htake : rest.takeWhile p = [] := by
    cases rest with
    | nil => rfl
    | cons c rest => simp [avoids_cons.mp hrest]
  have hdrop : rest.dropWhile p = rest := by
    cases rest with
    | nil => rfl
    | cons c rest => simp [avoids_cons.mp hrest]
  rw [skipWhile_places, List.takeWhile_append_of_pos hw, List.dropWhile_append_of_pos hw, htake,
    hdrop, List.append_nil]

theorem took_skipWhile {p : Char → Bool} (h : skipWhile p (places offset cs) = .ok left) :
    Took (Longest (fun w => ∀ c ∈ w, p c = true) cs) offset cs left := by
  rw [skipWhile_places, Except.ok.injEq] at h
  exact ⟨cs.takeWhile p, cs.dropWhile p, ⟨fun c hc => List.mem_takeWhile_imp hc,
    fun v hv hcs => length_le_takeWhile hv hcs⟩, (List.takeWhile_append_dropWhile).symm, h.symm⟩

end LazyConfig.Lexer
