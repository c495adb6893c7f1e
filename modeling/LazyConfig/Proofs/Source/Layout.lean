-- Words in a text. A text that is made of words with blanks before them, each followed by what does
-- not go on with it, is split into just these words.
-- Main statements: a text of words is split into the words, so it is read as what they write, and
-- whatever text is split, its tokens are words.
import LazyConfig.Proofs.Source.Reading
import LazyConfig.Proofs.Source.Tiling

namespace LazyConfig

open Lexer
open Utf8 (width encodeChars)

/-! ## What ends a word -/

/-- The characters that could go on with a word of some kind. -/
def goesOn (c : Char) : Bool := goesOnNumber c || c = '\'' || c = '=' || c = '/' || c = '*'

/-- The text does not go on with any word. -/
def Delimited (rest : List Char) : Prop := Avoids goesOn rest

theorem Delimited.stops {rest : List Char} (h : Delimited rest) (kind : TokenKind) :
    Stops kind rest := by
  cases kind with
  | string | template | blob | eof => trivial
  | number | identifier | dots | punct =>
    refine h.mono fun c hc => ?_
    simp only [goesOn, goesOnNumber, Bool.or_eq_true, decide_eq_true_eq] at hc ⊢
    tauto

theorem delimited_of_isBlank {c : Char} (hc : isBlank c = true) (rest : List Char) :
    Delimited (c :: rest) := by
  simp only [isBlank, Bool.or_eq_true, decide_eq_true_eq] at hc
  refine avoids_cons.mpr ?_
  rcases hc with ((rfl | rfl) | rfl) | rfl
  all_goals decide

/-! ## Texts of words -/

/-- The text is made of the words, with blanks before them and at its end. -/
inductive Layout : List Char → List Token → Prop
  | blank {gap : List Char} (h : ∀ c ∈ gap, isBlank c = true) : Layout gap []
  | word {gap w rest : List Char} {kind : TokenKind} {ts : List Token}
      (hgap : ∀ c ∈ gap, isBlank c = true) (hw : Spells kind w) (hstop : Stops kind rest)
      (h : Layout rest ts) : Layout (gap ++ (w ++ rest)) (.of kind (String.ofList w) :: ts)

namespace Lexer

variable {size offset : Nat} {gap w rest cs : List Char}

/-! ## Blanks -/

theorem isGap_of_isBlank (hgap : ∀ c ∈ gap, isBlank c = true) : IsGap gap := by
  induction gap with
  | nil => exact .nil
  | cons c gap ih => exact .blank (hgap c (by simp)) (ih fun d hd => hgap d (by simp [hd]))

/-- A word is not taken for blanks, as what follows it makes it no comment. -/
theorem skipBlank_word {kind : TokenKind} {c : Char} {more : List Char}
    (h : Matches kind (c :: more)) (hstop : Stops kind rest) (size offset : Nat) :
    skipBlank size .between (places offset (c :: (more ++ rest))) =
      .ok (places offset (c :: (more ++ rest))) := by
  obtain ⟨c', more', heq, hblank, hslash⟩ := h.exists_cons
  obtain ⟨rfl, rfl⟩ := List.cons.inj heq
  rw [places_cons, skipBlank]
  simp only [hblank, Bool.false_eq_true, if_false, peek_places]
  split
  · next hc =>
    obtain ⟨rfl, rfl⟩ := hslash hc
    have hnext : rest.head? ≠ some '/' ∧ rest.head? ≠ some '*' := by
      constructor
      all_goals
        intro hhead
        have := hstop _ hhead
        simp at this
    simp [hnext]
  · rfl

/-! ## Splitting -/

theorem tokens_step {gs : List Glyph} {g : Glyph} {c : Char} {after left : List Glyph}
    {kind : TokenKind} (hblank : skipBlank size .between gs = .ok (g :: after))
    (hc : g.char = .ok c) (hlexeme : lexeme size g c after = .ok (kind, left)) :
    tokens size gs = (tokens size left).map
      (⟨kind, ⟨g.offset, here size left⟩,
        String.ofList (chars (taken (g :: after) left))⟩ :: ·) := by
  rw [tokens]
  split
  · next h => rw [hblank] at h; cases h
  · next h => rw [hblank] at h; cases h
  · next h =>
    rw [hblank] at h
    cases h
    split
    · next h => rw [hc] at h; cases h
    · next h =>
      rw [hc] at h
      cases h
      split
      · next h => rw [hlexeme] at h; cases h
      · next h =>
        rw [hlexeme] at h
        cases h
        rfl

theorem tokens_nil {gs : List Glyph} (h : skipBlank size .between gs = .ok []) :
    tokens size gs = .ok [] := by
  rw [tokens]
  split
  · next h' => rw [h] at h'; cases h'
  · rfl
  · next h' => rw [h] at h'; cases h'

/-- A word after a gap is the first token, if what follows does not go on with it. -/
theorem tokens_word {kind : TokenKind} (hgap : IsGap gap) (hw : Matches kind w)
    (hstop : Stops kind rest) (size offset : Nat) :
    tokens size (places offset (gap ++ (w ++ rest))) =
      (tokens size (places (offset + width gap + width w) rest)).map
        (⟨kind, ⟨offset + width gap, here size (places (offset + width gap + width w) rest)⟩,
          String.ofList w⟩ :: ·) := by
  obtain ⟨c, more, rfl, -⟩ := hw.exists_cons
  have hblank := skipBlank_word hw hstop size (offset + width gap)
  rw [← skipBlank_isGap hgap, places_cons] at hblank
  have hchars := chars_taken_places (offset + width gap) (c :: more) rest
  rw [List.cons_append, places_cons] at hchars
  rw [List.cons_append, tokens_step hblank rfl (lexeme_matches hw hstop (offset + width gap)),
    hchars]

theorem tokens_layout {ts : List Token} (h : Layout cs ts) (size offset : Nat) :
    ∃ found, tokens size (places offset cs) = .ok found ∧
      found.map Token.bare = ts.map Token.bare := by
  induction h generalizing offset with
  | @blank gap hgap =>
    have hnone := skipBlank_isGap (isGap_of_isBlank hgap) [] size offset
    rw [List.append_nil] at hnone
    exact ⟨[], tokens_nil hnone, rfl⟩
  | @word gap w rest kind ts hgap hw hstop h ih =>
    obtain ⟨found, hfound, hbare⟩ := ih (offset + width gap + width w)
    rw [tokens_word (isGap_of_isBlank hgap) (.word hw) hstop, hfound]
    exact ⟨_, rfl, by rw [List.map_cons, List.map_cons, hbare]; rfl⟩

/-- A token is a word of its kind. Templates are left out. -/
def IsWord (t : Token) : Prop := t.kind = .template ∨ Spells t.kind t.text.toList

theorem isWord_of_matches {t : Token} (h : Matches t.kind t.text.toList) : IsWord t := by
  by_cases ht : t.kind = .template
  · exact .inl ht
  · exact .inr ((matches_iff_spells ht).mp h)

end Lexer

/-- A text of words is split into the words. -/
theorem tokenize_layout {cs : List Char} {ts : List Token} (h : Layout cs ts) :
    ∃ found, tokenize (encodeChars cs) = .ok found ∧
      found.map Token.bare = ts.map Token.bare ++ [.of .eof ""] := by
  obtain ⟨found, hfound, hbare⟩ := tokens_layout h (width cs) 0
  exact ⟨found ++ [.endAt (width cs)], tokenize_eq_ok_iff.mpr ⟨cs, found, rfl, hfound, rfl⟩,
    by simp [hbare]; rfl⟩

/-- The tokens of any text are words, up to its end. -/
theorem tokenize_words {bytes : Bytes} {ts : List Token} (h : tokenize bytes = .ok ts) :
    ∀ t ∈ ts, t.kind = .eof ∨ IsWord t := by
  obtain ⟨cs, -, htiles⟩ := tiles_tokenize h
  obtain ⟨words, rfl, hwords⟩ := htiles.words
  intro t ht
  rcases List.mem_append.mp ht with ht | ht
  · exact .inr (isWord_of_matches (hwords t ht))
  · rw [List.mem_singleton] at ht
    exact .inl (by rw [ht]; rfl)

/-- A text of words that write an expression is read as the expression. -/
theorem parse_layout {cs : List Char} {level limit : Nat} {ts : List Token} {e : Expr}
    (h : Layout cs ts) (hwrites : Writes level ts e) (hlimit : ts.length ≤ limit) :
    ∃ e', parse limit (encodeChars cs) = .ok e' ∧ e'.bare = e.bare := by
  obtain ⟨found, hfound, hbare⟩ := tokenize_layout h
  obtain ⟨e', hparse, he⟩ := hwrites.parseTokens hlimit hbare
  exact ⟨e', by simp [parse, hfound, hparse, bind, Except.bind, Except.mapError], he⟩

end LazyConfig
