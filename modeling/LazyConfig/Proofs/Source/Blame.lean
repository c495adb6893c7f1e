-- What is blamed when a text cannot be split. Each fault is about a glyph of the text: a malformed
-- one, a character that does not fit, or the one that opens what is never closed.
-- Main statement: so is each fault that stops the splitting.
import LazyConfig.Source.Lexer

namespace LazyConfig.Lexer

/-- A fault is about a glyph, which with those after it is an end piece of all. -/
inductive Blames (size : Nat) (all : List Glyph) : Fault → Prop
  | malformed {g : Glyph} {more : List Glyph} {e : DecodeError} (h : g :: more <:+ all)
      (he : g.char = .error e) : Blames size all (malformed e)
  | character {g : Glyph} {more : List Glyph} {c : Char} (h : g :: more <:+ all)
      (hc : g.char = .ok c) :
      Blames size all ⟨.unexpectedCharacter c, ⟨g.offset, g.offset + c.utf8Size⟩⟩
  | blobCharacter {g : Glyph} {more : List Glyph} {c : Char} (h : g :: more <:+ all)
      (hc : g.char = .ok c) :
      Blames size all ⟨.blobCharacter c, ⟨g.offset, g.offset + c.utf8Size⟩⟩
  | string {g : Glyph} {more : List Glyph} {quote : Char} (h : g :: more <:+ all)
      (hc : g.char = .ok quote) : Blames size all ⟨.unterminatedString quote, ⟨g.offset, size⟩⟩
  | comment {g g' : Glyph} {more : List Glyph} (h : g :: g' :: more <:+ all)
      (hc : g.char = .ok '/') (hc' : g'.char = .ok '*') :
      Blames size all ⟨.unterminatedComment, ⟨g.offset, size⟩⟩
  | blob {g : Glyph} {more : List Glyph} {c : Char} (h : g :: more <:+ all) (hc : g.char = .ok c) :
      Blames size all ⟨.unterminatedBlob, ⟨g.offset, size⟩⟩

/-- Whatever fault a reader ends with is about a glyph. -/
def Faulty (size : Nat) (all : List Glyph) {α : Type} (x : Except Fault α) : Prop :=
  ∀ f, x = .error f → Blames size all f

section

variable {size : Nat} {all gs more : List Glyph} {g : Glyph} {α β : Type}

theorem faulty_ok (a : α) : Faulty size all (.ok a) := fun _ h => nomatch h

theorem faulty_error {f : Fault} (h : Blames size all f) : Faulty (α := α) size all (.error f) := by
  intro f' h'
  cases h'
  exact h

theorem Faulty.bind {x : Except Fault α} {k : α → Except Fault β} (hx : Faulty size all x)
    (hk : ∀ a, x = .ok a → Faulty size all (k a)) : Faulty size all (x >>= k) := by
  cases x with
  | error f => exact faulty_error (hx f rfl)
  | ok a => exact hk a rfl

theorem Faulty.map {x : Except Fault α} (hx : Faulty size all x) (k : α → β) :
    Faulty size all (x.map k) := by
  cases x with
  | error f => exact faulty_error (hx f rfl)
  | ok a => exact faulty_ok _

theorem suffix_of_cons (h : g :: more <:+ all) : more <:+ all := (List.suffix_cons g more).trans h

/-! ## Single characters -/

theorem faulty_peek (h : gs <:+ all) : Faulty size all (peek gs) := by
  unfold peek
  split
  · exact faulty_ok _
  · split
    · exact faulty_ok _
    · next he => exact faulty_error (.malformed h he)

theorem exists_of_peek {c : Char} (h : peek gs = .ok (some c)) :
    ∃ g more, gs = g :: more ∧ g.char = .ok c := by
  cases gs with
  | nil => cases h
  | cons g more =>
    refine ⟨g, more, rfl, ?_⟩
    cases hc : g.char with
    | error e => simp [peek, hc] at h
    | ok d => simpa [peek, hc] using h

theorem faulty_skipWhile (p : Char → Bool) (h : gs <:+ all) : Faulty size all (skipWhile p gs) := by
  induction gs with
  | nil => exact faulty_ok _
  | cons g gs ih =>
    unfold skipWhile
    split
    · next he => exact faulty_error (.malformed h he)
    · split
      · exact ih (suffix_of_cons h)
      · exact faulty_ok _

/-! ## Blanks and comments -/

/-- The comment that the reader is in was opened by a slash and a star. -/
def Opened (all : List Glyph) : Blank → Prop
  | .opening start | .block start => ∃ g g' more, g :: g' :: more <:+ all ∧ g.char = .ok '/' ∧
      g'.char = .ok '*' ∧ start = g.offset
  | _ => True

theorem faulty_skipBlank {state : Blank} (h : gs <:+ all) (hopened : Opened all state) :
    Faulty size all (skipBlank size state gs) := by
  fun_induction skipBlank size state gs with
  | case1 | case2 | case5 | case11 | case12 => exact faulty_ok _
  -- The text ends in a comment.
  | case3 | case4 =>
    obtain ⟨g, g', more, hall, hc, hc', rfl⟩ := hopened
    exact faulty_error (.comment hall hc hc')
  | case6 g gs e he | case13 g gs e he | case17 start g gs e he =>
    exact faulty_error (.malformed h he)
  | case8 g gs e hpeek | case18 start g gs e hpeek =>
    exact faulty_error (faulty_peek (suffix_of_cons h) e hpeek)
  -- A comment opens.
  | case10 g gs hc hblank hpeek hslash ih =>
    obtain ⟨g', more, rfl, hc'⟩ := exists_of_peek hpeek
    exact ih (suffix_of_cons h) ⟨g, g', more, h, hc, hc', rfl⟩
  -- Anything else is passed over, in a comment or out of one.
  | case7 | case9 | case14 | case15 | case19 | case22 =>
    rename_i ih
    exact ih (suffix_of_cons h) trivial
  | case16 | case20 | case21 =>
    rename_i ih
    exact ih (suffix_of_cons h) hopened

/-! ## Tokens -/

theorem faulty_fraction (h : gs <:+ all) : Faulty size all (fraction gs) := by
  have htail := gs.tail_suffix.trans h
  refine (faulty_peek h).bind fun c _ => ?_
  split
  · refine (faulty_peek htail).bind fun d _ => ?_
    split
    · split
      · exact faulty_skipWhile _ htail
      · exact faulty_ok _
    · exact faulty_ok _
  · exact faulty_ok _

theorem faulty_sign (h : gs <:+ all) : Faulty size all (sign gs) := by
  refine (faulty_peek h).bind fun c _ => ?_
  split
  all_goals exact faulty_ok _

theorem faulty_exponent (h : gs <:+ all) : Faulty size all (exponent gs) := by
  have htail := gs.tail_suffix.trans h
  refine (faulty_peek h).bind fun c _ => ?_
  split
  · split
    · refine (faulty_sign htail).bind fun digits hdigits => ?_
      have hleft := (sign_suffix hdigits).trans htail
      refine (faulty_peek hleft).bind fun d _ => ?_
      split
      · split
        · exact faulty_skipWhile _ hleft
        · exact faulty_ok _
      · exact faulty_ok _
    · exact faulty_ok _
  · exact faulty_ok _

theorem faulty_bigMark (h : gs <:+ all) : Faulty size all (bigMark gs) :=
  (faulty_peek h).bind fun _ _ => faulty_ok _

theorem faulty_number (h : gs <:+ all) : Faulty size all (number gs) := by
  refine (faulty_skipWhile _ h).bind fun a ha => ?_
  have ha := (skipWhile_suffix ha).trans h
  refine (faulty_fraction ha).bind fun b hb => ?_
  have hb := (fraction_suffix hb).trans ha
  refine (faulty_exponent hb).bind fun c hc => ?_
  exact faulty_bigMark ((exponent_suffix hc).trans hb)

theorem faulty_closeQuote {start : Nat} {quote : Char} {hidden : Bool} (h : gs <:+ all)
    (hopened : Blames size all ⟨.unterminatedString quote, ⟨start, size⟩⟩) :
    Faulty size all (closeQuote size start quote hidden gs) := by
  fun_induction closeQuote size start quote hidden gs with
  | case1 => exact faulty_error hopened
  | case3 g gs e he => exact faulty_error (.malformed h he)
  | case5 => exact faulty_ok _
  | case2 | case4 | case6 =>
    rename_i ih
    exact ih (suffix_of_cons h)

theorem faulty_closeTemplate {start depth : Nat} {hidden : Bool} (h : gs <:+ all)
    (hopened : Blames size all ⟨.unterminatedString '`', ⟨start, size⟩⟩) :
    Faulty size all (closeTemplate size start depth hidden gs) := by
  fun_induction closeTemplate size start depth hidden gs with
  | case1 => exact faulty_error hopened
  | case3 depth g gs e he => exact faulty_error (.malformed h he)
  | case5 => exact faulty_ok _
  | case6 depth g gs e hpeek => exact faulty_error (faulty_peek (suffix_of_cons h) e hpeek)
  | case2 | case4 | case7 | case8 | case9 | case10 =>
    rename_i ih
    exact ih (suffix_of_cons h)

theorem faulty_closeBlob {start : Nat} {form : BlobForm} (h : gs <:+ all)
    (hopened : Blames size all ⟨.unterminatedBlob, ⟨start, size⟩⟩) :
    Faulty size all (closeBlob size start form gs) := by
  fun_induction closeBlob size start form gs with
  | case1 => exact faulty_error hopened
  | case2 g gs e he => exact faulty_error (.malformed h he)
  | case3 => exact faulty_ok _
  | case4 g gs c hc hquote hallows ih => exact ih (suffix_of_cons h)
  | case5 g gs c hc => exact faulty_error (.blobCharacter h hc)

theorem faulty_nameOrBlob {c : Char} (h : g :: gs <:+ all) (hc : g.char = .ok c) :
    Faulty size all (nameOrBlob size g gs) := by
  refine (faulty_skipWhile _ (suffix_of_cons h)).bind fun rest hrest => ?_
  have hleft := (skipWhile_suffix hrest).trans (suffix_of_cons h)
  refine (faulty_peek hleft).bind fun next _ => ?_
  split
  · split
    · exact (faulty_closeBlob (rest.tail_suffix.trans hleft) (.blob h hc)).bind
        fun _ _ => faulty_ok _
    · exact faulty_ok _
  · exact faulty_ok _

theorem faulty_spell (cs : List Char) (h : gs <:+ all) : Faulty size all (spell cs gs) := by
  induction cs generalizing gs with
  | nil => exact faulty_ok _
  | cons c cs ih =>
    refine (faulty_peek h).bind fun next _ => ?_
    split
    · split
      · exact ih (suffix_of_cons h)
      · exact faulty_ok _
    · exact faulty_ok _

theorem faulty_firstSymbol (symbols : List (List Char)) (h : gs <:+ all) :
    Faulty size all (firstSymbol gs symbols) := by
  induction symbols with
  | nil => exact faulty_ok _
  | cons symbol others ih =>
    refine (faulty_spell symbol h).bind fun found _ => ?_
    split
    · exact faulty_ok _
    · exact ih

theorem faulty_lexeme {c : Char} (h : g :: gs <:+ all) (hc : g.char = .ok c) :
    Faulty size all (lexeme size g c gs) := by
  have hmore := suffix_of_cons h
  unfold lexeme
  split
  · exact (faulty_number hmore).bind fun _ _ => faulty_ok _
  split
  · exact (faulty_closeQuote hmore (.string h hc)).bind fun _ _ => faulty_ok _
  split
  · next hquote =>
    exact (faulty_closeTemplate hmore (.string h (hquote ▸ hc))).bind fun _ _ => faulty_ok _
  split
  · exact (faulty_skipWhile _ hmore).bind fun _ _ => faulty_ok _
  split
  · exact faulty_nameOrBlob h hc
  · refine (faulty_firstSymbol _ h).bind fun found _ => ?_
    split
    · exact faulty_ok _
    · exact faulty_error (.character h hc)

/-- Whatever stops the splitting of a text is about one of its glyphs. -/
theorem faulty_tokens (h : gs <:+ all) : Faulty size all (tokens size gs) := by
  have hbetween : Opened all .between := trivial
  fun_induction tokens size gs with
  | case1 gs e hblank => exact faulty_error (faulty_skipBlank h hbetween e hblank)
  | case2 => exact faulty_ok _
  | case3 gs g rest hblank e he =>
    exact faulty_error (.malformed ((skipBlank_suffix hblank).trans h) he)
  | case4 gs g rest hblank c hc e hlexeme =>
    exact faulty_error (faulty_lexeme ((skipBlank_suffix hblank).trans h) hc e hlexeme)
  | case5 gs g rest hblank c hc kind after hlexeme text ih =>
    have hrest := suffix_of_cons ((skipBlank_suffix hblank).trans h)
    exact (ih ((lexeme_suffix hlexeme).trans hrest)).map _

end

end LazyConfig.Lexer
