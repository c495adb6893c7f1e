-- Backslashes that hide the character after them. Splitting a text passes over the character after
-- such a backslash unseen, and unescaping reads an escape there. They cannot get out of step, as an
-- escape takes no backslash but for one right after its own.
-- Main statement: splitting and unescaping find the same backslashes, up to the first escape that
-- is wrong.
import LazyConfig.Proofs.Source.Tiling
import LazyConfig.Proofs.Text.Pieces

namespace LazyConfig

open Utf8 (width)

/-! ## Hidden characters -/

/-- The offsets of the backslashes that hide the character after them, in a text from an offset
on. -/
def hides (offset : Nat) : (hidden : Bool) → List Char → List Nat
  | _, [] => []
  | true, c :: cs => hides (offset + c.utf8Size) false cs
  | false, c :: cs =>
    if c = '\\' then offset :: hides (offset + 1) true cs else hides (offset + c.utf8Size) false cs

/-- No backslash is left without a character to hide. -/
def hidesWhole : (hidden : Bool) → List Char → Bool
  | hidden, [] => !hidden
  | true, _ :: cs => hidesWhole false cs
  | false, c :: cs => hidesWhole (c = '\\') cs

section

variable {offset : Nat} {hidden : Bool} {c : Char} {cs : List Char}

theorem hides_backslash :
    hides offset false ('\\' :: cs) = offset :: hides (offset + 1) true cs := by
  rw [hides, if_pos rfl]

theorem hides_cons (h : c ≠ '\\') :
    hides offset false (c :: cs) = hides (offset + c.utf8Size) false cs := by
  rw [hides, if_neg h]

theorem hidesWhole_cons (h : c ≠ '\\') : hidesWhole false (c :: cs) = hidesWhole false cs := by
  simp [hidesWhole, h]

/-- Only the offsets change with the offset of a text. -/
theorem hides_shift (n : Nat) :
    hides (offset + n) hidden cs = (hides offset hidden cs).map (· + n) := by
  fun_induction hides offset hidden cs with
  | case1 offset hidden => simp [hides]
  | case2 offset c cs ih => rw [hides, ← ih, Nat.add_right_comm]
  | case3 offset cs ih => rw [hides_backslash, List.map_cons, ← ih, Nat.add_right_comm]
  | case4 offset c cs hc ih => rw [hides_cons hc, ← ih, Nat.add_right_comm]

theorem le_of_mem_hides {i : Nat} (h : i ∈ hides offset hidden cs) : offset ≤ i := by
  fun_induction hides offset hidden cs with
  | case1 => cases h
  | case2 offset c cs ih => exact Nat.le_of_add_right_le (ih h)
  | case3 offset cs ih =>
    rcases List.mem_cons.mp h with rfl | h
    · exact Nat.le_refl _
    · exact Nat.le_of_add_right_le (ih h)
  | case4 offset c cs hc ih => exact Nat.le_of_add_right_le (ih h)

/-- What has no backslashes hides nothing. -/
theorem hides_append {body : List Char} (h : '\\' ∉ body) :
    hides offset false (body ++ cs) = hides (offset + width body) false cs := by
  induction body generalizing offset with
  | nil => rfl
  | cons c body ih =>
    rw [List.mem_cons, not_or] at h
    rw [List.cons_append, hides_cons (Ne.symm h.1), ih h.2, Utf8.width_cons, Nat.add_assoc]

theorem hidesWhole_append {body : List Char} (h : '\\' ∉ body) :
    hidesWhole false (body ++ cs) = hidesWhole false cs := by
  induction body with
  | nil => rfl
  | cons c body ih =>
    rw [List.mem_cons, not_or] at h
    rw [List.cons_append, hidesWhole_cons (Ne.symm h.1), ih h.2]

end

/-! ## Splitting -/

namespace Lexer

variable {size start depth : Nat} {quote : Char} {hidden : Bool}

/-- A note in front of others. -/
def note (offset : Nat) (read : List Nat × List Glyph) : List Nat × List Glyph :=
  (offset :: read.1, read.2)

/-- `closeQuote`, with the offset of each backslash for which the next character is passed over
unseen. -/
def closeQuoteNoting (size start : Nat) (quote : Char) :
    (hidden : Bool) → List Glyph → Except Fault (List Nat × List Glyph)
  | _, [] => .error ⟨.unterminatedString quote, ⟨start, size⟩⟩
  | true, _ :: gs => closeQuoteNoting size start quote false gs
  | false, g :: gs =>
    match g.char with
    | .error e => .error (malformed e)
    | .ok c =>
      if c = '\\' then (closeQuoteNoting size start quote true gs).map (note g.offset)
      else if c = quote then .ok ([], gs)
      else closeQuoteNoting size start quote false gs

/-- `closeTemplate`, with the offset of each backslash for which the next character is passed over
unseen. -/
def closeTemplateNoting (size start : Nat) :
    (depth : Nat) → (hidden : Bool) → List Glyph → Except Fault (List Nat × List Glyph)
  | _, _, [] => .error ⟨.unterminatedString '`', ⟨start, size⟩⟩
  | depth, true, _ :: gs => closeTemplateNoting size start depth false gs
  | depth, false, g :: gs =>
    match g.char with
    | .error e => .error (malformed e)
    | .ok c =>
      if c = '\\' then (closeTemplateNoting size start depth true gs).map (note g.offset)
      else if c = '`' ∧ depth = 0 then .ok ([], gs)
      else if c = '$' then
        match peek gs with
        | .error e => .error e
        | .ok next =>
          if next = some '{' then closeTemplateNoting size start (depth + 1) true gs
          else closeTemplateNoting size start depth false gs
      else if c = '}' ∧ 0 < depth then closeTemplateNoting size start (depth - 1) false gs
      else closeTemplateNoting size start depth false gs

/-- `lexeme`, with the notes of what is quoted. -/
def lexemeNoting (size : Nat) (g : Glyph) (c : Char) (gs : List Glyph) :
    Except Fault (TokenKind × List Nat × List Glyph) :=
  if c = '\'' ∨ c = '"' then (closeQuoteNoting size g.offset c false gs).map fun read =>
    (.string, read)
  else if c = '`' then (closeTemplateNoting size g.offset 0 false gs).map fun read =>
    (.template, read)
  else (lexeme size g c gs).map fun read => (read.1, [], read.2)

theorem map_map {ε α β γ : Type} (x : Except ε α) (f : α → β) (g : β → γ) :
    (x.map f).map g = x.map (g ∘ f) := by
  cases x <;> rfl

theorem closeQuoteNoting_snd (gs : List Glyph) :
    (closeQuoteNoting size start quote hidden gs).map Prod.snd =
    closeQuote size start quote hidden gs := by
  induction gs generalizing hidden with
  | nil => cases hidden <;> rfl
  | cons g gs ih =>
    cases hidden with
    | true => exact ih
    | false =>
      rw [closeQuoteNoting, closeQuote]
      cases g.char with
      | error e => rfl
      | ok c =>
        dsimp only
        split
        · rw [map_map]
          exact ih
        split
        · rfl
        · exact ih

theorem closeTemplateNoting_snd (gs : List Glyph) :
    (closeTemplateNoting size start depth hidden gs).map Prod.snd =
      closeTemplate size start depth hidden gs := by
  induction gs generalizing depth hidden with
  | nil => cases hidden <;> rfl
  | cons g gs ih =>
    cases hidden with
    | true => exact ih
    | false =>
      rw [closeTemplateNoting, closeTemplate]
      cases g.char with
      | error e => rfl
      | ok c =>
        dsimp only
        split
        · rw [map_map]
          exact ih
        split
        · rfl
        split
        · cases peek gs with
          | error e => rfl
          | ok next =>
            dsimp only
            split
            · exact ih
            · exact ih
        split
        · exact ih
        · exact ih

theorem lexemeNoting_erased (g : Glyph) (c : Char) (gs : List Glyph) :
    (lexemeNoting size g c gs).map (fun read => (read.1, read.2.2)) = lexeme size g c gs := by
  unfold lexemeNoting
  split
  · next hc =>
    have hdigit : c.isDigit = false := by rcases hc with rfl | rfl <;> rfl
    rw [map_map, lexeme, ← closeQuoteNoting_snd]
    simp only [hdigit, hc, if_true]
    cases closeQuoteNoting size g.offset c false gs <;> rfl
  next hquote =>
  split
  · next hc =>
    subst hc
    rw [map_map, lexeme, ← closeTemplateNoting_snd]
    cases closeTemplateNoting size g.offset 0 false gs <;> rfl
  · rw [map_map]
    cases lexeme size g c gs <;> rfl

theorem lexeme_of_noting {g : Glyph} {c : Char} {gs after : List Glyph} {kind : TokenKind}
    {notes : List Nat} (h : lexemeNoting size g c gs = .ok (kind, notes, after)) :
    lexeme size g c gs = .ok (kind, after) := by
  rw [← lexemeNoting_erased, h]
  rfl

/-- `tokens`, each with its notes. -/
def tokensNoting (size : Nat) (gs : List Glyph) : Except Fault (List (Token × List Nat)) :=
  match _hb : skipBlank size .between gs with
  | .error e => .error e
  | .ok [] => .ok []
  | .ok (g :: rest) =>
    match g.char with
    | .error e => .error (malformed e)
    | .ok c =>
      match _hl : lexemeNoting size g c rest with
      | .error e => .error e
      | .ok (kind, notes, after) =>
        let text := String.ofList (chars (taken (g :: rest) after))
        (tokensNoting size after).map ((⟨kind, ⟨g.offset, here size after⟩, text⟩, notes) :: ·)
  termination_by gs.length
  decreasing_by
    have h₁ := (skipBlank_suffix _hb).length_le
    have h₂ := (lexeme_suffix (lexeme_of_noting _hl)).length_le
    simp only [List.length_cons] at h₁
    omega

theorem tokensNoting_cons {g : Glyph} {c : Char} {gs rest : List Glyph}
    (hblank : skipBlank size .between gs = .ok (g :: rest)) (hc : g.char = .ok c) :
    tokensNoting size gs = lexemeNoting size g c rest >>= fun read =>
      (tokensNoting size read.2.2).map
        ((⟨read.1, ⟨g.offset, here size read.2.2⟩,
          String.ofList (chars (taken (g :: rest) read.2.2))⟩,
          read.2.1) :: ·) := by
  rw [tokensNoting]
  split
  · simp_all
  · simp_all
  · next g' rest' hblank' =>
    obtain ⟨rfl, rfl⟩ := List.cons.inj (Except.ok.inj (hblank'.symm.trans hblank))
    split
    · simp_all
    · next c' hc' =>
      obtain rfl := Except.ok.inj (hc'.symm.trans hc)
      split
      · next hlexeme => rw [hlexeme]; rfl
      · next hlexeme => rw [hlexeme]; rfl

/-- Without the notes the tokens are the same. -/
theorem tokensNoting_fst (gs : List Glyph) :
    (tokensNoting size gs).map (List.map Prod.fst) = tokens size gs := by
  fun_induction tokens size gs with
  | case1 gs e hblank =>
    rw [tokensNoting]
    split <;> simp_all [Except.map]
  | case2 gs hblank =>
    rw [tokensNoting]
    split <;> simp_all [Except.map]
  | case3 gs g rest hblank e hc =>
    rw [tokensNoting]
    split <;> simp_all [Except.map]
  | case4 gs g rest hblank c hc e hlexeme =>
    rw [← lexemeNoting_erased, Escape.map_eq_error] at hlexeme
    rw [tokensNoting_cons hblank hc, hlexeme]
    rfl
  | case5 gs g rest hblank c hc kind after hlexeme text ih =>
    rw [← lexemeNoting_erased, Escape.map_eq_ok] at hlexeme
    obtain ⟨⟨kind', notes, after'⟩, hlexeme, heq⟩ := hlexeme
    obtain ⟨rfl, rfl⟩ := Prod.mk.inj heq
    rw [tokensNoting_cons hblank hc, hlexeme, ← ih]
    simp only [bind, Except.bind, map_map]
    rfl

/-! ## What is noted -/

variable {offset : Nat} {cs w : List Char} {notes : List Nat} {left : List Glyph} {c : Char}

/-- The characters run up to a closing quote, and where backslashes hide others is as noted. -/
def ClosedBy (quote : Char) (offset : Nat) (hidden : Bool) (notes : List Nat)
    (w : List Char) : Prop :=
  ∃ body, w = body ++ [quote] ∧ hidesWhole hidden body = true ∧ notes = hides offset hidden body

namespace ClosedBy

theorem single : ClosedBy quote offset false [] [quote] := ⟨[], rfl, rfl, rfl⟩

theorem unseen (h : ClosedBy quote (offset + c.utf8Size) false notes w) :
    ClosedBy quote offset true notes (c :: w) := by
  obtain ⟨body, rfl, hwhole, rfl⟩ := h
  exact ⟨c :: body, rfl, hwhole, rfl⟩

theorem backslash (h : ClosedBy quote (offset + 1) true notes w) :
    ClosedBy quote offset false (offset :: notes) ('\\' :: w) := by
  obtain ⟨body, rfl, hwhole, rfl⟩ := h
  exact ⟨'\\' :: body, rfl, hwhole, hides_backslash.symm⟩

theorem char (hc : c ≠ '\\') (h : ClosedBy quote (offset + c.utf8Size) false notes w) :
    ClosedBy quote offset false notes (c :: w) := by
  obtain ⟨body, rfl, hwhole, rfl⟩ := h
  exact ⟨c :: body, rfl, (hidesWhole_cons hc).trans hwhole, (hides_cons hc).symm⟩

/-- The brace behind a dollar sign is passed over unseen as well, and is no backslash. -/
theorem region (hhead : w.head? = some '{') (h : ClosedBy quote (offset + 1) true notes w) :
    ClosedBy quote offset false notes ('$' :: w) := by
  obtain ⟨body, rfl, hwhole, rfl⟩ := h
  cases body with
  | nil => cases hwhole
  | cons d body =>
    obtain rfl : d = '{' := by simpa using hhead
    exact char (by decide) (char (by decide) ⟨body, rfl, hwhole, rfl⟩)

end ClosedBy

theorem took_closeQuoteNoting
    (h : closeQuoteNoting size start quote hidden (places offset cs) = .ok (notes, left)) :
    Took (ClosedBy quote offset hidden notes) offset cs left := by
  induction cs generalizing offset hidden notes with
  | nil => cases hidden <;> cases h
  | cons c cs ih =>
    cases hidden with
    | true => exact (ih h).cons fun w hw => hw.unseen
    | false =>
      simp only [places_cons, closeQuoteNoting] at h
      split at h
      · next hc =>
        obtain ⟨⟨notes', left'⟩, hread, heq⟩ := Escape.map_eq_ok.mp h
        cases heq
        subst hc
        exact (ih hread).cons fun w hw => hw.backslash
      · next hc =>
        split at h
        · next hquote =>
          cases h
          exact ⟨[c], cs, hquote ▸ .single, rfl, rfl⟩
        · exact (ih h).cons fun w hw => hw.char hc

theorem took_closeTemplateNoting
    (h : closeTemplateNoting size start depth hidden (places offset cs) = .ok (notes, left)) :
    Took (ClosedBy '`' offset hidden notes) offset cs left := by
  induction cs generalizing offset depth hidden notes with
  | nil => cases hidden <;> cases h
  | cons c cs ih =>
    cases hidden with
    | true => exact (ih h).cons fun w hw => hw.unseen
    | false =>
      simp only [places_cons, closeTemplateNoting, peek_places] at h
      split at h
      · next hc =>
        obtain ⟨⟨notes', left'⟩, hread, heq⟩ := Escape.map_eq_ok.mp h
        cases heq
        subst hc
        exact (ih hread).cons fun w hw => hw.backslash
      next hc =>
      split at h
      · next hquote =>
        cases h
        exact ⟨[c], cs, hquote.1 ▸ .single, rfl, rfl⟩
      split at h
      · next hdollar =>
        subst hdollar
        split at h
        · next hbrace =>
          obtain ⟨w, rest, hw, rfl, rfl⟩ := ih h
          refine ⟨'$' :: w, rest, hw.region ?_, rfl, by rw [Utf8.width_cons, Nat.add_assoc]⟩
          obtain ⟨body, rfl, hwhole, -⟩ := hw
          cases body with
          | nil => cases hwhole
          | cons d body => exact hbrace
        · exact (ih h).cons fun w hw => hw.char hc
      split at h
      · exact (ih h).cons fun w hw => hw.char hc
      · exact (ih h).cons fun w hw => hw.char hc

/-- The characters are a body in quotes, and where its backslashes hide others is as noted. -/
def QuotedAt (offset : Nat) (notes : List Nat) (w : List Char) : Prop :=
  ∃ quote body, w = [quote] ++ (body ++ [quote]) ∧ hidesWhole false body = true ∧
    notes = hides (offset + 1) false body

theorem took_lexemeNoting {kind : TokenKind}
    (h : lexemeNoting size ⟨offset, .ok c⟩ c (places (offset + c.utf8Size) cs) =
      .ok (kind, notes, left)) :
    Took (fun w => kind = .string ∨ kind = .template → QuotedAt offset notes w)
      offset (c :: cs) left := by
  have hquoted : ∀ w, c.utf8Size = 1 → ClosedBy c (offset + c.utf8Size) false notes w →
      QuotedAt offset notes (c :: w) := by
    rintro w hsize ⟨body, rfl, hwhole, hnotes⟩
    exact ⟨c, body, rfl, hwhole, hsize ▸ hnotes⟩
  unfold lexemeNoting at h
  split at h
  · next hc =>
    obtain ⟨⟨notes', left'⟩, hread, heq⟩ := Escape.map_eq_ok.mp h
    cases heq
    refine (took_closeQuoteNoting hread).cons fun w hw _ => hquoted w ?_ hw
    rcases hc with rfl | rfl <;> rfl
  next hquote =>
  split at h
  · next hc =>
    obtain ⟨⟨notes', left'⟩, hread, heq⟩ := Escape.map_eq_ok.mp h
    cases heq
    subst hc
    exact (took_closeTemplateNoting hread).cons fun w hw _ => hquoted w rfl hw
  next hback =>
  obtain ⟨⟨kind', left'⟩, hread, heq⟩ := Escape.map_eq_ok.mp h
  cases heq
  obtain ⟨w, rest, hw, hcs, hleft⟩ := took_lexeme hread
  refine ⟨w, rest, fun hkind => ?_, hcs, hleft⟩
  obtain ⟨quote, body, hmark, rfl⟩ := hw.fits.quoted hkind
  obtain rfl : c = quote := (List.cons.inj hcs).1
  tauto

theorem quotedAt_of_mem {read : List (Token × List Nat)} (hsize : size = offset + width cs)
    (h : tokensNoting size (places offset cs) = .ok read) :
    ∀ p ∈ read, p.1.kind = .string ∨ p.1.kind = .template →
      QuotedAt p.1.span.start p.2 p.1.text.toList := by
  generalize hgs : places offset cs = gs at h
  fun_induction tokensNoting size gs generalizing offset cs read with
  | case1 | case3 | case4 => cases h
  | case2 gs hblank =>
    cases h
    exact List.forall_mem_nil _
  | case5 gs g rest hblank c hc kind notes after hlexeme text =>
    rename_i ih
    subst hgs
    rcases took_skipBlank hblank with ⟨gap, cs, hgap, rfl, hcs⟩ | ⟨hleft, -⟩
    swap
    · cases hleft
    cases cs with
    | nil => cases hcs
    | cons d cs =>
      rw [places_cons] at hcs
      cases hcs
      cases hc
      obtain ⟨w, left, hw, hall, rfl⟩ := took_lexemeNoting hlexeme
      have hchars := chars_taken_places (offset + width gap) w left
      rw [← hall, places_cons] at hchars
      have htext : text = String.ofList w := congrArg String.ofList hchars
      obtain ⟨more, hmore, rfl⟩ := Escape.map_eq_ok.mp h
      rw [hall] at hsize
      refine List.forall_mem_cons.mpr ⟨?_, ih ?_ rfl hmore⟩
      · rw [htext, String.toList_ofList]
        exact hw
      · rw [hsize]
        simp only [Utf8.width_append]
        omega

end Lexer

/-! ## Unescaping -/

namespace Escape

variable {position got value taken : Nat} {cs : List Char} {e : EscapeError} {found : Option Char}

theorem hexValue?_ne {c : Char} {d : Nat} (h : hexValue? c = some d) : '\\' ≠ c := by
  rintro rfl
  cases h

/-- Digits are no backslashes. -/
theorem readDigits_plain {count missing n : Nat} {opening : List Char}
    (h : readDigits position count opening missing value cs = .ok n) : '\\' ∉ cs.take missing := by
  fun_induction readDigits position count opening missing value cs with
  | case1 => simp
  | case2 | case4 => cases h
  | case3 missing value c cs d hd ih =>
    rw [List.take_succ_cons, List.mem_cons, not_or]
    exact ⟨hexValue?_ne hd, ih h⟩

theorem readBraced_plain {n digits k : Nat} (h : readBraced position got value cs = .ok (n, digits))
    (hk : k + got = digits + 1) : '\\' ∉ cs.take k := by
  induction cs generalizing got value k with
  | nil => cases h
  | cons c cs ih =>
    cases k with
    | zero => simp
    | succ k =>
      rw [List.take_succ_cons, List.mem_cons, not_or]
      rw [readBraced] at h
      split at h
      · next hclose =>
        cases h
        obtain rfl : k = 0 := by omega
        exact ⟨by rw [hclose.1]; decide, by simp⟩
      · split at h
        · next d hd =>
          split at h
          · exact ⟨hexValue?_ne hd, ih h (by omega)⟩
          · cases h
        · cases h

/-- Behind its first character an escape takes no backslash. -/
theorem read_plain (h : read position cs = .ok (found, taken)) : '\\' ∉ (cs.take taken).tail := by
  cases cs with
  | nil => cases h
  | cons c cs =>
    by_cases hx : c = 'x'
    · subst hx
      rw [read_hex] at h
      obtain ⟨value, c, hvalue, hdone, -⟩ := number_ok id h
      obtain ⟨-, rfl⟩ := Prod.mk.inj hdone
      exact readDigits_plain hvalue
    by_cases hu : c = 'u'
    · subst hu
      by_cases hbrace : cs.head? = some '\x7b'
      · obtain ⟨cs, rfl⟩ := List.head?_eq_some_iff.mp hbrace
        rw [read_braced] at h
        obtain ⟨⟨value, digits⟩, c, hvalue, hdone, -⟩ := number_ok Prod.fst h
        obtain ⟨-, rfl⟩ := Prod.mk.inj hdone
        have hdigits := readBraced_plain hvalue (Nat.add_zero (digits + 1))
        simpa using hdigits
      · rw [read_digits hbrace] at h
        obtain ⟨value, c, hvalue, hdone, -⟩ := number_ok id h
        obtain ⟨-, rfl⟩ := Prod.mk.inj hdone
        exact readDigits_plain hvalue
    rw [read] at h
    split at h
    · cases h
      simp
    split at h
    · cases h
      split
      · next hfeed =>
        obtain ⟨cs, rfl⟩ := List.head?_eq_some_iff.mp hfeed
        simp
      · simp
    · split at h
      · cases h
        simp
      · cases h

/-- The backslash of an escape hides the first character that the escape takes, and then the text
goes on behind the last one. -/
theorem hides_escape (h : read position cs = .ok (found, taken)) (offset : Nat) :
    hides offset false ('\\' :: cs) = offset :: hides (offset + 1 + taken) false (cs.drop taken) ∧
      hidesWhole false ('\\' :: cs) = hidesWhole false (cs.drop taken) := by
  have hplain := read_plain h
  obtain ⟨body, rest, rfl, rfl, hascii, hread⟩ := read_ok h
  rw [List.take_left] at hplain
  rw [List.drop_left]
  cases body with
  | nil => cases hread [] (by simp)
  | cons d more =>
    obtain ⟨hd, hmore⟩ := List.forall_mem_cons.mp hascii
    rw [List.tail_cons] at hplain
    refine ⟨?_, ?_⟩
    · rw [hides_backslash, List.cons_append, hides, hides_append hplain, hd,
        Ascii.width_eq hmore, List.length_cons]
      congr 2
      omega
    · exact hidesWhole_append hplain

/-- In a text that can be read, escapes start where backslashes hide characters. -/
theorem starts_of_ok {x : List Char} (h : unescapeFrom position cs = .ok x) :
    starts position cs = hides position false cs := by
  fun_induction unescapeFrom position cs generalizing x with
  | case1 => rw [starts, hides]
  | case2 => cases h
  | case3 position cs found taken hread ih =>
    obtain ⟨y, hy, -⟩ := map_eq_ok.mp h
    rw [starts, if_pos rfl, hread, (hides_escape hread position).1, ← ih hy]
  | case4 position c cs hc ih =>
    obtain ⟨y, hy, -⟩ := map_eq_ok.mp h
    rw [starts_cons hc, hides_cons hc, ih hy]

/-- In any other text they do up to the escape that is wrong. -/
theorem starts_of_error (h : unescapeFrom position cs = .error e) :
    starts position cs = (hides position false cs).filter (· ≤ e.position) ∧
      e.position ∈ starts position cs := by
  fun_induction unescapeFrom position cs with
  | case1 => cases h
  | case2 position cs e' hread =>
    cases h
    have hlater : (hides (position + 1) true cs).filter (· ≤ position) = [] :=
      List.filter_eq_nil_iff.mpr fun i hi => by simpa using Nat.lt_of_succ_le (le_of_mem_hides hi)
    rw [starts, if_pos rfl, hread, (told_read hread).position_eq, hides_backslash]
    simp [hlater]
  | case3 position cs found taken hread ih =>
    obtain ⟨heq, hmem⟩ := ih (map_eq_error.mp h)
    have hle : position ≤ e.position := by
      rw [heq] at hmem
      have := le_of_mem_hides (List.mem_filter.mp hmem).1
      omega
    rw [starts, if_pos rfl, hread, (hides_escape hread position).1]
    simp only [List.filter_cons, hle, decide_true, if_true, ← heq, true_and]
    exact List.mem_cons_of_mem _ hmem
  | case4 position c cs hc ih =>
    rw [starts_cons hc, hides_cons hc]
    exact ih (map_eq_error.mp h)

/-! ## A backslash alone -/

theorem readDigits_ne_unknown {count missing q : Nat} {opening : List Char} {sequence : String} :
    readDigits position count opening missing value cs ≠ .error (.unknown q sequence) := by
  fun_induction readDigits position count opening missing value cs with
  | case1 | case2 | case4 => simp
  | case3 missing value c cs d hd ih => exact ih

theorem readBraced_ne_unknown {q : Nat} {sequence : String} :
    readBraced position got value cs ≠ .error (.unknown q sequence) := by
  induction cs generalizing got value with
  | nil => simp [readBraced]
  | cons c cs ih =>
    rw [readBraced]
    split
    · simp
    · split
      · split
        · exact ih
        · simp
      · simp

theorem number_ne_unknown {α β : Type} {reader : List Char → Except EscapeError α} {value : α → Nat}
    {done : α → Char → β} {q : Nat} {sequence : String}
    (h : reader cs ≠ .error (.unknown q sequence)) :
    (reader cs >>= fun a => named position (value a) >>= fun c => .ok (done a c)) ≠
      .error (.unknown q sequence) := by
  intro heq
  rcases bind_eq_error.mp heq with hread | ⟨a, -, heq⟩
  · exact h hread
  · rcases bind_eq_error.mp heq with hnamed | ⟨c, -, hdone⟩
    · unfold named at hnamed
      split at hnamed <;> cases hnamed
    · cases hdone

/-- Only where the text ends a backslash is all there is of an escape. -/
theorem read_cons_ne {c : Char} {q : Nat} : read position (c :: cs) ≠ .error (.unknown q "\\") := by
  by_cases hx : c = 'x'
  · subst hx
    rw [read_hex]
    exact number_ne_unknown readDigits_ne_unknown
  by_cases hu : c = 'u'
  · subst hu
    by_cases hbrace : cs.head? = some '\x7b'
    · obtain ⟨cs, rfl⟩ := List.head?_eq_some_iff.mp hbrace
      rw [read_braced]
      exact number_ne_unknown readBraced_ne_unknown
    · rw [read_digits hbrace]
      exact number_ne_unknown readDigits_ne_unknown
  rw [read]
  split
  · simp
  split
  · simp
  · split
    · simp
    · intro h
      have hlength := congrArg String.length (EscapeError.unknown.inj (Except.error.inj h)).2
      simp at hlength

theorem unescapeFrom_ne_lone {q : Nat} (hwhole : hidesWhole false cs = true) :
    unescapeFrom position cs ≠ .error (.unknown q "\\") := by
  intro h
  fun_induction unescapeFrom position cs with
  | case1 => cases h
  | case2 position cs e' hread =>
    cases h
    cases cs with
    | nil => cases hwhole
    | cons c cs => exact read_cons_ne hread
  | case3 position cs found taken hread ih =>
    rw [(hides_escape hread position).2] at hwhole
    exact ih hwhole (map_eq_error.mp h)
  | case4 position c cs hc ih =>
    rw [hidesWhole_cons hc] at hwhole
    exact ih hwhole (map_eq_error.mp h)

end Escape

/-! ## Tokens -/

/-- What is between the quotes of a token. -/
def Token.inner (t : Token) : String := Grammar.unwrap 1 t.text

/-- The offsets, in the source, at which escapes start in what is between the quotes of a token, up
to the first one that is wrong. -/
def Token.escapes (t : Token) : List Nat :=
  (Escape.starts 0 t.inner.toList).map (· + (t.span.start + 1))

/-- In a token in quotes characters are hidden, at the noted offsets, where escapes start. -/
structure HidesEscapes (t : Token) (notes : List Nat) : Prop where
  ok : ∀ x, Escape.unescape t.inner = .ok x → t.escapes = notes
  /-- Up to the first error they are. -/
  upTo : ∀ e, Escape.unescape t.inner = .error e →
    t.escapes = notes.filter (· ≤ e.position + (t.span.start + 1))
  /-- No backslash stands alone before the closing quote. -/
  notAlone : ∀ position, Escape.unescape t.inner ≠ .error (.unknown position "\\")
  /-- What is wrong with the text is told with the place, between the quotes, of a noted
  backslash. -/
  position : ∀ f, Grammar.contents t = .error f → ∃ e before after, f = ⟨.invalidString e, t.span⟩ ∧
    t.inner = before ++ "\\" ++ after ∧ e.position = width before.toList ∧
    e.position + (t.span.start + 1) ∈ notes

theorem hidesEscapes_of_quotedAt {t : Token} {notes : List Nat}
    (h : Lexer.QuotedAt t.span.start notes t.text.toList) : HidesEscapes t notes := by
  obtain ⟨quote, body, htext, hwhole, hnotes⟩ := h
  have hinner : t.inner.toList = body := by simp [Token.inner, Grammar.unwrap, htext]
  have hshift : notes = (hides 0 false body).map (· + (t.span.start + 1)) := by
    rw [hnotes, ← hides_shift, Nat.zero_add]
  have hwrong : ∀ e, Escape.unescape t.inner = .error e →
      t.escapes = notes.filter (· ≤ e.position + (t.span.start + 1)) ∧
        e.position + (t.span.start + 1) ∈ t.escapes := fun e he => by
    rw [Escape.unescape_eq_error, hinner] at he
    obtain ⟨heq, hmem⟩ := Escape.starts_of_error he
    rw [Token.escapes, hinner]
    refine ⟨?_, List.mem_map_of_mem hmem⟩
    rw [heq, hshift, List.filter_map]
    congr 2
    funext i
    simp
  refine ⟨fun x hx => ?_, fun e he => (hwrong e he).1, fun position h => ?_, fun f hf => ?_⟩
  · rw [Escape.unescape_eq_ok, hinner] at hx
    rw [Token.escapes, hinner, Escape.starts_of_ok hx, hshift]
  · rw [Escape.unescape_eq_error, hinner] at h
    exact Escape.unescapeFrom_ne_lone hwhole h
  · unfold Grammar.contents at hf
    split at hf
    · cases hf
    next e he =>
    cases hf
    obtain ⟨before, rest, x, hsplit, -, hread⟩ :=
      Escape.unescapeFrom_error (Escape.unescape_eq_error.mp he)
    refine ⟨e, String.ofList before, String.ofList rest, rfl, ?_, ?_, ?_⟩
    · rw [← String.toList_inj]
      simpa [Token.inner] using hsplit
    · rw [(Escape.told_read hread).position_eq, Nat.zero_add, String.toList_ofList]
    · obtain ⟨heq, hmem⟩ := hwrong e he
      rw [heq] at hmem
      exact (List.mem_filter.mp hmem).1

/-- Whenever bytes are split into tokens, noting where a backslash hides the character after it, the
tokens are the same, and in each one in quotes the noted backslashes are those at which escapes
start when it is unescaped, up to the first escape that is wrong. -/
theorem splitting_hides_escapes {bytes : Bytes} {ts : List Token} (h : tokenize bytes = .ok ts) :
    ∃ read, Lexer.tokensNoting bytes.length (Lexer.glyphs 0 bytes) = .ok read ∧
      ts = read.map Prod.fst ++ [.endAt bytes.length] ∧
      ∀ p ∈ read, p.1.kind = .string ∨ p.1.kind = .template → HidesEscapes p.1 p.2 := by
  obtain ⟨cs, words, rfl, hwords, rfl⟩ := tokenize_eq_ok_iff.mp h
  rw [Lexer.glyphs_encodeChars, Utf8.length_encodeChars]
  rw [← Lexer.tokensNoting_fst, Escape.map_eq_ok] at hwords
  obtain ⟨read, hread, rfl⟩ := hwords
  refine ⟨read, hread, rfl, fun p hp hkind => hidesEscapes_of_quotedAt ?_⟩
  exact Lexer.quotedAt_of_mem (Nat.zero_add _).symm hread p hp hkind

/-- In a template a backslash hides a back quote or another backslash, and the escape that is wrong
is the last one but one. -/
theorem splitting_hides_escapes_in_template :
    ∃ ts t, tokenize (Utf8.encode "`\\`$\x7b\\\\\x7d\\q\\n`") = .ok ts ∧
      Lexer.tokensNoting 13 (Lexer.glyphs 0 (Utf8.encode "`\\`$\x7b\\\\\x7d\\q\\n`")) =
        .ok [(t, [1, 5, 8, 10])] ∧
      ts = [t, .endAt 13] ∧ t.kind = .template ∧ t.escapes = [1, 5, 8] ∧
      HidesEscapes t [1, 5, 8, 10] := by
  have h : tokenize (Utf8.encode "`\\`$\x7b\\\\\x7d\\q\\n`") =
      .ok [⟨.template, ⟨0, 13⟩, "`\\`$\x7b\\\\\x7d\\q\\n`"⟩, .endAt 13] := by decide +kernel
  have hnoting : Lexer.tokensNoting 13 (Lexer.glyphs 0 (Utf8.encode "`\\`$\x7b\\\\\x7d\\q\\n`")) =
      .ok [(⟨.template, ⟨0, 13⟩, "`\\`$\x7b\\\\\x7d\\q\\n`"⟩, [1, 5, 8, 10])] := by decide +kernel
  obtain ⟨read, hread, -, hall⟩ := splitting_hides_escapes h
  obtain rfl := Except.ok.inj (hread.symm.trans hnoting)
  exact ⟨_, _, h, hnoting, rfl, rfl, by decide +kernel,
    hall _ (List.mem_singleton_self _) (.inr rfl)⟩

end LazyConfig
