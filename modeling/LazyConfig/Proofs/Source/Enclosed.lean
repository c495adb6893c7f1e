-- Splitting a text that stands in parentheses. The text is further on, and a line feed follows it,
-- which goes on with no token and ends a line comment. So each reader that comes to an end in the
-- text comes to the same end in the longer one.
-- Main statement: the tokens of a text in parentheses.
import LazyConfig.Proofs.Source.Blame
import LazyConfig.Proofs.Source.Layout
import LazyConfig.Proofs.Source.Moved

namespace LazyConfig

def Glyph.moved (k : Nat) (g : Glyph) : Glyph := ⟨g.offset + k, g.char⟩

namespace Lexer

/-- The glyphs of a text of so many bytes, further on in a longer text that goes on with a line feed
and with more. -/
def within (k size : Nat) (more gs : List Glyph) : List Glyph :=
  gs.map (Glyph.moved k) ++ ⟨size + k, .ok '\n'⟩ :: more

section

variable {k size size' start start' : Nat} {more gs left : List Glyph} {g : Glyph} {p : Char → Bool}

theorem within_nil : within k size more [] = ⟨size + k, .ok '\n'⟩ :: more := rfl

theorem within_cons (g : Glyph) (gs : List Glyph) :
    within k size more (g :: gs) = ⟨g.offset + k, g.char⟩ :: within k size more gs := rfl

/-! ## The next character -/

theorem getD_eq_iff {c : Option Char} {d : Char} (hd : d ≠ '\n') :
    c.getD '\n' = d ↔ c = some d := by
  cases c <;> simp [hd.symm]

theorem getD_ne {c : Option Char} {d : Char} (hd : d ≠ '\n') (h : ¬ c = some d) :
    ¬ some (c.getD '\n') = some d := by
  rwa [Option.some.injEq, getD_eq_iff hd]

/-- At the end of the text the next character is the line feed. -/
theorem peek_within {c : Option Char} (h : peek gs = .ok c) :
    peek (within k size more gs) = .ok (some (c.getD '\n')) := by
  cases gs with
  | nil =>
    cases h
    rfl
  | cons g gs =>
    simp only [peek] at h
    cases hc : g.char with
    | error e => simp [hc] at h
    | ok d =>
      simp only [hc, Except.ok.injEq] at h
      simp [within_cons, peek, hc, ← h]

theorem within_tail {c : Char} (h : peek gs = .ok (some c)) :
    (within k size more gs).tail = within k size more gs.tail := by
  obtain ⟨g, gs, rfl, -⟩ := exists_of_peek h
  rfl

/-! ## Strings, blobs and numbers -/

theorem skipWhile_within (hp : p '\n' = false) (h : skipWhile p gs = .ok left) :
    skipWhile p (within k size more gs) = .ok (within k size more left) := by
  induction gs with
  | nil =>
    cases h
    simp [within_nil, skipWhile, hp]
  | cons g gs ih =>
    unfold skipWhile at h
    rw [within_cons, skipWhile]
    split at h
    · cases h
    · next c hc =>
      simp only [hc]
      split at h
      · next hc' => rw [if_pos hc', ih h]
      · next hc' =>
        cases h
        rw [if_neg hc', within_cons, hc]

theorem closeQuote_within {quote : Char} {hidden : Bool}
    (h : closeQuote size start quote hidden gs = .ok left) :
    closeQuote size' start' quote hidden (within k size more gs) =
    .ok (within k size more left) := by
  fun_induction closeQuote size start quote hidden gs <;> simp_all [within_cons, closeQuote]

theorem closeBlob_within {form : BlobForm}
    (h : closeBlob size start form gs = .ok left) :
    closeBlob size' start' form (within k size more gs) = .ok (within k size more left) := by
  fun_induction closeBlob size start form gs <;> simp_all [within_cons, closeBlob]

theorem closeTemplate_within {depth : Nat} {hidden : Bool}
    (h : closeTemplate size start depth hidden gs = .ok left) :
    closeTemplate size' start' depth hidden (within k size more gs) =
    .ok (within k size more left) := by
  fun_induction closeTemplate size start depth hidden gs with
  | case1 | case3 | case6 => cases h
  | case2 depth g gs ih => exact ih h
  | case4 depth g gs hc ih =>
    simp only [within_cons, closeTemplate, hc, if_true]
    exact ih h
  | case5 depth g gs c hc hslash hquote =>
    cases h
    simp only [within_cons, closeTemplate, hc, if_neg hslash, if_pos hquote]
  | case7 depth g gs hc hslash hquote hpeek ih =>
    simp only [within_cons, closeTemplate, hc, if_neg hslash, if_neg hquote,
      peek_within hpeek, if_true, Option.getD_some]
    exact ih h
  | case8 depth g gs next hpeek hnext hc hslash hquote ih =>
    have hnext' := getD_ne (d := '{') (by decide) hnext
    simp only [within_cons, closeTemplate, hc, if_neg hslash, if_neg hquote,
      peek_within hpeek, if_true, if_neg hnext']
    exact ih h
  | case9 depth g gs c hc hslash hquote hdollar hbrace ih =>
    simp only [within_cons, closeTemplate, hc, if_neg hslash, if_neg hquote, if_neg hdollar,
      if_pos hbrace]
    exact ih h
  | case10 depth g gs c hc hslash hquote hdollar hbrace ih =>
    simp only [within_cons, closeTemplate, hc, if_neg hslash, if_neg hquote, if_neg hdollar,
      if_neg hbrace]
    exact ih h

theorem sign_within (h : sign gs = .ok left) :
    sign (within k size more gs) = .ok (within k size more left) := by
  unfold sign at h ⊢
  obtain ⟨c, hc, h⟩ := bind_ok h
  simp only [peek_within hc, bind, Except.bind]
  cases c with
  | none =>
    cases h
    rfl
  | some c =>
    cases h
    simp only [Option.getD_some, within_tail hc]
    split <;> rfl

theorem bigMark_within (h : bigMark gs = .ok left) :
    bigMark (within k size more gs) = .ok (within k size more left) := by
  unfold bigMark at h ⊢
  obtain ⟨c, hc, h⟩ := bind_ok h
  simp only [peek_within hc, bind, Except.bind]
  cases h
  cases c with
  | none => rfl
  | some c =>
    simp only [Option.getD_some, within_tail hc]
    split <;> rfl

theorem fraction_within (h : fraction gs = .ok left) :
    fraction (within k size more gs) = .ok (within k size more left) := by
  unfold fraction at h ⊢
  obtain ⟨c, hc, h⟩ := bind_ok h
  simp only [peek_within hc, bind, Except.bind]
  split at h
  · obtain ⟨d, hd, h⟩ := bind_ok h
    simp only [Option.getD_some, within_tail hc, peek_within hd]
    split at h
    · next d =>
      simp only [Option.getD_some]
      split at h
      · next hdigit => rw [if_pos hdigit, skipWhile_within (by decide) h]
      · next hdigit =>
        cases h
        rw [if_neg hdigit]
    · cases h
      rfl
  · next hpoint =>
    cases h
    cases c with
    | none => rfl
    | some c => simp only [Option.getD_some]

theorem exponent_within (h : exponent gs = .ok left) :
    exponent (within k size more gs) = .ok (within k size more left) := by
  unfold exponent at h ⊢
  obtain ⟨c, hc, h⟩ := bind_ok h
  simp only [peek_within hc, bind, Except.bind]
  cases c with
  | none =>
    cases h
    rfl
  | some c =>
    simp only [Option.getD_some, within_tail hc] at h ⊢
    split at h
    · next hletter =>
      obtain ⟨digits, hdigits, h⟩ := bind_ok h
      obtain ⟨d, hd, h⟩ := bind_ok h
      simp only [if_pos hletter, sign_within hdigits, peek_within hd]
      cases d with
      | none =>
        cases h
        rfl
      | some d =>
        simp only [Option.getD_some] at h ⊢
        split at h
        · next hdigit => rw [if_pos hdigit, skipWhile_within (by decide) h]
        · next hdigit =>
          cases h
          rw [if_neg hdigit]
    · next hletter =>
      cases h
      rw [if_neg hletter]

theorem number_within (h : number gs = .ok left) :
    number (within k size more gs) = .ok (within k size more left) := by
  unfold number at h ⊢
  obtain ⟨a, ha, h⟩ := bind_ok h
  obtain ⟨b, hb, h⟩ := bind_ok h
  obtain ⟨c, hc, h⟩ := bind_ok h
  simp only [skipWhile_within (by decide) ha, fraction_within hb, exponent_within hc,
    bigMark_within h, bind, Except.bind]

/-! ## Names and symbols -/

theorem here_within (size' : Nat) (gs : List Glyph) :
    here size' (within k size more gs) = here size gs + k := by
  cases gs <;> rfl

theorem chars_taken_within (given : List Glyph) :
    chars (taken (within k size more given) (within k size more left)) =
    chars (taken given left) := by
  have hlength :
      ∀ gs : List Glyph, (within k size more gs).length = gs.length + (more.length + 1) := by
    intro gs
    simp [within]
  have hle : given.length - left.length ≤ (given.map (Glyph.moved k)).length := by simp
  rw [taken, taken, hlength, hlength, Nat.add_sub_add_right, within,
    List.take_append_of_le_length hle, ← List.map_take, chars, chars, List.filterMap_map]
  rfl

theorem nameOrBlob_within {kind : TokenKind} (h : nameOrBlob size g gs = .ok (kind, left)) :
    nameOrBlob size' (g.moved k) (within k size more gs) = .ok (kind, within k size more left) := by
  unfold nameOrBlob at h ⊢
  obtain ⟨rest, hrest, h⟩ := bind_ok h
  obtain ⟨c, hc, h⟩ := bind_ok h
  have hword : chars (taken (within k size more (g :: gs)) (within k size more rest)) =
      chars (taken (g :: gs) rest) := chars_taken_within (g :: gs)
  have hwidth : here size' (within k size more rest) - (g.moved k).offset =
      here size rest - g.offset := by
    rw [here_within, Glyph.moved, Nat.add_sub_add_right]
  have hquote : some (c.getD '\n') = some '\'' ↔ c = some '\'' := by
    rw [Option.some.injEq, getD_eq_iff (by decide)]
  simp only [skipWhile_within (by decide) hrest, peek_within hc, bind, Except.bind, hquote]
  split at h
  · next hc' =>
    have hblob :
        blobForm? (chars (taken (g.moved k :: within k size more gs) (within k size more rest)))
        (here size' (within k size more rest) - (g.moved k).offset) =
        blobForm? (chars (taken (g :: gs) rest)) (here size rest - g.offset) := by
      rw [hwidth]
      exact congrArg (blobForm? · _) hword
    subst hc'
    rw [if_pos rfl, hblob, within_tail hc]
    split at h
    · next form hform =>
      obtain ⟨after, hafter, h⟩ := bind_ok h
      cases h
      simp only [closeBlob_within hafter]
    · cases h
      rfl
  · next hc' =>
    cases h
    rw [if_neg hc']

theorem spell_within {cs : List Char} (hcs : '\n' ∉ cs) {found : Option (List Glyph)}
    (h : spell cs gs = .ok found) :
    spell cs (within k size more gs) = .ok (found.map (within k size more)) := by
  induction cs generalizing gs with
  | nil =>
    cases h
    rfl
  | cons c cs ih =>
    rw [List.mem_cons, not_or] at hcs
    unfold spell at h ⊢
    obtain ⟨d, hd, h⟩ := bind_ok h
    simp only [peek_within hd, bind, Except.bind]
    cases gs with
    | nil =>
      cases h
      cases hd
      simp [within_nil, hcs.1]
    | cons g gs =>
      cases d with
      | none =>
        simp only [peek] at hd
        split at hd
        all_goals cases hd
      | some d =>
        simp only [within_cons, Option.getD_some] at h ⊢
        split at h
        · next heq => rw [if_pos heq, ih hcs.2 h]
        · next heq =>
          cases h
          rw [if_neg heq]
          rfl

theorem firstSymbol_within {all : List (List Char)} (hall : ∀ symbol ∈ all, '\n' ∉ symbol)
    {found : Option (List Glyph)} (h : firstSymbol gs all = .ok found) :
    firstSymbol (within k size more gs) all = .ok (found.map (within k size more)) := by
  induction all with
  | nil =>
    cases h
    rfl
  | cons symbol others ih =>
    unfold firstSymbol at h ⊢
    obtain ⟨first, hfirst, h⟩ := bind_ok h
    simp only [spell_within (hall symbol (by simp)) hfirst, bind, Except.bind]
    cases first with
    | some rest =>
      cases h
      rfl
    | none => exact ih (fun s hs => hall s (by simp [hs])) h

theorem lexeme_within {c : Char} {kind : TokenKind} (h : lexeme size g c gs = .ok (kind, left)) :
    lexeme size' (g.moved k) c (within k size more gs) = .ok (kind, within k size more left) := by
  unfold lexeme at h ⊢
  split at h
  · next hdigit =>
    obtain ⟨rest, hrest, h⟩ := bind_ok h
    cases h
    rw [if_pos hdigit, number_within hrest]
    rfl
  next hdigit =>
  rw [if_neg hdigit]
  split at h
  · next hquote =>
    obtain ⟨rest, hrest, h⟩ := bind_ok h
    cases h
    rw [if_pos hquote, closeQuote_within hrest]
    rfl
  next hquote =>
  rw [if_neg hquote]
  split at h
  · next hquote =>
    obtain ⟨rest, hrest, h⟩ := bind_ok h
    cases h
    rw [if_pos hquote, closeTemplate_within hrest]
    rfl
  next hquote =>
  rw [if_neg hquote]
  split at h
  · next hdot =>
    obtain ⟨rest, hrest, h⟩ := bind_ok h
    cases h
    rw [if_pos hdot, skipWhile_within (by decide) hrest]
    rfl
  next hdot =>
  rw [if_neg hdot]
  split at h
  · next hname =>
    rw [if_pos hname, nameOrBlob_within h]
  · next hname =>
    obtain ⟨found, hfound, h⟩ := bind_ok h
    have hfound' : firstSymbol (within k size more (g :: gs)) symbols = _ :=
      firstSymbol_within (by decide) hfound
    rw [within_cons] at hfound'
    rw [if_neg hname, Glyph.moved, hfound']
    cases found with
    | none => cases h
    | some rest =>
      cases h
      rfl

/-! ## Blanks and comments -/

/-- The place in blank text, further on. -/
def Blank.moved (k : Nat) : Blank → Blank
  | .opening start => .opening (start + k)
  | .block start => .block (start + k)
  | state => state

/-- What is left of the longer text: where all of the text is passed over, the line feed is, too. -/
def remains (k size : Nat) (more : List Glyph) : List Glyph → List Glyph
  | [] => more
  | g :: gs => within k size more (g :: gs)

theorem skipBlank_within {state : Blank} (hmore : skipBlank size' .between more = .ok more)
    (h : skipBlank size state gs = .ok left) :
    skipBlank size' (state.moved k) (within k size more gs) = .ok (remains k size more left) := by
  fun_induction skipBlank size state gs with
  | case3 | case4 | case6 | case8 | case13 | case17 | case18 => cases h
  -- The text ends in blanks or in a line comment, which the line feed ends.
  | case1 | case2 | case5 =>
    cases h
    exact hmore
  | case7 g gs c hc hblank ih =>
    simp only [Blank.moved, within_cons, skipBlank, hc, if_pos hblank]
    exact ih h
  | case9 g gs hc hblank hpeek ih =>
    simp only [Blank.moved, within_cons, skipBlank, hc, if_neg hblank, peek_within hpeek, if_true,
      Option.getD_some]
    exact ih h
  | case10 g gs hc hblank hpeek hslash ih =>
    simp only [Blank.moved, within_cons, skipBlank, hc, if_neg hblank, peek_within hpeek, if_true,
      Option.getD_some, if_neg hslash]
    exact ih h
  | case11 g gs next hpeek hslash hstar hc hblank =>
    cases h
    have hslash' := getD_ne (d := '/') (by decide) hslash
    have hstar' := getD_ne (d := '*') (by decide) hstar
    simp only [Blank.moved, within_cons, skipBlank, hc, if_neg hblank, peek_within hpeek, if_true,
      if_neg hslash', if_neg hstar', remains]
  | case12 g gs c hc hblank hslash =>
    cases h
    simp only [Blank.moved, within_cons, skipBlank, hc, if_neg hblank, if_neg hslash, remains]
  | case14 g gs hc ih =>
    simp only [Blank.moved, within_cons, skipBlank, hc, if_true]
    exact ih h
  | case15 g gs c hc hline ih =>
    simp only [Blank.moved, within_cons, skipBlank, hc, if_neg hline]
    exact ih h
  | case16 start g gs ih => exact ih h
  | case19 start g gs hc hpeek ih =>
    simp only [Blank.moved, within_cons, skipBlank, hc, peek_within hpeek, if_true,
      Option.getD_some]
    exact ih h
  | case20 start g gs next hpeek hslash hc ih =>
    have hslash' := getD_ne (d := '/') (by decide) hslash
    simp only [Blank.moved, within_cons, skipBlank, hc, peek_within hpeek, if_true, if_neg hslash']
    exact ih h
  | case21 start g gs c hc hstar ih =>
    simp only [Blank.moved, within_cons, skipBlank, hc, if_neg hstar]
    exact ih h
  | case22 g gs ih => exact ih h

/-! ## Splitting -/

/-- The parenthesis at the end of the longer text. -/
def closing (offset size : Nat) : Token := ⟨.punct, ⟨offset, size⟩, ")"⟩

/-- The longer text has the tokens of the text, and the parenthesis. -/
theorem tokens_within (k size' offset : Nat) {ts : List Token} (h : tokens size gs = .ok ts) :
    tokens size' (within k size [⟨offset, .ok ')'⟩] gs) =
      .ok (ts.map (Token.moved k) ++ [closing offset size']) := by
  have hmore : skipBlank size' .between [⟨offset, .ok ')'⟩] = .ok [⟨offset, .ok ')'⟩] := rfl
  fun_induction tokens size gs generalizing ts with
  | case1 | case3 | case4 => cases h
  | case2 gs hblank =>
    cases h
    have hblank' := skipBlank_within (k := k) hmore hblank
    have hlexeme : lexeme size' ⟨offset, .ok ')'⟩ ')' [] = .ok (.punct, []) := rfl
    rw [tokens_step hblank' rfl hlexeme, tokens_nil rfl]
    rfl
  | case5 gs g rest hblank c hc kind after hlexeme text =>
    rename_i ih
    obtain ⟨others, hothers, rfl⟩ : ∃ others, tokens size after = .ok others ∧
        ts = ⟨kind, ⟨g.offset, here size after⟩, text⟩ :: others := by
      cases hothers : tokens size after with
      | error e =>
        rw [hothers] at h
        cases h
      | ok others =>
        rw [hothers] at h
        cases h
        exact ⟨others, rfl, rfl⟩
    have hblank' : skipBlank size' .between (within k size [⟨offset, .ok ')'⟩] gs) =
        .ok (g.moved k :: within k size [⟨offset, .ok ')'⟩] rest) := skipBlank_within hmore hblank
    have hlexeme' : lexeme size' (g.moved k) c (within k size [⟨offset, .ok ')'⟩] rest) =
        .ok (kind, within k size [⟨offset, .ok ')'⟩] after) := lexeme_within hlexeme
    have htext : chars (taken (g.moved k :: within k size [⟨offset, .ok ')'⟩] rest)
        (within k size [⟨offset, .ok ')'⟩] after)) = chars (taken (g :: rest) after) :=
      chars_taken_within (g :: rest)
    rw [tokens_step hblank' hc hlexeme', ih hothers, here_within, htext]
    rfl

end

end Lexer

open Lexer
open Utf8 (encodeChars width)

/-! ## Texts in parentheses -/

theorem Lexer.places_moved (k offset : Nat) (cs : List Char) :
    places (offset + k) cs = (places offset cs).map (Glyph.moved k) := by
  induction cs generalizing offset with
  | nil => rfl
  | cons c cs ih =>
    rw [places_cons, places_cons, List.map_cons, ← ih, Nat.add_right_comm]
    rfl

theorem encode_enclosed (cs : List Char) : Utf8.encode "(" ++ encodeChars cs ++ Utf8.encode "\n)" =
    encodeChars ('(' :: (cs ++ ['\n', ')'])) := by
  have hopen : Utf8.encode "(" = encodeChars ['('] := rfl
  have hclose : Utf8.encode "\n)" = encodeChars ['\n', ')'] := rfl
  rw [hopen, hclose, ← Utf8.encodeChars_append, ← Utf8.encodeChars_append]
  rfl

/-- Behind the first parenthesis stands the text, and then the last one. -/
theorem Lexer.places_enclosed (cs : List Char) : places 1 (cs ++ ['\n', ')']) =
    within 1 (width cs) [⟨width cs + 2, .ok ')'⟩] (places 0 cs) := by
  rw [within, ← places_moved, places_append, Nat.zero_add, Nat.add_comm 1 (width cs)]
  rfl

theorem width_enclosed (cs : List Char) : width ('(' :: (cs ++ ['\n', ')'])) = width cs + 3 := by
  have hopen : '('.utf8Size = 1 := rfl
  have hclose : width ['\n', ')'] = 2 := rfl
  rw [Utf8.width_cons, Utf8.width_append, hopen, hclose]
  omega

theorem tokens_enclosed {cs : List Char} {words : List Token}
    (h : tokens (width cs) (places 0 cs) = .ok words) :
    tokens (width ('(' :: (cs ++ ['\n', ')']))) (places 0 ('(' :: (cs ++ ['\n', ')']))) =
      .ok (⟨.punct, ⟨0, 1⟩, "("⟩ ::
        (words.map (Token.moved 1) ++ [closing (width cs + 2) (width cs + 3)])) := by
  have hblank : skipBlank (width cs + 3) .between (places 0 ('(' :: (cs ++ ['\n', ')']))) =
      .ok (⟨0, .ok '('⟩ :: places 1 (cs ++ ['\n', ')'])) := rfl
  have hlexeme : lexeme (width cs + 3) ⟨0, .ok '('⟩ '(' (places 1 (cs ++ ['\n', ')'])) =
      .ok (.punct, places 1 (cs ++ ['\n', ')'])) := rfl
  have htext : chars (taken (⟨0, .ok '('⟩ :: places 1 (cs ++ ['\n', ')']))
      (places 1 (cs ++ ['\n', ')']))) = ['('] := chars_taken_places 0 ['('] (cs ++ ['\n', ')'])
  have hhere : here (width cs + 3) (places 1 (cs ++ ['\n', ')'])) = 1 := by cases cs <;> rfl
  rw [width_enclosed, tokens_step hblank rfl hlexeme, hhere, htext, places_enclosed,
    tokens_within 1 _ _ h]
  rfl

/-- A text in parentheses, with a line feed before the last one, has the tokens of the text between
those of the parentheses. -/
theorem tokenize_enclosed {bytes : Bytes} {ts : List Token} (h : tokenize bytes = .ok ts) :
    ∃ words, ts = words ++ [.endAt bytes.length] ∧
      tokenize (Utf8.encode "(" ++ bytes ++ Utf8.encode "\n)") =
        .ok (⟨.punct, ⟨0, 1⟩, "("⟩ :: (words.map (Token.moved 1) ++
          [closing (bytes.length + 2) (bytes.length + 3), .endAt (bytes.length + 3)])) := by
  obtain ⟨cs, words, rfl, hwords, rfl⟩ := tokenize_eq_ok_iff.mp h
  rw [Utf8.length_encodeChars, encode_enclosed]
  refine ⟨words, rfl, tokenize_eq_ok_iff.mpr ⟨_, _, rfl, tokens_enclosed hwords, ?_⟩⟩
  rw [width_enclosed]
  simp

end LazyConfig
