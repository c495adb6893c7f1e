-- How the tokens of a text tile it. Before each token and at the end stands a gap of blanks and
-- comments, and where no mark closes a token it is as long as it can be.
-- Main statements: what is split is a valid text that its tokens tile, and where the tokens stand.
import LazyConfig.Proofs.Source.Words
import LazyConfig.Source.Grammar

namespace LazyConfig.Lexer

open Utf8 (width encodeChars)

variable {offset size start : Nat} {cs gap w rest body : List Char} {left : List Glyph}

/-! ## Gaps -/

/-- Blanks and whole comments. A line comment goes up to its line feed, and a block comment up to
the first star with a slash after it. -/
inductive IsGap : List Char → Prop
  | nil : IsGap []
  | blank {c : Char} {gap : List Char} (hc : isBlank c = true) (h : IsGap gap) : IsGap (c :: gap)
  | line {body gap : List Char} (hbody : '\n' ∉ body) (h : IsGap gap) :
      IsGap ('/' :: '/' :: (body ++ '\n' :: gap))
  | block {body gap : List Char} (hbody : ¬ ['*', '/'] <:+: body) (h : IsGap gap) :
      IsGap ('/' :: '*' :: (body ++ '*' :: '/' :: gap))

/-- What may stand before the end of a text: a gap, and then perhaps a line comment that has no line
feed. -/
inductive IsLastGap : List Char → Prop
  | gap {gap : List Char} (h : IsGap gap) : IsLastGap gap
  | line {gap body : List Char} (h : IsGap gap) (hbody : '\n' ∉ body) :
      IsLastGap (gap ++ '/' :: '/' :: body)

theorem IsGap.append (h : IsGap gap) {more : List Char} (hmore : IsGap more) :
    IsGap (gap ++ more) := by
  induction h with
  | nil => exact hmore
  | blank hc h ih => exact .blank hc ih
  | line hbody h ih => simpa using IsGap.line hbody ih
  | block hbody h ih => simpa using IsGap.block hbody ih

theorem IsGap.append_last (h : IsGap gap) {more : List Char} (hmore : IsLastGap more) :
    IsLastGap (gap ++ more) := by
  cases hmore with
  | gap hmore => exact .gap (h.append hmore)
  | line hmore hbody =>
    rw [← List.append_assoc]
    exact .line (h.append hmore) hbody

/-! ## Passing over a gap -/

theorem skipBlank_blank {c : Char} (hc : isBlank c = true) (cs : List Char) (size offset : Nat) :
    skipBlank size .between (places offset (c :: cs)) =
      skipBlank size .between (places (offset + width [c]) cs) := by
  simp [places_cons, skipBlank, hc]

theorem skipBlank_line (cs : List Char) (size offset : Nat) :
    skipBlank size .between (places offset ('/' :: '/' :: cs)) =
      skipBlank size .line (places (offset + width ['/', '/']) cs) := by
  simp [places_cons, skipBlank, peek, isBlank, Nat.add_assoc]

theorem skipBlank_block (cs : List Char) (size offset : Nat) :
    skipBlank size .between (places offset ('/' :: '*' :: cs)) =
      skipBlank size (.block offset) (places (offset + width ['/', '*']) cs) := by
  simp [places_cons, skipBlank, peek, isBlank, Nat.add_assoc]

/-- A line comment is passed over up to its line feed. -/
theorem skipBlank_line_body (hbody : '\n' ∉ body) (cs : List Char) (size offset : Nat) :
    skipBlank size .line (places offset (body ++ '\n' :: cs)) =
      skipBlank size .between (places (offset + width (body ++ ['\n'])) cs) := by
  induction body generalizing offset with
  | nil => simp [places_cons, skipBlank]
  | cons c body ih =>
    rw [List.mem_cons, not_or] at hbody
    rw [List.cons_append, places_cons, skipBlank]
    simp only [Ne.symm hbody.1, if_false, ih hbody.2]
    simp [Nat.add_assoc]

/-- A block comment is passed over up to the first star with a slash after it. -/
theorem skipBlank_block_body (hbody : ¬ ['*', '/'] <:+: body) (cs : List Char)
    (size start offset : Nat) :
    skipBlank size (.block start) (places offset (body ++ '*' :: '/' :: cs)) =
      skipBlank size .between (places (offset + width (body ++ ['*', '/'])) cs) := by
  induction body generalizing offset with
  | nil => simp [places_cons, skipBlank, peek, Nat.add_assoc]
  | cons c body ih =>
    rw [List.infix_cons_iff, not_or] at hbody
    have hnext : c = '*' → (body ++ '*' :: '/' :: cs).head? ≠ some '/' := by
      rintro rfl
      cases body with
      | nil => simp
      | cons d body =>
        rintro hd
        simp only [List.cons_append, List.head?_cons, Option.some.injEq] at hd
        exact hbody.1 (by simp [hd])
    rw [List.cons_append, places_cons, skipBlank]
    simp only [peek_places]
    by_cases hc : c = '*'
    · simp only [hc, if_true, hnext hc, if_false, ih hbody.2]
      simp [Nat.add_assoc]
    · simp only [hc, if_false, ih hbody.2]
      simp [Nat.add_assoc]

theorem skipBlank_isGap (h : IsGap gap) (cs : List Char) (size offset : Nat) :
    skipBlank size .between (places offset (gap ++ cs)) =
      skipBlank size .between (places (offset + width gap) cs) := by
  induction h generalizing offset with
  | nil => rfl
  | blank hc h ih =>
    rw [List.cons_append, skipBlank_blank hc, ih]
    simp [Nat.add_assoc]
  | line hbody h ih =>
    simp only [List.cons_append, List.append_assoc]
    rw [skipBlank_line, skipBlank_line_body hbody, ih]
    simp [Utf8.width_append, Nat.add_assoc]
  | block hbody h ih =>
    simp only [List.cons_append, List.append_assoc]
    rw [skipBlank_block, skipBlank_block_body hbody, ih]
    simp [Utf8.width_append, Nat.add_assoc]

/-! ## What is passed over is a gap -/

theorem took_line (h : skipBlank size .line (places offset cs) = .ok left) :
    (left = [] ∧ '\n' ∉ cs) ∨ ∃ body rest, '\n' ∉ body ∧ cs = body ++ '\n' :: rest ∧
      skipBlank size .between (places (offset + width (body ++ ['\n'])) rest) = .ok left := by
  induction cs generalizing offset with
  | nil =>
    cases h
    exact .inl ⟨rfl, by simp⟩
  | cons c cs ih =>
    rw [places_cons, skipBlank] at h
    simp only at h
    split at h
    · next hc =>
      subst hc
      exact .inr ⟨[], cs, by simp, rfl, by simpa using h⟩
    · next hc =>
      rcases ih h with ⟨hleft, hcs⟩ | ⟨body, rest, hbody, rfl, hrest⟩
      · exact .inl ⟨hleft, by simp [Ne.symm hc, hcs]⟩
      · refine .inr ⟨c :: body, rest, by simp [Ne.symm hc, hbody], rfl, ?_⟩
        rw [← hrest]
        simp [Nat.add_assoc]

theorem took_block (h : skipBlank size (.block start) (places offset cs) = .ok left) :
    ∃ body rest, ¬ ['*', '/'] <:+: body ∧ cs = body ++ '*' :: '/' :: rest ∧
      skipBlank size .between (places (offset + width (body ++ ['*', '/'])) rest) = .ok left := by
  induction cs generalizing offset with
  | nil => cases h
  | cons c cs ih =>
    rw [places_cons, skipBlank] at h
    simp only [peek_places] at h
    have hmore : skipBlank size (.block start) (places (offset + c.utf8Size) cs) = .ok left →
        (c = '*' → cs.head? ≠ some '/') → ∃ body rest, ¬ ['*', '/'] <:+: body ∧
          c :: cs = body ++ '*' :: '/' :: rest ∧
          skipBlank size .between (places (offset + width (body ++ ['*', '/'])) rest) =
            .ok left := by
      intro h hnext
      obtain ⟨body, rest, hbody, rfl, hrest⟩ := ih h
      refine ⟨c :: body, rest, ?_, rfl, ?_⟩
      · rw [List.infix_cons_iff, not_or]
        refine ⟨?_, hbody⟩
        rintro ⟨more, heq⟩
        obtain ⟨rfl, rfl⟩ := List.cons.inj heq
        exact hnext rfl rfl
      · rw [← hrest]
        simp [Nat.add_assoc]
    split at h
    · next hc =>
      split at h
      · next hnext =>
        obtain ⟨rest, rfl⟩ := List.head?_eq_some_iff.mp hnext
        refine ⟨[], rest, by simp, by rw [hc]; rfl, ?_⟩
        rw [← h, hc]
        simp [places_cons, skipBlank, Nat.add_assoc]
      · next hnext => exact hmore h fun _ => hnext
    · next hc => exact hmore h fun hstar => absurd hstar hc

/-- What is passed over between words is a gap, and one at the end of a text if it is all. -/
theorem took_skipBlank (h : skipBlank size .between (places offset cs) = .ok left) :
    Took IsGap offset cs left ∨ left = [] ∧ IsLastGap cs := by
  induction hn : cs.length using Nat.strong_induction_on generalizing cs offset with
  | h n ih
  -- After a piece of a gap the reader is between words again, with less of the text before it.
  have hpiece : ∀ piece rest, IsGap piece → piece ≠ [] → cs = piece ++ rest →
      skipBlank size .between (places (offset + width piece) rest) = .ok left →
      Took IsGap offset cs left ∨ left = [] ∧ IsLastGap cs := by
    rintro piece rest hp hne rfl h
    have hlt : rest.length < n := by
      have := List.length_pos_iff.mpr hne
      rw [List.length_append] at hn
      omega
    rcases ih _ hlt h rfl with ⟨gap, rest, hgap, rfl, rfl⟩ | ⟨hleft, hlast⟩
    · refine .inl ⟨piece ++ gap, rest, hp.append hgap, by simp, ?_⟩
      rw [Utf8.width_append, Nat.add_assoc]
    · exact .inr ⟨hleft, hp.append_last hlast⟩
  have hstay : left = places offset cs → Took IsGap offset cs left ∨ left = [] ∧ IsLastGap cs := by
    rintro rfl
    exact .inl (took_nothing .nil)
  cases cs with
  | nil =>
    cases h
    exact hstay rfl
  | cons c cs =>
    by_cases hblank : isBlank c = true
    · rw [skipBlank_blank hblank] at h
      exact hpiece [c] cs (.blank hblank .nil) (by simp) rfl h
    by_cases hline : c = '/' ∧ cs.head? = some '/'
    · obtain ⟨rfl, hnext⟩ := hline
      obtain ⟨cs, rfl⟩ := List.head?_eq_some_iff.mp hnext
      rw [skipBlank_line] at h
      rcases took_line h with ⟨hleft, hcs⟩ | ⟨body, rest, hbody, rfl, hrest⟩
      · exact .inr ⟨hleft, .line .nil hcs⟩
      · rw [Nat.add_assoc, ← Utf8.width_append] at hrest
        exact hpiece ('/' :: '/' :: (body ++ ['\n'])) rest (.line hbody .nil) (by simp)
          (by simp) hrest
    by_cases hblock : c = '/' ∧ cs.head? = some '*'
    · obtain ⟨rfl, hnext⟩ := hblock
      obtain ⟨cs, rfl⟩ := List.head?_eq_some_iff.mp hnext
      rw [skipBlank_block] at h
      obtain ⟨body, rest, hbody, rfl, hrest⟩ := took_block h
      rw [Nat.add_assoc, ← Utf8.width_append] at hrest
      exact hpiece ('/' :: '*' :: (body ++ ['*', '/'])) rest (.block hbody .nil) (by simp)
        (by simp) hrest
    · refine hstay ?_
      rw [places_cons, skipBlank] at h
      simp only [hblank, Bool.false_eq_true, if_false, peek_places] at h
      by_cases hc : c = '/'
      · have hslash : cs.head? ≠ some '/' := fun hnext => hline ⟨hc, hnext⟩
        have hstar : cs.head? ≠ some '*' := fun hnext => hblock ⟨hc, hnext⟩
        simp only [hc, if_true, hslash, hstar, if_false, Except.ok.injEq] at h
        rw [← h, places_cons, hc]
      · simp only [hc, if_false, Except.ok.injEq] at h
        rw [← h, places_cons]

/-! ## Tokens -/

/-- From an offset on, the tokens tile a text: each stands where the gap before it ends and is the
token that the rest of the text begins with, and the last one is the end. -/
inductive Tiles : (offset : Nat) → List Char → List Token → Prop
  | done {offset : Nat} {gap : List Char} (hgap : IsLastGap gap) :
      Tiles offset gap [.endAt (offset + width gap)]
  | token {offset : Nat} {gap w rest : List Char} {kind : TokenKind} {ts : List Token}
      (hgap : IsGap gap) (hw : Lexeme kind (w ++ rest) w)
      (h : Tiles (offset + width gap + width w) rest ts) :
      Tiles offset (gap ++ (w ++ rest))
        (⟨kind, ⟨offset + width gap, offset + width gap + width w⟩, String.ofList w⟩ :: ts)

theorem here_places (offset : Nat) (cs : List Char) :
    here (offset + width cs) (places offset cs) = offset := by
  cases cs <;> rfl

theorem tiles_tokens {ts : List Token} (hsize : size = offset + width cs)
    (h : tokens size (places offset cs) = .ok ts) : Tiles offset cs (ts ++ [.endAt size]) := by
  generalize hgs : places offset cs = gs at h
  fun_induction tokens size gs generalizing offset cs ts with
  | case1 | case3 | case4 => cases h
  | case2 gs hblank =>
    cases h
    subst hgs
    rw [hsize]
    rcases took_skipBlank hblank with ⟨gap, rest, hgap, rfl, hrest⟩ | ⟨-, hlast⟩
    · cases rest with
      | nil => simpa using Tiles.done (.gap hgap)
      | cons c rest => cases hrest
    · exact .done hlast
  | case5 gs g rest hblank c hc kind after hlexeme text =>
    rename_i ih
    subst hgs
    rcases took_skipBlank hblank with ⟨gap, cs, hgap, rfl, hcs⟩ | ⟨hleft, -⟩
    swap
    · cases hleft
    cases cs with
    | nil => cases hcs
    | cons d cs =>
      rw [places_cons] at hcs
      cases hcs
      cases hc
      obtain ⟨w, left, hw, hall, rfl⟩ := took_lexeme hlexeme
      have hchars := chars_taken_places (offset + width gap) w left
      rw [← hall, places_cons] at hchars
      have htext : text = String.ofList w := congrArg String.ofList hchars
      rw [hall] at hw hsize ⊢
      have hsize' : size = offset + width gap + width w + width left := by
        rw [hsize]
        simp only [Utf8.width_append]
        omega
      have hhere : here size (places (offset + width gap + width w) left) =
          offset + width gap + width w := by
        rw [hsize', here_places]
      cases hmore : tokens size (places (offset + width gap + width w) left) with
      | error e =>
        rw [hmore] at h
        cases h
      | ok more =>
        rw [hmore] at h
        cases h
        rw [htext, hhere]
        exact .token hgap hw (ih hsize' rfl hmore)

theorem Tiles.words {ts : List Token} (h : Tiles offset cs ts) :
    ∃ words, ts = words ++ [.endAt (offset + width cs)] ∧
      ∀ t ∈ words, Matches t.kind t.text.toList := by
  induction h with
  | done hgap => exact ⟨[], rfl, by simp⟩
  | @token offset gap w rest kind ts hgap hw h ih =>
    obtain ⟨words, rfl, hwords⟩ := ih
    refine ⟨_ :: words, by simp [Utf8.width_append, Nat.add_assoc]; rfl,
      List.forall_mem_cons.mpr ⟨?_, hwords⟩⟩
    simpa using hw.fits

/-! ## Where tokens stand -/

/-- The word stands in a text at a span, which starts and ends between characters. -/
def Stands (cs w : List Char) (s : Span) : Prop :=
  ∃ front back, cs = front ++ (w ++ back) ∧ s = ⟨width front, width front + width w⟩

/-- What is inside a word stands inside its span. -/
theorem Stands.inner {a b : List Char} {s : Span} (h : Stands cs (a ++ (w ++ b)) s) :
    Stands cs w ⟨s.start + width a, s.stop - width b⟩ := by
  obtain ⟨front, back, rfl, rfl⟩ := h
  refine ⟨front ++ a, b ++ back, by simp, ?_⟩
  simp only [Utf8.width_append, Span.mk.injEq, true_and]
  omega

/-- The contents of a token stand inside its span. -/
theorem Stands.unwrap {text : String} {s : Span} (h : Stands cs text.toList s) (front : List Char)
    {last : Char} (htext : text.toList = front ++ (body ++ [last])) :
    Stands cs (Grammar.unwrap front.length text).toList
      ⟨s.start + width front, s.stop - last.utf8Size⟩ := by
  have hinner : (Grammar.unwrap front.length text).toList = body := by
    simp [Grammar.unwrap, htext]
  rw [htext] at h
  rw [hinner]
  simpa using h.inner

/-- The tokens of a text have their places in it. -/
structure Placed (cs : List Char) (ts : List Token) : Prop where
  /-- The last token is the end, and no other is. -/
  ended : ∃ words, ts = words ++ [.endAt (width cs)] ∧ ∀ t ∈ words, t.kind ≠ .eof
  /-- All others take up some of the text. -/
  nonempty : ∀ t ∈ ts, t.kind ≠ .eof → t.span.start < t.span.stop
  ordered : ts.Pairwise fun t u => t.span.stop ≤ u.span.start
  /-- The text of a token is what stands at its span. -/
  stands : ∀ t ∈ ts, Stands cs t.text.toList t.span
  /-- Without its quotes it stands one place further in on both sides. -/
  quoted : ∀ t ∈ ts, t.kind = .string ∨ t.kind = .template →
    Stands cs (Grammar.unwrap 1 t.text).toList ⟨t.span.start + 1, t.span.stop - 1⟩
  /-- The contents of a blob stand behind its form and a quote. -/
  blobs : ∀ t ∈ ts, ∀ form, t.kind = .blob form →
    Stands cs (Grammar.unwrap 4 t.text).toList ⟨t.span.start + 4, t.span.stop - 1⟩

theorem Tiles.le_start {ts : List Token} (h : Tiles offset cs ts) :
    ∀ t ∈ ts, offset ≤ t.span.start := by
  induction h with
  | done hgap => simp [Token.endAt, Span.point]
  | token hgap hw h ih =>
    refine List.forall_mem_cons.mpr ⟨Nat.le_add_right _ _, fun t ht => ?_⟩
    have := ih t ht
    omega

theorem Tiles.ordered {ts : List Token} (h : Tiles offset cs ts) :
    ts.Pairwise fun t u => t.span.stop ≤ u.span.start := by
  induction h with
  | done hgap => exact List.pairwise_singleton _ _
  | token hgap hw h ih => exact List.pairwise_cons.mpr ⟨h.le_start, ih⟩

theorem Tiles.nonempty {ts : List Token} (h : Tiles offset cs ts) :
    ∀ t ∈ ts, t.kind ≠ .eof → t.span.start < t.span.stop := by
  induction h with
  | done hgap => exact List.forall_mem_singleton.mpr fun h => absurd rfl h
  | token hgap hw h ih =>
    refine List.forall_mem_cons.mpr ⟨fun _ => ?_, ih⟩
    obtain ⟨c, more, rfl, -⟩ := hw.fits.exists_cons
    have := c.utf8Size_pos
    simp only [Utf8.width_cons]
    omega

theorem Tiles.stands {ts : List Token} (h : Tiles offset cs ts) (front : List Char)
    (hfront : offset = width front) : ∀ t ∈ ts, Stands (front ++ cs) t.text.toList t.span := by
  induction h generalizing front with
  | @done offset gap hgap =>
    refine List.forall_mem_singleton.mpr ⟨front ++ gap, [], by simp [Token.endAt], ?_⟩
    simp [Token.endAt, Span.point, hfront, Utf8.width_append]
  | @token offset gap w rest kind ts hgap hw h ih =>
    refine List.forall_mem_cons.mpr ⟨⟨front ++ gap, rest, by simp, ?_⟩, ?_⟩
    · simp [hfront, Utf8.width_append]
    · have := ih (front ++ (gap ++ w)) (by simp [hfront, Utf8.width_append, Nat.add_assoc])
      simpa using this

theorem Tiles.placed {ts : List Token} (h : Tiles 0 cs ts) : Placed cs ts := by
  have hstands := h.stands [] rfl
  simp only [List.nil_append] at hstands
  obtain ⟨words, hts, hwords⟩ := h.words
  have hmatches : ∀ t ∈ ts, t.kind ≠ .eof → Matches t.kind t.text.toList := by
    intro t ht hkind
    rw [hts] at ht
    rcases List.mem_append.mp ht with ht | ht
    · exact hwords t ht
    · rw [List.mem_singleton.mp ht] at hkind
      exact absurd rfl hkind
  refine ⟨⟨words, by simpa using hts, fun t ht => (hwords t ht).ne_eof⟩, h.nonempty, h.ordered,
    hstands, fun t ht hkind => ?_, fun t ht form hkind => ?_⟩
  · have ht' := hmatches t ht (by rcases hkind with hkind | hkind <;> simp [hkind])
    obtain ⟨quote, body, hquote, htext⟩ := ht'.quoted hkind
    have hinner := (hstands t ht).unwrap [quote] htext
    rcases hquote with rfl | rfl | rfl
    all_goals exact hinner
  · have ht' := hmatches t ht (by simp [hkind])
    rw [hkind] at ht'
    obtain ⟨body, htext⟩ := ht'.blob
    have hinner := (hstands t ht).unwrap (form.name.toList ++ ['\'']) htext
    cases form
    all_goals exact hinner

end LazyConfig.Lexer

namespace LazyConfig

open Lexer
open Utf8 (encodeChars width)

/-- Bytes are split into tokens exactly when they are a text that is, and then its end comes
last. -/
theorem tokenize_eq_ok_iff {bytes : Bytes} {ts : List Token} :
    tokenize bytes = .ok ts ↔ ∃ cs words, bytes = encodeChars cs ∧
      tokens (width cs) (places 0 cs) = .ok words ∧ ts = words ++ [.endAt (width cs)] := by
  constructor
  · intro h
    unfold tokenize at h
    split at h
    · cases h
    next words hwords =>
    split at h
    · next cs hcs =>
      cases h
      rw [Utf8.decodeFrom_eq_ok] at hcs
      subst hcs
      rw [glyphs_encodeChars, Utf8.length_encodeChars] at hwords
      exact ⟨cs, words, rfl, hwords, by rw [Utf8.length_encodeChars]⟩
    · cases h
  · rintro ⟨cs, words, rfl, hwords, rfl⟩
    simp only [tokenize, glyphs_encodeChars, Utf8.length_encodeChars, hwords,
      Utf8.decodeFrom_encodeChars]

/-- The tokens of a source tile it. -/
theorem tiles_tokenize {bytes : Bytes} {ts : List Token} (h : tokenize bytes = .ok ts) :
    ∃ cs, bytes = encodeChars cs ∧ Tiles 0 cs ts := by
  obtain ⟨cs, words, hbytes, hwords, rfl⟩ := tokenize_eq_ok_iff.mp h
  exact ⟨cs, hbytes, tiles_tokens (Nat.zero_add _).symm hwords⟩

/-- Whenever bytes are split into tokens, they are a valid text, which the tokens tile with gaps of
blanks and comments between them, and in which each token has its place. -/
theorem tokens_tile {bytes : Bytes} {ts : List Token} (h : tokenize bytes = .ok ts) :
    ∃ cs, bytes = encodeChars cs ∧ Tiles 0 cs ts ∧ Placed cs ts := by
  obtain ⟨cs, hcs, htiles⟩ := tiles_tokenize h
  exact ⟨cs, hcs, htiles, htiles.placed⟩

/-- A region in a template hides a back quote, and the end of the text ends a comment. -/
theorem tokens_tile_of_template :
    ∃ ts, tokenize (Utf8.encode "`é$\x7b`\x7d`!1 //x") = .ok ts ∧
      ts.map (·.text) = ["`é$\x7b`\x7d`", "!", "1", ""] ∧
      ∃ cs, Utf8.encode "`é$\x7b`\x7d`!1 //x" = encodeChars cs ∧ Tiles 0 cs ts ∧ Placed cs ts := by
  have h : tokenize (Utf8.encode "`é$\x7b`\x7d`!1 //x") =
      .ok [⟨.template, ⟨0, 8⟩, "`é$\x7b`\x7d`"⟩, ⟨.punct, ⟨8, 9⟩, "!"⟩, ⟨.number, ⟨9, 10⟩, "1"⟩,
        .endAt 14] := by decide +kernel
  exact ⟨_, h, rfl, tokens_tile h⟩

end LazyConfig
