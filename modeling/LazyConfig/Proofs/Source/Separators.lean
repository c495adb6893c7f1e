-- Formatting. The words of a source may be written with any separators between them, and what they
-- are read as stays the same.
-- Main statement: with other separators a source is split into the same words, and so it is read as
-- the same tree, places aside, or refused for the same cause.
import LazyConfig.Proofs.Source.Layout

namespace LazyConfig

open Lexer
open Utf8 (width encodeChars)

variable {sep : List Char} {seps : List (List Char)} {words ts : List Token} {bytes : Bytes}

/-- A separator of words: a blank, and more blanks and whole comments. -/
def IsSeparator (sep : List Char) : Prop := ∃ c gap, isBlank c = true ∧ IsGap gap ∧ sep = c :: gap

/-- The texts of tokens, each with a separator before it. -/
def respaced : List (List Char) → List Token → List Char
  | sep :: seps, t :: ts => sep ++ (t.text.toList ++ respaced seps ts)
  | _, _ => []

theorem IsSeparator.isGap (h : IsSeparator sep) : IsGap sep := by
  obtain ⟨c, gap, hc, hgap, rfl⟩ := h
  exact .blank hc hgap

/-- A separator ends a word. -/
theorem IsSeparator.delimited (h : IsSeparator sep) (rest : List Char) :
    Delimited (sep ++ rest) := by
  obtain ⟨c, gap, hc, -, rfl⟩ := h
  exact delimited_of_isBlank hc _

theorem delimited_respaced (hseps : ∀ sep ∈ seps, IsSeparator sep) (ts : List Token) :
    Delimited (respaced seps ts) := by
  cases seps with
  | nil => exact avoids_nil _
  | cons sep seps =>
    cases ts with
    | nil => exact avoids_nil _
    | cons t ts => exact (hseps sep (by simp)).delimited _

/-! ## The same words -/

theorem tokens_respaced (hwords : ∀ t ∈ words, Matches t.kind t.text.toList)
    (hlength : seps.length = words.length + 1) (hseps : ∀ sep ∈ seps, IsSeparator sep)
    (size n offset : Nat) :
    ∃ found, tokens size (places offset (respaced seps (words ++ [.endAt n]))) = .ok found ∧
      found.map Token.bare = words.map Token.bare := by
  induction words generalizing seps offset with
  | nil =>
    obtain ⟨sep, rfl⟩ := List.length_eq_one_iff.mp hlength
    have hgap := (hseps sep (by simp)).isGap
    have hskip := skipBlank_isGap hgap [] size offset
    have htext : respaced [sep] ([] ++ [.endAt n]) = sep ++ [] := by simp [respaced, Token.endAt]
    rw [htext]
    exact ⟨[], tokens_nil hskip, rfl⟩
  | cons t words ih =>
    obtain ⟨sep, seps, rfl⟩ := List.exists_cons_of_length_eq_add_one hlength
    obtain ⟨hsep, hseps⟩ := List.forall_mem_cons.mp hseps
    obtain ⟨ht, hwords⟩ := List.forall_mem_cons.mp hwords
    have hlength : seps.length = words.length + 1 := by simpa using hlength
    obtain ⟨found, hfound, hbare⟩ := ih hwords hlength hseps
      (offset + width sep + width t.text.toList)
    have hstop := (delimited_respaced hseps (words ++ [.endAt n])).stops t.kind
    rw [List.cons_append, respaced, tokens_word hsep.isGap ht hstop, hfound]
    refine ⟨_, rfl, ?_⟩
    rw [List.map_cons, List.map_cons, hbare, String.ofList_toList]
    rfl

theorem tokenize_respaced (h : tokenize bytes = .ok ts) (hlength : seps.length = ts.length)
    (hseps : ∀ sep ∈ seps, IsSeparator sep) :
    ∃ ts', tokenize (encodeChars (respaced seps ts)) = .ok ts' ∧
      ts'.map Token.bare = ts.map Token.bare := by
  obtain ⟨cs, -, htiles⟩ := tiles_tokenize h
  obtain ⟨words, rfl, hwords⟩ := htiles.words
  rw [List.length_append, List.length_singleton] at hlength
  generalize 0 + width cs = n at hlength ⊢
  obtain ⟨found, hfound, hbare⟩ := tokens_respaced hwords hlength hseps
    (encodeChars (respaced seps (words ++ [.endAt n]))).length n 0
  refine ⟨found ++ [.endAt (encodeChars (respaced seps (words ++ [.endAt n]))).length], ?_, ?_⟩
  · simp [tokenize, glyphs_encodeChars, hfound, Utf8.decodeFrom_encodeChars]
  · rw [List.map_append, List.map_append, hbare]
    rfl

/-! ## The same tree -/

/-- Two ways to read a source result in the same: the same tree, places aside, or a fault of the
same kind. -/
def SameReading : Except ParseError Expr → Except ParseError Expr → Prop
  | .ok e, .ok e' => e.bare = e'.bare
  | .error e, .error e' => e.kind = e'.kind
  | _, _ => False

/-- With any separator before each word of a source and before its end, it is split into words of
the same kinds and texts. So however deep expressions may nest, it is read as the same tree, places
aside, or refused for a fault of the same kind. -/
theorem separators_do_not_matter (h : tokenize bytes = .ok ts) (hlength : seps.length = ts.length)
    (hseps : ∀ sep ∈ seps, IsSeparator sep) :
    (∃ ts', tokenize (encodeChars (respaced seps ts)) = .ok ts' ∧
      ts'.map Token.bare = ts.map Token.bare) ∧
    ∀ limit, SameReading (parse limit bytes) (parse limit (encodeChars (respaced seps ts))) := by
  obtain ⟨ts', hts', hbare⟩ := tokenize_respaced h hlength hseps
  refine ⟨⟨ts', hts', hbare⟩, fun limit => ?_⟩
  simp only [parse, h, hts', bind, Except.bind]
  rcases parseTokens_bare limit hbare.symm with ⟨e, e', hx, hy, he⟩ | ⟨e, e', hx, hy, he⟩
  · rw [hx, hy]
    exact he
  · rw [hx, hy]
    exact he

/-- A call without blanks is read as the call with blanks and comments between its words. -/
theorem separators_do_not_matter_in_call :
    ∃ ts, tokenize (Utf8.encode "f(1.5)") = .ok ts ∧
      ∃ seps, seps.length = ts.length ∧ (∀ sep ∈ seps, IsSeparator sep) ∧
        String.ofList (respaced seps ts) = " f\n( /**/1.5 //c\n)\t" ∧
        ∀ limit, SameReading (parse limit (Utf8.encode "f(1.5)"))
          (parse limit (encodeChars (respaced seps ts))) := by
  have h : tokenize (Utf8.encode "f(1.5)") =
      .ok [⟨.identifier, ⟨0, 1⟩, "f"⟩, ⟨.punct, ⟨1, 2⟩, "("⟩, ⟨.number, ⟨2, 5⟩, "1.5"⟩,
        ⟨.punct, ⟨5, 6⟩, ")"⟩, .endAt 6] := by decide +kernel
  have hseps :
      ∀ sep ∈ [[' '], ['\n'], [' ', '/', '*', '*', '/'], [' ', '/', '/', 'c', '\n'], ['\t']],
      IsSeparator sep := by
    simp only [List.forall_mem_cons, List.not_mem_nil, false_imp_iff, implies_true, and_true]
    exact ⟨⟨_, _, rfl, .nil, rfl⟩, ⟨_, _, rfl, .nil, rfl⟩,
      ⟨_, _, rfl, @IsGap.block [] [] (by simp) .nil, rfl⟩,
      ⟨_, _, rfl, @IsGap.line ['c'] [] (by decide) .nil, rfl⟩, ⟨_, _, rfl, .nil, rfl⟩⟩
  exact ⟨_, h, _, rfl, hseps, by decide, (separators_do_not_matter h rfl hseps).2⟩

end LazyConfig
