-- The words of the language: which characters make up a token of each kind, and what must not
-- follow them. A word is read back as itself whatever text it stands in, as long as nothing that
-- could go on with it follows.
-- Main statements: a word before what stops it is one token, and what is read as a token of a
-- kind is a word of that kind, the longest there is if nothing closes words of the kind.
import LazyConfig.Proofs.Source.Numerals
import LazyConfig.Proofs.Source.Templates

namespace LazyConfig.Lexer

open Utf8 (width)

variable {offset size : Nat} {cs w body rest : List Char} {left : List Glyph}

/-! ## Quoted texts -/

/-- The text runs up to a closing quote: no quote is in it that a backslash does not hide, and it
does not end in a backslash that would hide the closing one. -/
def isQuotable (quote : Char) : (hidden : Bool) → List Char → Bool
  | hidden, [] => !hidden
  | true, _ :: cs => isQuotable quote false cs
  | false, c :: cs =>
    if c = '\\' then isQuotable quote true cs else c ≠ quote && isQuotable quote false cs

theorem isQuotable_append {quote : Char} {hidden : Bool} (h : isQuotable quote hidden cs = true)
    (more : List Char) : isQuotable quote hidden (cs ++ more) = isQuotable quote false more := by
  fun_induction isQuotable quote hidden cs with
  | case1 hidden =>
    cases hidden
    · rfl
    · cases h
  | case2 c cs ih => exact ih h
  | case3 cs ih => simpa [isQuotable] using ih h
  | case4 c cs hc ih =>
    rw [Bool.and_eq_true] at h
    simp [isQuotable, hc, ih h.2, of_decide_eq_true h.1]

theorem closeQuote_word {quote : Char} {hidden : Bool} (h : isQuotable quote hidden body = true)
    (hquote : quote ≠ '\\') (rest : List Char) (size start offset : Nat) :
    closeQuote size start quote hidden (places offset (body ++ quote :: rest)) =
      .ok (places (offset + width (body ++ [quote])) rest) := by
  fun_induction isQuotable quote hidden body generalizing offset with
  | case1 hidden =>
    cases hidden
    · simp [places_cons, closeQuote, hquote]
    · cases h
  | case2 c cs ih => simp [places_cons, closeQuote, ih h, Nat.add_assoc]
  | case3 cs ih => simp [places_cons, closeQuote, ih h, Nat.add_assoc]
  | case4 c cs hc ih =>
    rw [Bool.and_eq_true] at h
    simp [places_cons, closeQuote, hc, of_decide_eq_true h.1, ih h.2, Nat.add_assoc]

theorem took_closeQuote {start : Nat} {quote : Char} {hidden : Bool}
    (h : closeQuote size start quote hidden (places offset cs) = .ok left) :
    Took (fun w => ∃ body, isQuotable quote hidden body = true ∧ w = body ++ [quote])
      offset cs left := by
  induction cs generalizing offset hidden with
  | nil => cases hidden <;> cases h
  | cons c cs ih =>
    cases hidden with
    | true =>
      refine (ih h).cons ?_
      rintro w ⟨body, hbody, rfl⟩
      exact ⟨c :: body, hbody, rfl⟩
    | false =>
      simp only [places_cons, closeQuote] at h
      split at h
      · next hc =>
        refine (ih h).cons ?_
        rintro w ⟨body, hbody, rfl⟩
        exact ⟨c :: body, by simpa [isQuotable, hc] using hbody, rfl⟩
      · next hc =>
        split at h
        · next hquote =>
          cases h
          exact ⟨[c], cs, ⟨[], rfl, by rw [hquote]; rfl⟩, rfl, rfl⟩
        · next hquote =>
          refine (ih h).cons ?_
          rintro w ⟨body, hbody, rfl⟩
          exact ⟨c :: body, by simpa [isQuotable, hc, hquote] using hbody, rfl⟩

/-! ## Blobs -/

theorem closeBlob_word {form : BlobForm} (h : ∀ c ∈ body, form.allows c = true)
    (rest : List Char) (size start offset : Nat) :
    closeBlob size start form (places offset (body ++ '\'' :: rest)) =
      .ok (places (offset + width (body ++ ['\''])) rest) := by
  have hquote : form.allows '\'' = false := by cases form <;> decide
  induction body generalizing offset with
  | nil => simp [places_cons, closeBlob]
  | cons c body ih =>
    have hc := h c (by simp)
    have hne : c ≠ '\'' := by
      rintro rfl
      simp [hquote] at hc
    simp [places_cons, closeBlob, hne, hc, ih fun d hd => h d (by simp [hd]), Nat.add_assoc]

theorem took_closeBlob {start : Nat} {form : BlobForm}
    (h : closeBlob size start form (places offset cs) = .ok left) :
    Took (fun w => ∃ body, (∀ c ∈ body, form.allows c = true) ∧ w = body ++ ['\''])
      offset cs left := by
  induction cs generalizing offset with
  | nil => cases h
  | cons c cs ih =>
    simp only [places_cons, closeBlob] at h
    split at h
    · next hc =>
      cases h
      exact ⟨[c], cs, ⟨[], by simp, by rw [hc]; rfl⟩, rfl, rfl⟩
    · split at h
      · next hc =>
        refine (ih h).cons ?_
        rintro w ⟨body, hbody, rfl⟩
        exact ⟨c :: body, by simpa [hc] using hbody, rfl⟩
      · cases h

/-! ## Words of each kind -/

/-- The characters make up a token of a kind. Templates are left out. -/
inductive Spells : TokenKind → List Char → Prop
  | number {w : List Char} (h : IsNumber w) : Spells .number w
  | string {quote : Char} {body : List Char} (hquote : quote = '\'' ∨ quote = '"')
      (h : isQuotable quote false body = true) : Spells .string (quote :: (body ++ [quote]))
  | blob (form : BlobForm) {body : List Char} (h : ∀ c ∈ body, form.allows c = true) :
      Spells (.blob form) (form.name.toList ++ '\'' :: (body ++ ['\'']))
  | identifier {c : Char} {cs : List Char} (hc : isNameStart c = true)
      (hcs : ∀ d ∈ cs, isNameRest d = true) : Spells .identifier (c :: cs)
  | dots (n : Nat) : Spells .dots (List.replicate (n + 1) '.')
  | punct {w : List Char} (h : w ∈ symbols) : Spells .punct w

theorem isBlank_eq_false_of_isDigit {c : Char} (h : c.isDigit = true) : isBlank c = false := by
  rw [← Bool.not_eq_true]
  intro hblank
  simp only [isBlank, Bool.or_eq_true, decide_eq_true_eq] at hblank
  rcases hblank with ((rfl | rfl) | rfl) | rfl
  all_goals cases h

theorem isBlank_eq_false_of_isNameStart {c : Char} (h : isNameStart c = true) :
    isBlank c = false := by
  rw [← Bool.not_eq_true]
  intro hblank
  simp only [isBlank, Bool.or_eq_true, decide_eq_true_eq] at hblank
  rcases hblank with ((rfl | rfl) | rfl) | rfl
  all_goals cases h

/-- A word starts with no blank, and with a slash only if it is one. -/
theorem Spells.exists_cons {kind : TokenKind} (h : Spells kind w) :
    ∃ c more, w = c :: more ∧ isBlank c = false ∧ (c = '/' → kind = .punct ∧ more = []) := by
  cases h with
  | number h =>
    obtain ⟨whole, part, power, mark, hwhole, -, -, -, rfl⟩ := h
    obtain ⟨d, more, rfl, hd⟩ := hwhole.exists_cons
    refine ⟨d, _, rfl, isBlank_eq_false_of_isDigit hd, ?_⟩
    rintro rfl
    cases hd
  | string hquote h =>
    refine ⟨_, _, rfl, ?_, ?_⟩
    · rcases hquote with rfl | rfl <;> rfl
    · rcases hquote with rfl | rfl <;> exact fun h => absurd h (by decide)
  | blob form h =>
    cases form
    · exact ⟨_, _, rfl, rfl, fun h => absurd h (by decide)⟩
    · exact ⟨_, _, rfl, rfl, fun h => absurd h (by decide)⟩
  | identifier hc hcs =>
    refine ⟨_, _, rfl, isBlank_eq_false_of_isNameStart hc, ?_⟩
    rintro rfl
    cases hc
  | dots n => exact ⟨_, _, rfl, rfl, fun h => absurd h (by decide)⟩
  | punct h =>
    have hall : ∀ w ∈ symbols, w ≠ [] ∧ isBlank (w.headD '/') = false ∧
        (w.head? = some '/' → w = ['/']) := by decide
    obtain ⟨hne, hblank, hslash⟩ := hall w h
    cases w with
    | nil => exact absurd rfl hne
    | cons c more =>
      refine ⟨c, more, rfl, hblank, ?_⟩
      rintro rfl
      exact ⟨rfl, (List.cons.inj (hslash rfl)).2⟩

/-- What follows does not go on with a token of a kind, nor make it a comment. -/
def Stops : TokenKind → List Char → Prop
  | .number => Avoids goesOnNumber
  | .identifier => Avoids fun c => isNameRest c || c = '\''
  | .dots => Avoids (· = '.')
  | .punct => Avoids fun c => c = '=' || c = '/' || c = '*'
  | _ => fun _ => True

/-- The characters make up a token of a kind, which may be a template. -/
inductive Matches : TokenKind → List Char → Prop
  | word {kind : TokenKind} {w : List Char} (h : Spells kind w) : Matches kind w
  | template {body : List Char} (h : TemplateBody 0 body) :
      Matches .template ('`' :: (body ++ ['`']))

/-- Whether nothing closes tokens of a kind, so that they end where they cannot go on. -/
def isOpenEnded : TokenKind → Bool
  | .number | .identifier | .dots | .punct => true
  | _ => false

/-- The word is the token of a kind that a text begins with: a word of the kind, and the longest one
if nothing closes them. -/
structure Lexeme (kind : TokenKind) (cs w : List Char) : Prop where
  fits : Matches kind w
  longest : isOpenEnded kind = true → Longest (Matches kind) cs w

section

variable {kind : TokenKind}

theorem matches_iff_spells (h : kind ≠ .template) : Matches kind w ↔ Spells kind w := by
  constructor
  · rintro (hw | _)
    · exact hw
    · exact absurd rfl h
  · exact .word

/-- A word starts with no blank, and with a slash only if it is one. -/
theorem Matches.exists_cons (h : Matches kind w) :
    ∃ c more, w = c :: more ∧ isBlank c = false ∧ (c = '/' → kind = .punct ∧ more = []) := by
  cases h with
  | word h => exact h.exists_cons
  | template h => exact ⟨_, _, rfl, rfl, fun h => absurd h (by decide)⟩

theorem Matches.ne_eof (h : Matches kind w) : kind ≠ .eof := by
  rintro rfl
  cases (matches_iff_spells (by decide)).mp h

/-- What is in quotes of some kind starts and ends with one quote. -/
theorem Matches.quoted (h : Matches kind w) (hkind : kind = .string ∨ kind = .template) :
    ∃ quote body, (quote = '\'' ∨ quote = '"' ∨ quote = '`') ∧
      w = [quote] ++ (body ++ [quote]) := by
  rcases hkind with rfl | rfl
  · rcases (matches_iff_spells (by decide)).mp h with _ | ⟨hquote, -⟩
    exact ⟨_, _, by tauto, rfl⟩
  · rcases h with h | _
    · cases h
    · exact ⟨_, _, .inr (.inr rfl), rfl⟩

/-- A blob starts with its form and a quote, and ends with a quote. -/
theorem Matches.blob {form : BlobForm} (h : Matches (.blob form) w) :
    ∃ body, w = form.name.toList ++ ['\''] ++ (body ++ ['\'']) := by
  rcases (matches_iff_spells (by simp)).mp h with _ | _ | @⟨_, body, -⟩
  exact ⟨body, by simp⟩

theorem matches_number : Matches .number w ↔ IsNumber w := by
  rw [matches_iff_spells (by decide)]
  constructor
  · rintro ⟨h⟩
    exact h
  · exact .number

theorem matches_identifier : Matches .identifier w ↔
    ∃ c cs, isNameStart c = true ∧ (∀ d ∈ cs, isNameRest d = true) ∧ w = c :: cs := by
  rw [matches_iff_spells (by decide)]
  constructor
  · rintro (_ | _ | _ | ⟨hc, hcs⟩)
    exact ⟨_, _, hc, hcs, rfl⟩
  · rintro ⟨c, cs, hc, hcs, rfl⟩
    exact .identifier hc hcs

theorem matches_dots : Matches .dots w ↔ w ≠ [] ∧ ∀ d ∈ w, d = '.' := by
  rw [matches_iff_spells (by decide)]
  constructor
  · rintro (_ | _ | _ | _ | n)
    exact ⟨by simp, fun d hd => List.eq_of_mem_replicate hd⟩
  · rintro ⟨hne, hw⟩
    rw [List.eq_replicate_iff.mpr ⟨rfl, hw⟩]
    obtain ⟨n, hn⟩ := Nat.exists_eq_succ_of_ne_zero (mt List.length_eq_zero_iff.mp hne)
    rw [hn]
    exact .dots n

theorem matches_punct : Matches .punct w ↔ w ∈ symbols := by
  rw [matches_iff_spells (by decide)]
  constructor
  · rintro (_ | _ | _ | _ | _ | h)
    exact h
  · exact .punct

/-- A word whose kind has an end is the token as it is. -/
theorem Spells.lexeme (hw : Spells kind w) (h : isOpenEnded kind = false) (cs : List Char) :
    Lexeme kind cs w :=
  ⟨.word hw, fun hopen => absurd hopen (by simp [h])⟩

end

/-! ## Names, and blobs after their form -/

theorem nameOrBlob_name {c : Char} (hcs : ∀ d ∈ cs, isNameRest d = true)
    (hrest : Avoids (fun c => isNameRest c || c = '\'') rest) (offset : Nat) :
    nameOrBlob size ⟨offset, .ok c⟩ (places (offset + c.utf8Size) (cs ++ rest)) =
      .ok (.identifier, places (offset + width (c :: cs)) rest) := by
  have hskip := skipWhile_word hcs (hrest.mono fun d hd => by simp [hd]) (offset + c.utf8Size)
  have hquote : rest.head? ≠ some '\'' := by
    intro hhead
    have := hrest '\'' hhead
    simp at this
  simp only [nameOrBlob, bind, Except.bind, hskip, peek_places, hquote, if_false,
    Utf8.width_cons, Nat.add_assoc]

theorem eq_name_of_blobForm? {form : BlobForm} {n : Nat} (h : blobForm? w n = some form) :
    w = form.name.toList := by
  unfold blobForm? at h
  split at h
  · split at h
    · next hw =>
      cases h
      exact hw
    · split at h
      · next hw =>
        cases h
        exact hw
      · cases h
  · cases h

theorem nameOrBlob_blob {form : BlobForm} {c : Char} (hname : form.name.toList = c :: cs)
    (hbody : ∀ d ∈ body, form.allows d = true) (rest : List Char) (size offset : Nat) :
    nameOrBlob size ⟨offset, .ok c⟩
        (places (offset + c.utf8Size) (cs ++ '\'' :: (body ++ '\'' :: rest))) =
      .ok (.blob form, places (offset + width (c :: cs ++ '\'' :: (body ++ ['\'']))) rest) := by
  have hcs : ∀ d ∈ cs, isNameRest d = true := by
    have hall : ∀ d ∈ form.name.toList, isNameRest d = true :=
      List.all_eq_true.mp (by cases form <;> decide)
    exact fun d hd => hall d (by simp [hname, hd])
  have hquote : Avoids isNameRest ('\'' :: (body ++ '\'' :: rest)) := avoids_cons.mpr (by decide)
  have hskip := skipWhile_word hcs hquote (offset + c.utf8Size)
  have hchars := chars_taken_places offset (c :: cs) ('\'' :: (body ++ '\'' :: rest))
  rw [Utf8.width_cons, ← Nat.add_assoc, List.cons_append, places_cons] at hchars
  have hwidth : offset + c.utf8Size + width cs - offset = 3 := by
    have hall : width form.name.toList = 3 := by cases form <;> rfl
    rw [hname, Utf8.width_cons] at hall
    omega
  have hform : blobForm? (c :: cs) 3 = some form := by
    rw [← hname]
    cases form <;> rfl
  have hclose :=
    closeBlob_word hbody rest size offset (offset + c.utf8Size + width cs + '\''.utf8Size)
  simp only [nameOrBlob, bind, Except.bind, hskip, peek_places, List.head?_cons, if_true, hchars]
  simp only [places_cons, here, hwidth, hform, List.tail_cons, hclose]
  simp [Utf8.width_append, Nat.add_assoc]

/-- A name that goes on as long as it can is the longest one. -/
theorem longest_name {c : Char} (hc : isNameStart c = true)
    (h : Longest (fun w => ∀ d ∈ w, isNameRest d = true) cs w) :
    Lexeme .identifier (c :: cs) (c :: w) := by
  refine ⟨.word (.identifier hc h.fits), fun _ => ⟨.word (.identifier hc h.fits), ?_⟩⟩
  intro v hv hcs
  obtain ⟨d, more, -, hmore, rfl⟩ := matches_identifier.mp hv
  exact Nat.succ_le_succ (h.longest more hmore (List.cons_prefix_cons.mp hcs).2)

theorem took_nameOrBlob {c : Char} {kind : TokenKind} (hc : isNameStart c = true)
    (h : nameOrBlob size ⟨offset, .ok c⟩ (places (offset + c.utf8Size) cs) = .ok (kind, left)) :
    Took (Lexeme kind (c :: cs)) offset (c :: cs) left := by
  unfold nameOrBlob at h
  obtain ⟨after, hskip, h⟩ := bind_ok h
  obtain ⟨name, cs, hname, rfl, rfl⟩ := took_skipWhile hskip
  have hword : Took (Lexeme .identifier (c :: (name ++ cs))) offset (c :: (name ++ cs))
      (places (offset + c.utf8Size + width name) cs) :=
    ⟨c :: name, cs, longest_name hc hname, rfl, by rw [Utf8.width_cons, Nat.add_assoc]⟩
  rw [peek_places] at h
  simp only [bind, Except.bind] at h
  split at h
  · next hquote =>
    obtain ⟨cs, rfl⟩ := List.head?_eq_some_iff.mp hquote
    split at h
    · next form hform =>
      have hchars := chars_taken_places offset (c :: name) ('\'' :: cs)
      rw [Utf8.width_cons, ← Nat.add_assoc, List.cons_append, places_cons] at hchars
      rw [hchars] at hform
      have hspelled := eq_name_of_blobForm? hform
      cases hclose : closeBlob size offset form
          (places (offset + c.utf8Size + width name) ('\'' :: cs)).tail with
      | error e =>
        simp only [hclose] at h
        cases h
      | ok after =>
        simp only [hclose] at h
        cases h
        obtain ⟨w, rest, ⟨body, hbody, rfl⟩, rfl, rfl⟩ := took_closeBlob hclose
        refine ⟨c :: name ++ '\'' :: (body ++ ['\'']), rest, ?_, by simp, ?_⟩
        · rw [hspelled]
          exact (Spells.blob form hbody).lexeme rfl _
        · simp [Utf8.width_append, Nat.add_assoc]
    · cases h
      exact hword
  · cases h
    exact hword

/-! ## Dots and symbols -/

/-- Dots that go on as long as they can are the longest ones. -/
theorem longest_dots {c : Char} (hc : c = '.')
    (h : Longest (fun w => ∀ d ∈ w, decide (d = '.') = true) (c :: cs) w) :
    Lexeme .dots (c :: cs) w := by
  have hne : w ≠ [] := by
    rintro rfl
    have := h.longest [c] (by simp [hc]) (by simp)
    simp at this
  have hw : Matches .dots w :=
    matches_dots.mpr ⟨hne, fun d hd => of_decide_eq_true (h.fits d hd)⟩
  refine ⟨hw, fun _ => ⟨hw, fun v hv => h.longest v fun d hd => ?_⟩⟩
  exact decide_eq_true ((matches_dots.mp hv).2 d hd)

theorem spell_places (symbol cs : List Char) (offset : Nat) :
    spell symbol (places offset cs) =
      .ok (if symbol <+: cs then some (places (offset + width symbol) (cs.drop symbol.length))
        else none) := by
  induction symbol generalizing offset cs with
  | nil => simp [spell]
  | cons c symbol ih =>
    cases cs with
    | nil => simp [spell, bind, Except.bind, peek]
    | cons d cs =>
      by_cases hd : d = c
      · simp [spell, places_cons, peek, bind, Except.bind, ih, hd, List.cons_prefix_cons,
          Nat.add_assoc]
      · simp [spell, places_cons, peek, bind, Except.bind, hd, List.cons_prefix_cons, Ne.symm hd]

theorem firstSymbol_places (all : List (List Char)) (cs : List Char) (offset : Nat) :
    firstSymbol (places offset cs) all =
      .ok ((all.find? fun symbol => symbol <+: cs).map fun symbol =>
        places (offset + width symbol) (cs.drop symbol.length)) := by
  induction all with
  | nil => rfl
  | cons symbol others ih =>
    by_cases h : symbol <+: cs
    · simp [firstSymbol, spell_places, h, bind, Except.bind]
    · simp [firstSymbol, spell_places, h, bind, Except.bind, ih]

/-- A symbol is the first of all with which the text goes on. -/
theorem find?_symbols (h : w ∈ symbols) (hrest : Stops .punct rest) :
    (symbols.find? fun symbol => symbol <+: w ++ rest) = some w := by
  have hlonger : ∀ more, ¬( '=' :: more <+: rest) := by
    rintro more ⟨after, rfl⟩
    have := avoids_cons.mp hrest
    simp at this
  -- No symbol goes on as another one unless with an equals sign.
  simp only [symbols, List.mem_cons, List.not_mem_nil, or_false] at h
  rcases h with rfl | rfl | rfl | rfl | rfl | rfl | rfl | rfl | rfl | rfl | rfl | rfl | rfl |
    rfl | rfl | rfl | rfl | rfl | rfl | rfl | rfl | rfl | rfl | rfl | rfl
  all_goals simp [symbols, List.cons_prefix_cons, hlonger]

/-- The first symbol with which a text goes on is the longest one. -/
theorem longest_symbol {symbol : List Char}
    (h : (symbols.find? fun symbol => symbol <+: cs) = some symbol) : Lexeme .punct cs symbol := by
  have hmem := List.mem_of_find?_eq_some h
  refine ⟨.word (.punct hmem), fun _ => ⟨.word (.punct hmem), fun v hv hcs => ?_⟩⟩
  rw [matches_punct] at hv
  obtain ⟨hsymbol, earlier, later, hall, hearlier⟩ := List.find?_eq_some_iff_append.mp h
  rw [decide_eq_true_eq] at hsymbol
  by_contra hlt
  -- A longer symbol starts with this one, but then it stands before it among all symbols.
  have hpre : symbol <+: v := List.prefix_of_prefix_length_le hsymbol hcs (by omega)
  have hsorted : symbols.Pairwise fun s s' => ¬ s <+: s' := by decide
  rw [hall] at hv hsorted
  rcases List.mem_append.mp hv with hv | hv
  · have := hearlier v hv
    simp [hcs] at this
  · rcases List.mem_cons.mp hv with rfl | hv
    · exact hlt (Nat.le_refl _)
    · exact List.rel_of_pairwise_cons (List.pairwise_append.mp hsorted).2.1 hv hpre

/-! ## One token -/

theorem isDigit_eq_false {c : Char} (h : isNameStart c = true) : c.isDigit = false := by
  rw [← Bool.not_eq_true]
  intro hdigit
  have hletter : c.isAlpha = (decide (c.val ≥ 'A'.val ∧ c.val ≤ 'Z'.val) ||
    (decide (c.val ≥ 'a'.val) && decide (c.val ≤ 'z'.val))) := rfl
  simp only [isNameStart, hletter, Char.isDigit, Bool.or_eq_true, Bool.and_eq_true,
    decide_eq_true_eq, UInt32.le_iff_toNat_le, ge_iff_le] at h hdigit
  rcases h with (⟨h | h⟩ | rfl) | rfl
  · exact absurd (h.1.trans hdigit.2) (by decide)
  · exact absurd (h.1.trans hdigit.2) (by decide)
  · exact absurd hdigit.2 (by decide)
  · exact absurd hdigit.1 (by decide)

/-- What starts a name starts no token of another kind. -/
theorem ne_of_isNameStart {c : Char} (h : isNameStart c = true) :
    ¬(c = '\'' ∨ c = '"') ∧ c ≠ '`' ∧ c ≠ '.' := by
  refine ⟨?_, ?_, ?_⟩
  · rintro (rfl | rfl)
    · cases h
    · cases h
  · rintro rfl
    cases h
  · rintro rfl
    cases h

/-- What starts a symbol starts no token of another kind. -/
theorem start_of_mem_symbols {c : Char} (h : c :: w ∈ symbols) :
    c.isDigit = false ∧ ¬(c = '\'' ∨ c = '"') ∧ c ≠ '`' ∧ c ≠ '.' ∧ isNameStart c = false := by
  have hall : ∀ s ∈ symbols, (s.headD ' ').isDigit = false ∧
      ¬(s.headD ' ' = '\'' ∨ s.headD ' ' = '"') ∧ s.headD ' ' ≠ '`' ∧ s.headD ' ' ≠ '.' ∧
        isNameStart (s.headD ' ') = false := by decide
  exact hall _ h

theorem lexeme_name {c : Char} (h : isNameStart c = true) (g : Glyph) (gs : List Glyph) :
    lexeme size g c gs = nameOrBlob size g gs := by
  obtain ⟨hquote, htemplate, hdot⟩ := ne_of_isNameStart h
  simp [lexeme, isDigit_eq_false h, hquote, htemplate, hdot, h]

theorem lexeme_word {kind : TokenKind} {c : Char} (h : Spells kind (c :: w))
    (hrest : Stops kind rest) (offset : Nat) :
    lexeme size ⟨offset, .ok c⟩ c (places (offset + c.utf8Size) (w ++ rest)) =
      .ok (kind, places (offset + width (c :: w)) rest) := by
  generalize hall : c :: w = all at h
  cases h with
  | number h =>
    obtain ⟨whole, part, power, mark, hwhole, hpart, hpower, hmark, rfl⟩ := h
    obtain ⟨d, digits, rfl, hd⟩ := hwhole.exists_cons
    obtain ⟨rfl, rfl⟩ := List.cons.inj hall
    have hdigits : ∀ e ∈ digits, e.isDigit = true := fun e he => hwhole.digits e (by simp [he])
    have hnumber := number_word hdigits hpart hpower hmark hrest (offset + c.utf8Size)
    simp only [List.append_eq, List.append_assoc] at hnumber ⊢
    simp [lexeme, hd, hnumber, bind, Except.bind, Nat.add_assoc]
  | @string quote body hquote h =>
    obtain ⟨rfl, rfl⟩ := List.cons.inj hall
    have hdigit : c.isDigit = false := by rcases hquote with rfl | rfl <;> decide
    have hne : c ≠ '\\' := by rcases hquote with rfl | rfl <;> decide
    have hclose := closeQuote_word h hne rest size offset (offset + c.utf8Size)
    simp only [List.append_assoc, List.singleton_append]
    simp [lexeme, hdigit, hquote, hclose, bind, Except.bind, Nat.add_assoc]
  | @blob form body h =>
    obtain ⟨cs, hname⟩ : ∃ cs, form.name.toList = c :: cs := by
      cases form
      · exact ⟨_, congrArg (· :: _) (List.cons.inj hall).1.symm⟩
      · exact ⟨_, congrArg (· :: _) (List.cons.inj hall).1.symm⟩
    have hstart : isNameStart c = true := by
      have hhead : form.name.toList.head?.all isNameStart = true := by cases form <;> decide
      rwa [hname] at hhead
    rw [hname] at hall
    obtain rfl := (List.cons.inj hall).2
    rw [lexeme_name hstart, hname]
    simpa using nameOrBlob_blob hname h rest size offset
  | identifier hc hcs =>
    obtain ⟨rfl, rfl⟩ := List.cons.inj hall
    rw [lexeme_name hc, nameOrBlob_name hcs hrest]
  | dots n =>
    obtain ⟨rfl, rfl⟩ := List.cons.inj hall
    have hskip := skipWhile_word (w := List.replicate n '.') (by simp) hrest
      (offset + ('.').utf8Size)
    rw [List.replicate_succ]
    simp [lexeme, hskip, bind, Except.bind, Nat.add_assoc, Char.isDigit]
  | punct h =>
    subst hall
    obtain ⟨hdigit, hquote, htemplate, hdot, hname⟩ := start_of_mem_symbols h
    have hsymbol := firstSymbol_places symbols (c :: w ++ rest) offset
    rw [find?_symbols h hrest] at hsymbol
    simp only [List.cons_append, places_cons] at hsymbol
    simp [lexeme, hdigit, hquote, htemplate, hdot, hname, hsymbol, bind, Except.bind]

theorem lexeme_template {body : List Char} (h : TemplateBody 0 body) (rest : List Char)
    (size offset : Nat) :
    lexeme size ⟨offset, .ok '`'⟩ '`' (places (offset + '`'.utf8Size) (body ++ '`' :: rest)) =
      .ok (.template, places (offset + width ('`' :: (body ++ ['`']))) rest) := by
  have hclose := closeTemplate_word h rest size offset (offset + '`'.utf8Size)
  simp [lexeme, hclose, bind, Except.bind, Nat.add_assoc, Char.isDigit]

/-- A word before what stops it is one token. -/
theorem lexeme_matches {kind : TokenKind} {c : Char} (h : Matches kind (c :: w))
    (hrest : Stops kind rest) (offset : Nat) :
    lexeme size ⟨offset, .ok c⟩ c (places (offset + c.utf8Size) (w ++ rest)) =
      .ok (kind, places (offset + width (c :: w)) rest) := by
  generalize hall : c :: w = all at h
  cases h with
  | word h =>
    subst hall
    exact lexeme_word h hrest offset
  | template h =>
    obtain ⟨rfl, rfl⟩ := List.cons.inj hall
    rw [List.append_assoc]
    exact lexeme_template h rest size offset

/-- What is read as a token of a kind is a word of the kind. -/
theorem took_lexeme {kind : TokenKind} {c : Char}
    (h : lexeme size ⟨offset, .ok c⟩ c (places (offset + c.utf8Size) cs) = .ok (kind, left)) :
    Took (Lexeme kind (c :: cs)) offset (c :: cs) left := by
  unfold lexeme at h
  split at h
  · next hc =>
    obtain ⟨after, hafter, h⟩ := bind_ok h
    cases h
    refine (took_number hc hafter).mono fun w hw => ?_
    exact ⟨.word (.number hw.fits), fun _ => hw.congr fun v => matches_number.symm⟩
  split at h
  · next hc =>
    obtain ⟨after, hafter, h⟩ := bind_ok h
    cases h
    refine (took_closeQuote hafter).cons ?_
    rintro w ⟨body, hbody, rfl⟩
    exact (Spells.string hc hbody).lexeme rfl _
  split at h
  · next hc =>
    obtain ⟨after, hafter, h⟩ := bind_ok h
    cases h
    refine (took_closeTemplate hafter).cons ?_
    rintro w ⟨unseen, body, hunseen, hbody, rfl⟩
    obtain rfl := List.length_eq_zero_iff.mp hunseen
    rw [hc]
    exact ⟨.template hbody, fun hopen => by cases hopen⟩
  split at h
  · next hc =>
    obtain ⟨after, hafter, h⟩ := bind_ok h
    cases h
    have hskip : skipWhile (· = '.') (places offset (c :: cs)) = .ok left := by
      simpa [places_cons, skipWhile, hc] using hafter
    exact (took_skipWhile hskip).mono fun w hw => longest_dots hc hw
  split at h
  · next hc => exact took_nameOrBlob hc h
  · obtain ⟨found, hfound, h⟩ := bind_ok h
    rw [← places_cons, firstSymbol_places, Except.ok.injEq] at hfound
    split at h
    · next rest =>
      cases h
      obtain ⟨symbol, hsymbol, rfl⟩ := Option.map_eq_some_iff.mp hfound
      have hpre : symbol <+: c :: cs := by simpa using List.find?_some hsymbol
      obtain ⟨after, hafter⟩ := hpre
      refine ⟨symbol, after, longest_symbol hsymbol, hafter.symm, ?_⟩
      rw [← hafter, List.drop_left]
    · cases h

end LazyConfig.Lexer
