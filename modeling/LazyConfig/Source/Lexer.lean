-- Splitting a source text into tokens. The text is taken as glyphs: every byte that does
-- not continue a character starts one, and the glyph holds what decodes there. A malformed
-- glyph is a fault only where it is read, so the character after a backslash is passed over
-- unseen; at the end the whole text must be valid.
-- Main statements: each reader leaves an end piece of what it was given, and a token takes
-- at least one glyph, so the splitting ends.
import LazyConfig.Source.Fault
import LazyConfig.Source.Token

namespace LazyConfig

/-- A place where a character starts, and the character, if it is well-formed. -/
structure Glyph where
  offset : Nat
  char : Except DecodeError Char

namespace Lexer

/-! ## Glyphs -/

/-- The glyphs of bytes, the first of which stands at `offset`. -/
def glyphs (offset : Nat) : Bytes → List Glyph
  | [] => []
  | b :: bs =>
    if Utf8.isContinuation b then glyphs (offset + 1) bs
    else ⟨offset, Utf8.decodeFirst offset b bs⟩ :: glyphs (offset + 1) bs

/-- Malformed bytes as a fault, at the place where they fail. -/
def malformed (e : DecodeError) : Fault := ⟨.decode e, .point e.offset⟩

/-- The next character, or none at the end. -/
def peek : List Glyph → Except Fault (Option Char)
  | [] => .ok none
  | g :: _ =>
    match g.char with
    | .ok c => .ok (some c)
    | .error e => .error (malformed e)

/-- The offset of the first glyph, or the size of the text at its end. -/
def here (size : Nat) : List Glyph → Nat
  | [] => size
  | g :: _ => g.offset

/-- The characters of glyphs, as far as they are well-formed. -/
def chars (gs : List Glyph) : List Char := gs.filterMap fun g => g.char.toOption

/-- What a reader took, from what it was given and what it left. -/
def taken (given left : List Glyph) : List Glyph := given.take (given.length - left.length)

/-- Passes over characters of a class. -/
def skipWhile (p : Char → Bool) : List Glyph → Except Fault (List Glyph)
  | [] => .ok []
  | g :: gs =>
    match g.char with
    | .error e => .error (malformed e)
    | .ok c => if p c then skipWhile p gs else .ok (g :: gs)

/-! ## Blanks and comments -/

def isBlank (c : Char) : Bool := c = ' ' || c = '\t' || c = '\r' || c = '\n'

/-- Where in blank text the reader is. -/
inductive Blank where
  | between
  | line
  /-- Before the star of a comment that starts at an offset. -/
  | opening (start : Nat)
  | block (start : Nat)
  /-- Before the slash that ends a comment. -/
  | closing

/-- Passes over blanks and comments. -/
def skipBlank (size : Nat) : Blank → List Glyph → Except Fault (List Glyph)
  | .between, [] => .ok []
  | .line, [] => .ok []
  | .opening start, [] => .error ⟨.unterminatedComment, ⟨start, size⟩⟩
  | .block start, [] => .error ⟨.unterminatedComment, ⟨start, size⟩⟩
  | .closing, [] => .ok []
  | .between, g :: gs =>
    match g.char with
    | .error e => .error (malformed e)
    | .ok c =>
      if isBlank c then skipBlank size .between gs
      else if c = '/' then
        match peek gs with
        | .error e => .error e
        | .ok next =>
          if next = some '/' then skipBlank size .line gs
          else if next = some '*' then skipBlank size (.opening g.offset) gs
          else .ok (g :: gs)
      else .ok (g :: gs)
  | .line, g :: gs =>
    match g.char with
    | .error e => .error (malformed e)
    | .ok c => if c = '\n' then skipBlank size .between gs else skipBlank size .line gs
  | .opening start, _ :: gs => skipBlank size (.block start) gs
  | .block start, g :: gs =>
    match g.char with
    | .error e => .error (malformed e)
    | .ok c =>
      if c = '*' then
        match peek gs with
        | .error e => .error e
        | .ok next =>
          if next = some '/' then skipBlank size .closing gs else skipBlank size (.block start) gs
      else skipBlank size (.block start) gs
  | .closing, _ :: gs => skipBlank size .between gs

/-! ## Tokens -/

/-- Passes over a point and digits, if both are there. -/
def fraction (gs : List Glyph) : Except Fault (List Glyph) := do
  match ← peek gs with
  | some '.' =>
    match ← peek gs.tail with
    | some d => if d.isDigit then skipWhile Char.isDigit gs.tail else .ok gs
    | none => .ok gs
  | _ => .ok gs

/-- Passes over a sign, if there is one. -/
def sign (gs : List Glyph) : Except Fault (List Glyph) := do
  match ← peek gs with
  | some c => .ok (if c = '+' ∨ c = '-' then gs.tail else gs)
  | none => .ok gs

/-- Passes over an exponent, if it has digits. -/
def exponent (gs : List Glyph) : Except Fault (List Glyph) := do
  match ← peek gs with
  | some c =>
    if c = 'e' ∨ c = 'E' then
      let digits ← sign gs.tail
      match ← peek digits with
      | some d => if d.isDigit then skipWhile Char.isDigit digits else .ok gs
      | none => .ok gs
    else .ok gs
  | none => .ok gs

/-- Passes over the mark of a whole number, if it is there. -/
def bigMark (gs : List Glyph) : Except Fault (List Glyph) := do
  .ok (if (← peek gs) = some 'n' then gs.tail else gs)

/-- What follows a number whose first digit is read. -/
def number (gs : List Glyph) : Except Fault (List Glyph) := do
  bigMark (← exponent (← fraction (← skipWhile Char.isDigit gs)))

/-- What follows the closing quote of a string that opened at `start`. A backslash hides the
character after it. -/
def closeQuote (size start : Nat) (quote : Char) :
    (hidden : Bool) → List Glyph → Except Fault (List Glyph)
  | _, [] => .error ⟨.unterminatedString quote, ⟨start, size⟩⟩
  | true, _ :: gs => closeQuote size start quote false gs
  | false, g :: gs =>
    match g.char with
    | .error e => .error (malformed e)
    | .ok c =>
      if c = '\\' then closeQuote size start quote true gs
      else if c = quote then .ok gs
      else closeQuote size start quote false gs

/-- What follows the closing quote of a template that opened at `start`. Inside `depth` regions
between a dollar sign with a brace and a closing brace, a back quote closes nothing. -/
def closeTemplate (size start : Nat) :
    (depth : Nat) → (hidden : Bool) → List Glyph → Except Fault (List Glyph)
  | _, _, [] => .error ⟨.unterminatedString '`', ⟨start, size⟩⟩
  | depth, true, _ :: gs => closeTemplate size start depth false gs
  | depth, false, g :: gs =>
    match g.char with
    | .error e => .error (malformed e)
    | .ok c =>
      if c = '\\' then closeTemplate size start depth true gs
      else if c = '`' ∧ depth = 0 then .ok gs
      else if c = '$' then
        match peek gs with
        | .error e => .error e
        | .ok next =>
          if next = some '{' then closeTemplate size start (depth + 1) true gs
          else closeTemplate size start depth false gs
      else if c = '}' ∧ 0 < depth then closeTemplate size start (depth - 1) false gs
      else closeTemplate size start depth false gs

/-- What follows the closing quote of a blob that opened at `start`. -/
def closeBlob (size start : Nat) (form : BlobForm) : List Glyph → Except Fault (List Glyph)
  | [] => .error ⟨.unterminatedBlob, ⟨start, size⟩⟩
  | g :: gs =>
    match g.char with
    | .error e => .error (malformed e)
    | .ok c =>
      if c = '\'' then .ok gs
      else if form.allows c then closeBlob size start form gs
      else .error ⟨.blobCharacter c, ⟨g.offset, g.offset + c.utf8Size⟩⟩

/-- The form of blob that a word of `width` bytes opens. -/
def blobForm? (word : List Char) (width : Nat) : Option BlobForm :=
  if width = 3 then
    if word = ['b', '1', '6'] then some .b16
    else if word = ['b', '6', '4'] then some .b64
    else none
  else none

/-- A name, or a blob if the name opens one and a quote follows. -/
def nameOrBlob (size : Nat) (g : Glyph) (gs : List Glyph) :
    Except Fault (TokenKind × List Glyph) := do
  let rest ← skipWhile isNameRest gs
  if (← peek rest) = some '\'' then
    match blobForm? (chars (taken (g :: gs) rest)) (here size rest - g.offset) with
    | some form => .ok (.blob form, ← closeBlob size g.offset form rest.tail)
    | none => .ok (.identifier, rest)
  else .ok (.identifier, rest)

/-- What follows a symbol, if the text goes on with it. -/
def spell : List Char → List Glyph → Except Fault (Option (List Glyph))
  | [], gs => .ok (some gs)
  | c :: cs, gs => do
    match gs, ← peek gs with
    | _ :: rest, some d => if d = c then spell cs rest else .ok none
    | _, _ => .ok none

/-- What follows the first of some symbols with which the text goes on. -/
def firstSymbol (gs : List Glyph) : List (List Char) → Except Fault (Option (List Glyph))
  | [] => .ok none
  | symbol :: others => do
    match ← spell symbol gs with
    | some rest => .ok (some rest)
    | none => firstSymbol gs others

/-- The kind of the token that starts with the glyph `g`, the character `c`, and what follows
the token. -/
def lexeme (size : Nat) (g : Glyph) (c : Char) (gs : List Glyph) :
    Except Fault (TokenKind × List Glyph) := do
  if c.isDigit then .ok (.number, ← number gs)
  else if c = '\'' ∨ c = '"' then .ok (.string, ← closeQuote size g.offset c false gs)
  else if c = '`' then .ok (.template, ← closeTemplate size g.offset 0 false gs)
  else if c = '.' then .ok (.dots, ← skipWhile (· = '.') gs)
  else if isNameStart c then nameOrBlob size g gs
  else
    match ← firstSymbol (g :: gs) symbols with
    | some rest => .ok (.punct, rest)
    | none => .error ⟨.unexpectedCharacter c, ⟨g.offset, g.offset + c.utf8Size⟩⟩

/-! ## Readers leave an end piece -/

theorem skipWhile_suffix {p : Char → Bool} {gs rest : List Glyph}
    (h : skipWhile p gs = .ok rest) : rest <:+ gs := by
  induction gs with
  | nil =>
    simp only [skipWhile, Except.ok.injEq] at h
    simp [← h]
  | cons g gs ih =>
    unfold skipWhile at h
    split at h
    · cases h
    · split at h
      · exact (ih h).trans (List.suffix_cons g gs)
      · cases h
        exact List.suffix_refl _

theorem tail_suffix (gs : List Glyph) : gs.tail <:+ gs := List.tail_suffix gs

theorem bind_ok {α β : Type} {x : Except Fault α} {f : α → Except Fault β} {b : β}
    (h : (x >>= f) = .ok b) : ∃ a, x = .ok a ∧ f a = .ok b := by
  cases x with
  | error e => cases h
  | ok a => exact ⟨a, rfl, h⟩

theorem skipBlank_suffix {size : Nat} {state : Blank} {gs rest : List Glyph}
    (h : skipBlank size state gs = .ok rest) : rest <:+ gs := by
  fun_induction skipBlank size state gs <;> simp_all [List.suffix_cons_iff]

theorem fraction_suffix {gs rest : List Glyph} (h : fraction gs = .ok rest) : rest <:+ gs := by
  unfold fraction at h
  obtain ⟨c, -, h⟩ := bind_ok h
  split at h
  · obtain ⟨d, -, h⟩ := bind_ok h
    split at h
    · split at h
      · exact (skipWhile_suffix h).trans (tail_suffix gs)
      · cases h; exact List.suffix_refl _
    · cases h; exact List.suffix_refl _
  · cases h; exact List.suffix_refl _

theorem sign_suffix {gs rest : List Glyph} (h : sign gs = .ok rest) : rest <:+ gs := by
  unfold sign at h
  obtain ⟨c, -, h⟩ := bind_ok h
  split at h
  · cases h
    split
    · exact tail_suffix gs
    · exact List.suffix_refl _
  · cases h; exact List.suffix_refl _

theorem exponent_suffix {gs rest : List Glyph} (h : exponent gs = .ok rest) : rest <:+ gs := by
  unfold exponent at h
  obtain ⟨c, -, h⟩ := bind_ok h
  split at h
  · split at h
    · obtain ⟨digits, hs, h⟩ := bind_ok h
      obtain ⟨d, -, h⟩ := bind_ok h
      split at h
      · split at h
        · exact (skipWhile_suffix h).trans ((sign_suffix hs).trans (tail_suffix gs))
        · cases h; exact List.suffix_refl _
      · cases h; exact List.suffix_refl _
    · cases h; exact List.suffix_refl _
  · cases h; exact List.suffix_refl _

theorem bigMark_suffix {gs rest : List Glyph} (h : bigMark gs = .ok rest) : rest <:+ gs := by
  unfold bigMark at h
  obtain ⟨c, -, h⟩ := bind_ok h
  cases h
  split
  · exact tail_suffix gs
  · exact List.suffix_refl _

theorem number_suffix {gs rest : List Glyph} (h : number gs = .ok rest) : rest <:+ gs := by
  unfold number at h
  obtain ⟨a, ha, h⟩ := bind_ok h
  obtain ⟨b, hb, h⟩ := bind_ok h
  obtain ⟨c, hc, h⟩ := bind_ok h
  exact (bigMark_suffix h).trans
    ((exponent_suffix hc).trans ((fraction_suffix hb).trans (skipWhile_suffix ha)))

theorem closeQuote_suffix {size start : Nat} {quote : Char} {hidden : Bool} {gs rest : List Glyph}
    (h : closeQuote size start quote hidden gs = .ok rest) : rest <:+ gs := by
  fun_induction closeQuote size start quote hidden gs <;> simp_all [List.suffix_cons_iff]

theorem closeTemplate_suffix {size start depth : Nat} {hidden : Bool} {gs rest : List Glyph}
    (h : closeTemplate size start depth hidden gs = .ok rest) : rest <:+ gs := by
  fun_induction closeTemplate size start depth hidden gs <;> simp_all [List.suffix_cons_iff]

theorem closeBlob_suffix {size start : Nat} {form : BlobForm} {gs rest : List Glyph}
    (h : closeBlob size start form gs = .ok rest) : rest <:+ gs := by
  fun_induction closeBlob size start form gs <;> simp_all [List.suffix_cons_iff]

theorem nameOrBlob_suffix {size : Nat} {g : Glyph} {gs rest : List Glyph} {kind : TokenKind}
    (h : nameOrBlob size g gs = .ok (kind, rest)) : rest <:+ gs := by
  unfold nameOrBlob at h
  obtain ⟨left, hl, h⟩ := bind_ok h
  obtain ⟨c, -, h⟩ := bind_ok h
  split at h
  · split at h
    · obtain ⟨after, ha, h⟩ := bind_ok h
      cases h
      exact (closeBlob_suffix ha).trans ((tail_suffix left).trans (skipWhile_suffix hl))
    · cases h; exact skipWhile_suffix hl
  · cases h; exact skipWhile_suffix hl

theorem spell_suffix {cs : List Char} {gs rest : List Glyph}
    (h : spell cs gs = .ok (some rest)) : rest <:+ gs ∧ rest.length + cs.length = gs.length := by
  induction cs generalizing gs with
  | nil => cases h; exact ⟨List.suffix_refl _, rfl⟩
  | cons c cs ih =>
    unfold spell at h
    obtain ⟨d, -, h⟩ := bind_ok h
    split at h
    · split at h
      · obtain ⟨hs, hl⟩ := ih h
        refine ⟨hs.trans (List.suffix_cons _ _), ?_⟩
        simp only [List.length_cons]
        omega
      · cases h
    · cases h

theorem firstSymbol_shorter {gs rest : List Glyph} {all : List (List Char)}
    (hall : ∀ symbol ∈ all, symbol ≠ []) (h : firstSymbol gs all = .ok (some rest)) :
    rest <:+ gs ∧ rest.length < gs.length := by
  induction all with
  | nil => cases h
  | cons symbol others ih =>
    unfold firstSymbol at h
    obtain ⟨found, hf, h⟩ := bind_ok h
    split at h
    · cases h
      obtain ⟨hs, hl⟩ := spell_suffix hf
      have hne := List.length_pos_iff.2 (hall symbol (by simp))
      exact ⟨hs, by omega⟩
    · exact ih (fun s hs => hall s (by simp [hs])) h

/-- A token takes its first glyph and leaves an end piece of the others. -/
theorem lexeme_suffix {size : Nat} {g : Glyph} {c : Char} {gs rest : List Glyph}
    {kind : TokenKind} (h : lexeme size g c gs = .ok (kind, rest)) : rest <:+ gs := by
  unfold lexeme at h
  split at h
  · obtain ⟨left, hl, h⟩ := bind_ok h
    cases h
    exact number_suffix hl
  split at h
  · obtain ⟨left, hl, h⟩ := bind_ok h
    cases h
    exact closeQuote_suffix hl
  split at h
  · obtain ⟨left, hl, h⟩ := bind_ok h
    cases h
    exact closeTemplate_suffix hl
  split at h
  · obtain ⟨left, hl, h⟩ := bind_ok h
    cases h
    exact skipWhile_suffix hl
  split at h
  · exact nameOrBlob_suffix h
  · obtain ⟨found, hf, h⟩ := bind_ok h
    split at h
    · cases h
      obtain ⟨hs, hl⟩ := firstSymbol_shorter (by decide) hf
      rcases List.suffix_cons_iff.1 hs with rfl | hs
      · omega
      · exact hs
    · cases h

/-! ## The whole text -/

/-- The tokens of glyphs, without the end. -/
def tokens (size : Nat) (gs : List Glyph) : Except Fault (List Token) :=
  match _hb : skipBlank size .between gs with
  | .error e => .error e
  | .ok [] => .ok []
  | .ok (g :: rest) =>
    match g.char with
    | .error e => .error (malformed e)
    | .ok c =>
      match _hl : lexeme size g c rest with
      | .error e => .error e
      | .ok (kind, after) =>
        let text := String.ofList (chars (taken (g :: rest) after))
        (tokens size after).map (⟨kind, ⟨g.offset, here size after⟩, text⟩ :: ·)
  termination_by gs.length
  decreasing_by
    have h₁ := (skipBlank_suffix _hb).length_le
    have h₂ := (lexeme_suffix _hl).length_le
    simp only [List.length_cons] at h₁
    omega

end Lexer

/-- The tokens of a source text, of which the last is its end. -/
def tokenize (bytes : Bytes) : Except ParseError (List Token) :=
  let fail (fault : Fault) : ParseError := ⟨fault, Utf8.shown bytes⟩
  match Lexer.tokens bytes.length (Lexer.glyphs 0 bytes) with
  | .error fault => .error (fail fault)
  | .ok tokens =>
    match Utf8.decodeFrom 0 bytes with
    | .ok _ => .ok (tokens ++ [.endAt bytes.length])
    | .error offset =>
      .error (fail (Lexer.malformed (.invalidLeadByte offset (bytes.getD offset 0))))

end LazyConfig
