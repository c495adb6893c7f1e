-- Literals: constants, and lists and objects of literals, with blanks anywhere between their parts.
-- Whatever text is a literal, it is made of words that write the tree of the literal.
-- Main statement: a literal with blanks around it is read as its tree.
import LazyConfig.Proofs.Source.Printing

namespace LazyConfig

open Lexer
open List (Forall₂)

variable {gap cs cs' rest w : List Char} {ts ts' : List Token} {kind : TokenKind}

/-! ## What ends a word -/

theorem delimited_blank (hgap : ∀ c ∈ gap, isBlank c = true) : Delimited gap := by
  cases gap with
  | nil => exact avoids_nil _
  | cons c gap => exact delimited_of_isBlank (hgap c (by simp)) gap

/-- Only a symbol starts with what could go on with a symbol. -/
theorem Lexer.Spells.stops_punct (h : Spells kind w) (hkind : kind ≠ .punct) (rest : List Char) :
    Stops .punct (w ++ rest) := by
  have hname : ∀ c, isNameRest c = true → ¬(c = '=' ∨ c = '/' ∨ c = '*') := by
    rintro c hc (rfl | rfl | rfl)
    all_goals cases hc
  have hstart : ∀ c more, isNameRest c = true → Stops .punct (c :: more) := by
    intro c more hc
    refine avoids_cons.mpr ?_
    simpa [not_or, and_assoc] using hname c hc
  cases h with
  | number h =>
    obtain ⟨whole, part, power, mark, hwhole, -, -, -, rfl⟩ := h
    obtain ⟨d, more, rfl, hd⟩ := hwhole.exists_cons
    exact hstart d _ (by simp [isNameRest, Char.isAlphanum, hd])
  | string hquote => rcases hquote with rfl | rfl <;> exact avoids_cons.mpr (by decide)
  | blob form => cases form <;> exact avoids_cons.mpr (by decide)
  | identifier hc =>
    refine hstart _ _ ?_
    simp only [isNameStart, Bool.or_eq_true] at hc
    simp only [isNameRest, Char.isAlphanum, Bool.or_eq_true]
    exact hc.imp_left (Or.imp_left Or.inl)
  | dots n => exact avoids_cons.mpr (by decide)
  | punct => exact absurd rfl hkind

/-! ## Words in front of a delimiter -/

/-- The text is made of the words, if a delimiter follows it. -/
structure Laid (cs : List Char) (ts : List Token) : Prop where
  length_le : ts.length ≤ cs.length
  stops : ∀ {rest}, Delimited rest → Stops .punct (cs ++ rest)
  layout : ∀ {rest us}, Delimited rest → Layout rest us → Layout (cs ++ rest) (ts ++ us)

theorem laid_nil : Laid [] [] := ⟨Nat.le_refl _, fun h => h.stops _, fun _ h => h⟩

theorem laid_word (h : Spells kind w) (hkind : kind ≠ .punct) :
    Laid w [.of kind (String.ofList w)] where
  length_le := by
    obtain ⟨c, more, rfl, -⟩ := h.exists_cons
    simp
  stops _ := h.stops_punct hkind _
  layout hrest hlayout := .word (List.forall_mem_nil _) h (hrest.stops kind) hlayout

/-- A symbol in front of words, which do not go on with it. -/
theorem Laid.symbol (h : Laid cs ts) (c : Char) (hsymbol : [c] ∈ symbols) (hc : goesOn c = false) :
    Laid (c :: cs) (.symbol (String.singleton c) :: ts) where
  length_le := Nat.succ_le_succ h.length_le
  stops _ := Delimited.stops (avoids_cons.mpr hc) .punct
  layout hrest hlayout :=
    .word (List.forall_mem_nil _) (.punct hsymbol) (h.stops hrest) (h.layout hrest hlayout)

theorem Laid.blank (h : Laid cs ts) (hgap : ∀ c ∈ gap, isBlank c = true) : Laid (gap ++ cs) ts where
  length_le := by
    have := h.length_le
    rw [List.length_append]
    omega
  stops hrest := by
    rw [List.append_assoc]
    exact ((delimited_blank hgap).stops .punct).append (h.stops hrest)
  layout hrest hlayout := by
    have hmore := h.layout hrest hlayout
    rw [List.append_assoc]
    induction gap with
    | nil => exact hmore
    | cons c gap ih =>
      exact layout_blank (hgap c (by simp)) (ih fun d hd => hgap d (by simp [hd]))

theorem Laid.append (h : Laid cs ts) (h' : Laid cs' ts') (hcs' : Delimited cs') :
    Laid (cs ++ cs') (ts ++ ts') where
  length_le := by
    have hcs := h.length_le
    have hmore := h'.length_le
    rw [List.length_append, List.length_append]
    omega
  stops hrest := by
    rw [List.append_assoc]
    exact h.stops (hcs'.append hrest)
  layout hrest hlayout := by
    rw [List.append_assoc, List.append_assoc]
    exact h.layout (hcs'.append hrest) (h'.layout hrest hlayout)

/-- Words with commas between them. -/
theorem laid_separated {css : List (List Char)} {tss : List (List Token)}
    (h : Forall₂ Laid css tss) : Laid ([','].intercalate css) (separated tss) := by
  induction h with
  | nil => exact laid_nil
  | @cons cs ts css tss hcs hmore ih =>
    cases hmore with
    | nil => simpa [separated] using hcs
    | cons =>
      have hall := hcs.append (ih.symbol ',' (by decide) (by decide)) (avoids_cons.mpr (by decide))
      simpa [separated, List.intercalate_cons_cons] using hall

/-- Words between brackets, with blanks before the closing one. -/
theorem Laid.bracketed (h : Laid cs ts) (hgap : ∀ c ∈ gap, isBlank c = true)
    {opening closing : Char} (hopening : [opening] ∈ symbols ∧ goesOn opening = false)
    (hclosing : [closing] ∈ symbols ∧ goesOn closing = false) :
    Laid (opening :: (cs ++ (gap ++ [closing])))
      (.symbol (String.singleton opening) :: (ts ++ [.symbol (String.singleton closing)])) := by
  have hclose := (laid_nil.symbol closing hclosing.1 hclosing.2).blank hgap
  have hend : Delimited (gap ++ [closing]) :=
    (delimited_blank hgap).append (avoids_cons.mpr hclosing.2)
  exact (h.append hclose hend).symbol opening hopening.1 hopening.2

/-! ## Literals -/

/-- The characters of a quoted text, and what they stand for. -/
def IsText (w : List Char) (s : String) : Prop :=
  Spells .string w ∧ Escape.unescape (Grammar.unwrap 1 (String.ofList w)) = .ok s

/-- The characters of a key: a name, or a quoted text. -/
def IsKey (w : List Char) (key : String) : Prop :=
  isName key = true ∧ w = key.toList ∨ IsText w key

/-- A part of a list or an object: what is written, with blanks before and after it, and what that
stands for. -/
structure Slot (α : Type) where
  before : List Char
  text : List Char
  after : List Char
  item : α

namespace Slot

variable {α : Type}

/-- All characters of the slot. -/
def chars (s : Slot α) : List Char := s.before ++ (s.text ++ s.after)

/-- There are only blanks around what is written. -/
def Spaced (s : Slot α) : Prop := ∀ c ∈ s.before ++ s.after, isBlank c = true

end Slot

/-- A property of an object: a key, a colon and a value. -/
structure Field (α : Type) where
  key : Slot String
  value : Slot α

namespace Field

variable {α : Type}

/-- All characters of the property. -/
def chars (f : Field α) : List Char := f.key.chars ++ ':' :: f.value.chars

/-- There are only blanks around the key and around the value. -/
def Spaced (f : Field α) : Prop := f.key.Spaced ∧ f.value.Spaced

end Field

/-- The characters are a literal with the tree. -/
inductive IsLiteral : List Char → Expr → Prop
  | null : IsLiteral "null".toList (.null default)
  | boolean (b : Bool) : IsLiteral (if b then "true" else "false").toList (.boolean default b)
  | number {w : List Char} (h : IsNumber w) : IsLiteral w (.number default (String.ofList w))
  | negative {w : List Char} (h : IsNumber w) :
      IsLiteral ('-' :: w) (.unary default .neg (.number default (String.ofList w)))
  | string {w : List Char} {s : String} (h : IsText w s) : IsLiteral w (.string default s)
  | blob (form : BlobForm) {body : List Char} (h : ∀ c ∈ body, form.allows c = true) :
      IsLiteral (form.name.toList ++ '\'' :: (body ++ ['\'']))
        (.blob default form (String.ofList body))
  | array (gap : List Char) (slots : List (Slot Expr)) (hgap : ∀ c ∈ gap, isBlank c = true)
      (hspaced : ∀ s ∈ slots, s.Spaced) (h : ∀ s ∈ slots, IsLiteral s.text s.item) :
      IsLiteral ('[' :: ([','].intercalate (slots.map Slot.chars) ++ (gap ++ [']'])))
        (.array default (slots.map Slot.item))
  | object (gap : List Char) (fields : List (Field Expr)) (hgap : ∀ c ∈ gap, isBlank c = true)
      (hspaced : ∀ f ∈ fields, f.Spaced) (hkeys : ∀ f ∈ fields, IsKey f.key.text f.key.item)
      (h : ∀ f ∈ fields, IsLiteral f.value.text f.value.item) :
      IsLiteral ('\x7b' :: ([','].intercalate (fields.map Field.chars) ++ (gap ++ ['\x7d'])))
        (.object default (fields.map fun f => .property f.key.item f.value.item))

/-! ## Literals are words that write their trees -/

theorem laid_name {name : String} (h : isName name = true) :
    Laid name.toList [.of .identifier name] := by
  have hword := laid_word (isPrintable_name h).1 (by simp)
  simpa using hword

theorem IsText.laid {s : String} (h : IsText w s) : Laid w [.of .string (String.ofList w)] :=
  laid_word h.1 (by simp)

theorem IsKey.laid {key : String} (h : IsKey w key) : ∃ t, WritesKey t key ∧ Laid w [t] := by
  rcases h with ⟨hname, rfl⟩ | h
  · exact ⟨.of .identifier key, .inl ⟨rfl, rfl⟩, laid_name hname⟩
  · exact ⟨.of .string (String.ofList w), .inr ⟨rfl, h.2⟩, h.laid⟩

theorem Laid.slot {α : Type} {s : Slot α} (h : Laid s.text ts) (hspaced : s.Spaced) :
    Laid s.chars ts := by
  obtain ⟨hbefore, hafter⟩ := List.forall_mem_append.mp hspaced
  have hend : Laid s.after [] := by
    simpa using laid_nil.blank hafter
  have hall := (h.append hend (delimited_blank hafter)).blank hbefore
  simpa [Slot.chars] using hall

/-- What writes the items of slots is a list of pieces. -/
theorem exists_pieces {slots : List (Slot Expr)} (hspaced : ∀ s ∈ slots, s.Spaced)
    (h : ∀ s ∈ slots, ∃ level ts, Writes level ts s.item ∧ Laid s.text ts) :
    ∃ ps : List Piece, slots.map Slot.item = ps.map (·.expr) ∧
      (∀ p ∈ ps, Writes p.level p.tokens p.expr) ∧
      Forall₂ Laid (slots.map Slot.chars) (ps.map (·.tokens)) := by
  induction slots with
  | nil => exact ⟨[], rfl, by simp, .nil⟩
  | cons s slots ih =>
    obtain ⟨hs, hmore⟩ := List.forall_mem_cons.mp h
    obtain ⟨hspace, hspaces⟩ := List.forall_mem_cons.mp hspaced
    obtain ⟨level, ts, hwrites, hlaid⟩ := hs
    obtain ⟨ps, hexprs, hps, hall⟩ := ih hspaces hmore
    exact ⟨⟨level, ts, s.item⟩ :: ps, by simp [hexprs], List.forall_mem_cons.mpr ⟨hwrites, hps⟩,
      .cons (hlaid.slot hspace) hall⟩

/-- What writes the properties of fields is a list of pieces with keys. -/
theorem exists_memberPieces {fields : List (Field Expr)} (hspaced : ∀ f ∈ fields, f.Spaced)
    (hkeys : ∀ f ∈ fields, IsKey f.key.text f.key.item)
    (h : ∀ f ∈ fields, ∃ level ts, Writes level ts f.value.item ∧ Laid f.value.text ts) :
    ∃ ms : List MemberPiece,
      (fields.map fun f => Member.property f.key.item f.value.item) = ms.map (·.member) ∧
      (∀ m ∈ ms, m.Proper) ∧ (∀ m ∈ ms, Writes m.level m.tokens m.expr) ∧
      Forall₂ Laid (fields.map Field.chars) (ms.map (·.all)) := by
  induction fields with
  | nil => exact ⟨[], rfl, by simp, by simp, .nil⟩
  | cons f fields ih =>
    obtain ⟨hf, hmore⟩ := List.forall_mem_cons.mp h
    obtain ⟨hkey, hkeys⟩ := List.forall_mem_cons.mp hkeys
    obtain ⟨hspace, hspaces⟩ := List.forall_mem_cons.mp hspaced
    obtain ⟨level, ts, hwrites, hlaid⟩ := hf
    obtain ⟨t, ht, htlaid⟩ := hkey.laid
    obtain ⟨ms, hmembers, hproper, hms, hall⟩ := ih hspaces hkeys hmore
    have hvalue := (hlaid.slot hspace.2).symbol ':' (by decide) (by decide)
    have hfield : Laid f.chars (t :: .symbol ":" :: ts) :=
      (htlaid.slot hspace.1).append hvalue (avoids_cons.mpr (by decide))
    exact ⟨⟨⟨level, ts, f.value.item⟩, some (t, f.key.item)⟩ :: ms, by simp [hmembers]; rfl,
      List.forall_mem_cons.mpr ⟨ht, hproper⟩, List.forall_mem_cons.mpr ⟨hwrites, hms⟩,
      .cons hfield hall⟩

theorem IsLiteral.laid {e : Expr} (h : IsLiteral cs e) :
    ∃ level ts, Writes level ts e ∧ Laid cs ts := by
  induction h with
  | null => exact ⟨8, _, .word "null", laid_name (by decide)⟩
  | boolean b =>
    cases b
    · exact ⟨8, _, .word "false", laid_name (by decide)⟩
    · exact ⟨8, _, .word "true", laid_name (by decide)⟩
  | number h => exact ⟨8, _, .number _, laid_word (.number h) (by simp)⟩
  | negative h =>
    have hnumber := laid_word (.number h) (by simp)
    exact ⟨7, _, .unary .neg (by decide) (.number _),
      hnumber.symbol '-' (by decide) (by decide)⟩
  | string h => exact ⟨8, _, .string h.2, h.laid⟩
  | @blob form body h =>
    have hwrites := Writes.blob form (String.ofList (form.name.toList ++ '\'' :: (body ++ ['\''])))
    rw [unwrap_blob String.toList_ofList] at hwrites
    exact ⟨8, _, hwrites, laid_word (.blob form h) (by simp)⟩
  | array gap slots hgap hspaced h ih =>
    obtain ⟨ps, hexprs, hps, hall⟩ := exists_pieces hspaced ih
    rw [hexprs]
    exact ⟨8, _, .array ps hps,
      (laid_separated hall).bracketed hgap (by decide) (by decide)⟩
  | object gap fields hgap hspaced hkeys h ih =>
    obtain ⟨ms, hmembers, hproper, hms, hall⟩ := exists_memberPieces hspaced hkeys ih
    rw [hmembers]
    exact ⟨8, _, .object ms hproper hms,
      (laid_separated hall).bracketed hgap (by decide) (by decide)⟩

/-- A literal with blanks around it is read as its tree, whenever as many levels are allowed as it
has characters. -/
theorem IsLiteral.parse {e : Expr} (h : IsLiteral cs e) {before after : List Char}
    (hbefore : ∀ c ∈ before, isBlank c = true) (hafter : ∀ c ∈ after, isBlank c = true)
    {limit : Nat} (hlimit : cs.length ≤ limit) :
    ∃ e', LazyConfig.parse limit (Utf8.encodeChars (before ++ (cs ++ after))) = .ok e' ∧
      e'.bare = e.bare := by
  obtain ⟨level, ts, hwrites, hlaid⟩ := h.laid
  have hlayout := (hlaid.blank hbefore).layout (delimited_blank hafter) (.blank hafter)
  rw [List.append_nil, List.append_assoc] at hlayout
  exact parse_layout hlayout hwrites (hlaid.length_le.trans hlimit)

end LazyConfig
