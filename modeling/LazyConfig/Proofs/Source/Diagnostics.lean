-- Where diagnostics point. A span counts the bytes as they were given, and the source that is kept
-- with it shows a replacement character for malformed ones. So the span points at what is reported
-- in the bytes, and in the source as far as the bytes before its end are valid.
-- Main statement: where the span of every fault lies in the bytes and in the source.
import LazyConfig.Proofs.Source.Blame
import LazyConfig.Proofs.Source.Outcomes
import LazyConfig.Proofs.Source.Tiling
import LazyConfig.Proofs.Text.Shown

namespace LazyConfig

open Lexer
open Utf8 (width encodeChars)

/-! ## What is under a span -/

/-- What a fault reports, as the bytes under its span and those after it. A comment is opened by a
slash; malformed bytes may stand before the star. -/
def FaultKind.IsBytes (item back : Bytes) : FaultKind → Prop
  | .unexpectedCharacter c | .blobCharacter c => item = encodeChars [c]
  | .unexpectedToken _ (some found) => item = Utf8.encode found
  | .unterminatedString quote => encodeChars [quote] <+: item ∧ back = []
  | .unterminatedComment => encodeChars ['/'] <+: item ∧ back = []
  | .unterminatedBlob => back = []
  | _ => True

/-- What a fault reports, as the text under its span and the text after it. -/
def FaultKind.IsText (item back : List Char) : FaultKind → Prop
  | .unexpectedCharacter c | .blobCharacter c => item = [c]
  | .unexpectedToken _ (some found) => item = found.toList
  | .unterminatedString quote => [quote] <+: item ∧ back = []
  | .unterminatedComment => ['/', '*'] <+: item ∧ back = []
  | .unterminatedBlob => back = []
  | _ => True

/-- What the fault reports is in the bytes under its span. -/
def Fault.Marks (f : Fault) (bytes : Bytes) : Prop :=
  ∃ front item back, bytes = front ++ (item ++ back) ∧
    f.span = ⟨front.length, front.length + item.length⟩ ∧ f.kind.IsBytes item back

/-- The span of the fault starts and ends between characters of the text, and what the fault reports
is the text under the span. -/
def Fault.Points (f : Fault) (text : List Char) : Prop :=
  ∃ front item back, text = front ++ (item ++ back) ∧
    f.span = ⟨width front, width front + width item⟩ ∧ f.kind.IsText item back

theorem encodeChars_mono {cs ds : List Char} (h : cs <+: ds) :
    encodeChars cs <+: encodeChars ds := by
  obtain ⟨rest, rfl⟩ := h
  rw [Utf8.encodeChars_append]
  exact List.prefix_append _ _

theorem FaultKind.isBytes_of_isText {item back : List Char} {kind : FaultKind}
    (h : kind.IsText item back) : kind.IsBytes (encodeChars item) (encodeChars back) := by
  cases kind with
  | unexpectedCharacter c | blobCharacter c => exact congrArg encodeChars h
  | unexpectedToken expected found =>
    cases found with
    | none => trivial
    | some found => exact congrArg encodeChars h
  | unterminatedString quote => exact ⟨encodeChars_mono h.1, congrArg encodeChars h.2⟩
  | unterminatedComment =>
    have hslash : ['/'] <+: item := .trans ⟨['*'], rfl⟩ h.1
    exact ⟨encodeChars_mono hslash, congrArg encodeChars h.2⟩
  | unterminatedBlob => exact congrArg encodeChars h
  | decode | invalidString | tooDeep => trivial

/-- What is under the span in a text is under it in the bytes of the text. -/
theorem Fault.Points.marks {f : Fault} {cs : List Char} (h : f.Points cs) :
    f.Marks (encodeChars cs) := by
  obtain ⟨front, item, back, rfl, hspan, hitem⟩ := h
  exact ⟨encodeChars front, encodeChars item, encodeChars back, by simp,
    by simp [hspan, Utf8.length_encodeChars], FaultKind.isBytes_of_isText hitem⟩

theorem Fault.Marks.within {f : Fault} {bytes : Bytes} (h : f.Marks bytes) :
    f.span.start ≤ f.span.stop ∧ f.span.stop ≤ bytes.length := by
  obtain ⟨front, item, back, rfl, hspan, -⟩ := h
  rw [hspan]
  simp only [List.length_append]
  omega

/-! ## Glyphs of bytes that may be malformed -/

namespace Lexer

/-- A glyph is what decodes at its place. -/
theorem exists_of_suffix_glyphs {offset : Nat} {bytes : Bytes} {g : Glyph} {more : List Glyph}
    (h : g :: more <:+ glyphs offset bytes) :
    ∃ front b back, bytes = front ++ b :: back ∧ g.offset = offset + front.length ∧
      g.char = Utf8.decodeFirst g.offset b back := by
  induction bytes generalizing offset with
  | nil => exact absurd (List.suffix_nil.mp h) (by simp)
  | cons b bytes ih =>
    have hlater : g :: more <:+ glyphs (offset + 1) bytes → ∃ front b' back,
        b :: bytes = front ++ b' :: back ∧ g.offset = offset + front.length ∧
          g.char = Utf8.decodeFirst g.offset b' back := by
      intro h
      obtain ⟨front, b', back, rfl, hoffset, hchar⟩ := ih h
      exact ⟨b :: front, b', back, rfl, by rw [hoffset, List.length_cons]; omega, hchar⟩
    rw [glyphs] at h
    split at h
    · exact hlater h
    · rcases List.suffix_cons_iff.mp h with heq | h
      · obtain ⟨rfl, -⟩ := List.cons.inj heq
        exact ⟨[], b, bytes, rfl, rfl, rfl⟩
      · exact hlater h

/-- A glyph before the end of the valid bytes is a character of the text there. -/
theorem exists_of_suffix_places {offset : Nat} {cs : List Char} {gs more : List Glyph} {g : Glyph}
    (h : g :: more <:+ places offset cs ++ gs) :
    (∃ front c back, cs = front ++ c :: back ∧ g = ⟨offset + width front, .ok c⟩ ∧
      more = places (offset + width front + c.utf8Size) back ++ gs) ∨ g :: more <:+ gs := by
  induction cs generalizing offset with
  | nil => exact .inr h
  | cons c cs ih =>
    rw [places_cons, List.cons_append] at h
    rcases List.suffix_cons_iff.mp h with heq | h
    · obtain ⟨rfl, rfl⟩ := List.cons.inj heq
      exact .inl ⟨[], c, cs, rfl, rfl, rfl⟩
    · rcases ih h with ⟨front, d, back, rfl, rfl, rfl⟩ | h
      · refine .inl ⟨c :: front, d, back, rfl, ?_, ?_⟩
        all_goals simp [Nat.add_assoc]
      · exact .inr h

theorem offset_of_suffix_glyphs {offset : Nat} {bytes : Bytes} {g : Glyph} {more : List Glyph}
    (h : g :: more <:+ glyphs offset bytes) :
    offset ≤ g.offset ∧ g.offset < offset + bytes.length := by
  obtain ⟨front, b, back, rfl, hoffset, -⟩ := exists_of_suffix_glyphs h
  rw [hoffset, List.length_append, List.length_cons]
  omega

/-- A glyph that is a character has its encoding at its place. -/
theorem exists_encoded {bytes : Bytes} {g : Glyph} {more : List Glyph} {c : Char}
    (h : g :: more <:+ glyphs 0 bytes) (hc : g.char = .ok c) :
    ∃ front back, bytes = front ++ (encodeChars [c] ++ back) ∧ g.offset = front.length := by
  obtain ⟨front, b, back, rfl, hoffset, hchar⟩ := exists_of_suffix_glyphs h
  rw [hc] at hchar
  obtain ⟨rest, hrest⟩ := Utf8.decodeFirst_eq_ok.mp hchar.symm
  refine ⟨front, rest, ?_, by rw [hoffset, Nat.zero_add]⟩
  rw [← hrest, Utf8.encodeChars_cons, Utf8.encodeChars_nil, List.append_nil]

/-- A glyph before the end of the valid bytes at the front is a character of the text there. -/
theorem exists_written {cs : List Char} {rest : Bytes} {g : Glyph} {more : List Glyph} {c : Char}
    (h : g :: more <:+ glyphs 0 (encodeChars cs ++ rest)) (hc : g.char = .ok c)
    (hbefore : g.offset < width cs) :
    ∃ front back, cs = front ++ c :: back ∧ g.offset = width front ∧
      more = places (width front + c.utf8Size) back ++ glyphs (width cs) rest := by
  rw [glyphs_append, Nat.zero_add] at h
  rcases exists_of_suffix_places h with ⟨front, d, back, rfl, rfl, rfl⟩ | h
  · cases hc
    exact ⟨front, back, rfl, Nat.zero_add _, by rw [Nat.zero_add]⟩
  · exact absurd (offset_of_suffix_glyphs h).1 (Nat.not_le.mpr hbefore)

/-- If there are no more bytes than the valid ones, the glyphs from there on are those of the
text. -/
theorem exists_written_to_end {cs : List Char} {rest : Bytes} {g : Glyph}
    {more : List Glyph} {c : Char} (h : g :: more <:+ glyphs 0 (encodeChars cs ++ rest))
    (hc : g.char = .ok c) (hlen : (encodeChars cs ++ rest).length ≤ width cs) :
    rest = [] ∧ ∃ front back, cs = front ++ c :: back ∧ g.offset = width front ∧
      more = places (width front + c.utf8Size) back := by
  have hlt := (offset_of_suffix_glyphs h).2
  obtain ⟨front, back, hcs, hoffset, hmore⟩ := exists_written h hc (by omega)
  rw [List.length_append, Utf8.length_encodeChars] at hlen
  obtain rfl : rest = [] := List.length_eq_zero_iff.mp (by omega)
  rw [glyphs, List.append_nil] at hmore
  exact ⟨rfl, front, back, hcs, hoffset, hmore⟩

/-! ## Faults of splitting -/

theorem marks_malformed {bytes : Bytes} {e : DecodeError} (h : e.offset ≤ bytes.length) :
    (malformed e).Marks bytes := by
  refine ⟨_, [], _, (List.take_append_drop e.offset _).symm, ?_, trivial⟩
  rw [List.length_take_of_le h]
  rfl

/-- Malformed bytes right behind a text. -/
theorem points_malformed {cs : List Char} {e : DecodeError} (h : e.offset = width cs)
    (rest : List Char) : (malformed e).Points (cs ++ rest) := by
  refine ⟨cs, [], rest, rfl, ?_, trivial⟩
  rw [malformed, h]
  rfl

/-- A fault of what is never closed reports the bytes from there to the end. -/
theorem marks_to_end {kind : FaultKind} {front item : Bytes} {start : Nat}
    (hstart : start = front.length) (h : kind.IsBytes item []) :
    (Fault.mk kind ⟨start, (front ++ item).length⟩).Marks (front ++ item) := by
  refine ⟨front, item, [], by simp, ?_, h⟩
  rw [hstart, List.length_append]

theorem marks_of_blames {bytes : Bytes} {f : Fault} (h : Blames bytes.length (glyphs 0 bytes) f) :
    f.Marks bytes := by
  cases h with
  | @malformed g more e h he =>
    obtain ⟨front, b, back, rfl, hoffset, hchar⟩ := exists_of_suffix_glyphs h
    rw [he] at hchar
    have hfails := Utf8.offset_of_decodeFirst hchar.symm
    refine marks_malformed ?_
    rw [List.length_append, List.length_cons]
    omega
  | @character g more c h hc | @blobCharacter g more c h hc =>
    obtain ⟨front, back, rfl, hoffset⟩ := exists_encoded h hc
    refine ⟨front, _, back, rfl, ?_, rfl⟩
    simp [hoffset, Utf8.length_encodeChars]
  | @string g more quote h hc =>
    obtain ⟨front, back, rfl, hoffset⟩ := exists_encoded h hc
    exact marks_to_end hoffset ⟨List.prefix_append _ _, rfl⟩
  | @comment g g' more h hc hc' =>
    obtain ⟨front, back, rfl, hoffset⟩ := exists_encoded h hc
    exact marks_to_end hoffset ⟨List.prefix_append _ _, rfl⟩
  | @blob g more c h hc =>
    obtain ⟨front, back, rfl, hoffset⟩ := exists_encoded h hc
    exact marks_to_end hoffset rfl

/-- A fault of what is never closed reports the text from there to the end. -/
theorem points_to_end {kind : FaultKind} {front item : List Char} {start : Nat}
    (hstart : start = width front) (h : kind.IsText item []) :
    (Fault.mk kind ⟨start, (encodeChars (front ++ item) ++ []).length⟩).Points
      (front ++ item ++ Utf8.showChars []) := by
  refine ⟨front, item, [], by simp [Utf8.showChars], ?_, h⟩
  simp [hstart, Utf8.length_encodeChars]

/-- A fault that ends no later than the valid bytes at the front is in the text there. -/
theorem points_of_blames {cs : List Char} {rest : Bytes} {f : Fault}
    (h : Blames (encodeChars cs ++ rest).length (glyphs 0 (encodeChars cs ++ rest)) f)
    (hstop : f.span.stop ≤ width cs) : f.Points (cs ++ Utf8.showChars rest) := by
  cases h with
  | @malformed g more e h he =>
    -- Malformed bytes are not found before the valid ones end, so the fault is right behind those.
    rw [glyphs_append, Nat.zero_add] at h
    rcases exists_of_suffix_places h with ⟨front, c, back, -, rfl, -⟩ | h
    · cases he
    · obtain ⟨front, b, back, rfl, hoffset, hchar⟩ := exists_of_suffix_glyphs h
      rw [he] at hchar
      have hfails := Utf8.offset_of_decodeFirst hchar.symm
      exact points_malformed (Nat.le_antisymm hstop (by omega)) _
  | @character g more c h hc | @blobCharacter g more c h hc =>
    have hpos := c.utf8Size_pos
    have hbefore : g.offset < width cs := Nat.lt_of_lt_of_le (Nat.lt_add_of_pos_right hpos) hstop
    obtain ⟨front, back, rfl, hoffset, -⟩ := exists_written h hc hbefore
    exact ⟨front, [c], back ++ Utf8.showChars rest, by simp, by simp [hoffset], rfl⟩
  | @string g more quote h hc =>
    obtain ⟨rfl, front, back, rfl, hoffset, -⟩ := exists_written_to_end h hc hstop
    exact points_to_end hoffset ⟨⟨back, rfl⟩, rfl⟩
  | @comment g g' more h hc hc' =>
    obtain ⟨rfl, front, back, rfl, hoffset, hmore⟩ := exists_written_to_end h hc hstop
    cases back with
    | nil => cases hmore
    | cons d back =>
      rw [places_cons] at hmore
      cases hmore
      cases hc'
      exact points_to_end hoffset ⟨⟨back, rfl⟩, rfl⟩
  | @blob g more c h hc =>
    obtain ⟨rfl, front, back, rfl, hoffset, -⟩ := exists_written_to_end h hc hstop
    exact points_to_end hoffset rfl

end Lexer

/-! ## Faults of reading -/

/-- What a fault that is found at a token reports. -/
def FaultKind.Concerns (t : Token) : FaultKind → Prop
  | .unexpectedToken _ (some found) => found = t.text
  | .unexpectedToken _ none => t.kind = .eof
  | .invalidString _ => t.kind = .string ∨ t.kind = .template
  | .tooDeep _ _ => True
  | _ => False

/-- So many of the tokens, and then the end. -/
def Onward (words : List Token) (size : Nat) (ts : List Token) : Prop :=
  ∃ left, left <:+ words ∧ ts = left ++ [.endAt size]

theorem Onward.exists_cons {words ts : List Token} {size : Nat} (h : Onward words size ts) :
    ∃ t rest, ts = t :: rest ∧ t ∈ words ++ [.endAt size] := by
  obtain ⟨left, hleft, rfl⟩ := h
  cases left with
  | nil => exact ⟨_, [], rfl, by simp⟩
  | cons t left =>
    exact ⟨t, _, rfl, List.mem_append_left _ (hleft.subset List.mem_cons_self)⟩

theorem ahead_onward (words : List Token) (size : Nat) :
    Ahead (Onward words size) fun f =>
      ∃ t ∈ words ++ [.endAt size], f.span = t.span ∧ f.kind.Concerns t where
  next {t rest} h hkind := by
    obtain ⟨left, hleft, heq⟩ := h
    cases left with
    | nil =>
      cases heq
      exact absurd rfl hkind
    | cons u left =>
      cases heq
      exact ⟨left, (List.suffix_cons _ left).trans hleft, rfl⟩
  unexpected expected h := by
    obtain ⟨t, rest, rfl, ht⟩ := h.exists_cons
    refine ⟨t, ht, rfl, ?_⟩
    by_cases hkind : t.kind = .eof
    · simp [Grammar.unexpected, Grammar.peek, hkind, FaultKind.Concerns]
    · simp [Grammar.unexpected, Grammar.peek, hkind, FaultKind.Concerns]
  contents {t rest f} h hkind hf := by
    obtain ⟨u, rest', heq, hu⟩ := h.exists_cons
    cases heq
    unfold Grammar.contents at hf
    split at hf
    · cases hf
    · cases hf
      exact ⟨t, hu, rfl, hkind⟩
  tooDeep limit depth h := by
    obtain ⟨t, rest, rfl, ht⟩ := h.exists_cons
    exact ⟨t, ht, rfl, trivial⟩

/-- Any tree may be read. -/
def Shape.any : Shape := ⟨fun _ => True, fun _ => True, fun _ _ => True⟩

theorem Shape.any_tower : Shape.Tower fun _ => .any where
  bottom := by constructor <;> intros <;> trivial
  step _ := by constructor <;> intros <;> trivial

/-- A fault of reading is at a token, which has its place in the text. -/
theorem points_of_parseTokens {limit : Nat} {cs : List Char} {ts : List Token} {f : Fault}
    (hplaced : Placed cs ts) (h : parseTokens limit ts = .error f) : f.Points cs := by
  obtain ⟨words, rfl, -⟩ := hplaced.ended
  have hends := (ahead_onward words (width cs)).ends_parseTokens Shape.any_tower limit _
    ⟨words, List.suffix_refl _, rfl⟩
  rw [h] at hends
  obtain ⟨t, ht, hspan, hkind⟩ := hends
  obtain ⟨front, back, hcs, hstands⟩ := hplaced.stands t ht
  refine ⟨front, _, back, hcs, hspan.trans hstands, ?_⟩
  cases hk : f.kind with
  | unexpectedToken expected found =>
    rw [hk] at hkind
    cases found with
    | none => trivial
    | some found => exact congrArg String.toList hkind.symm
  | invalidString | tooDeep => trivial
  | _ =>
    rw [hk] at hkind
    exact hkind.elim

/-! ## All faults -/

/-- The fault points at what it reports, in the bytes and, as far as these are valid, in what is
shown for them. -/
structure Fault.Located (f : Fault) (bytes : Bytes) : Prop where
  marks : f.Marks bytes
  points {cs : List Char} {rest : Bytes} : bytes = encodeChars cs ++ rest → f.span.stop ≤ width cs →
    f.Points (Utf8.showChars bytes)

theorem located_of_tokenize {bytes : Bytes} {e : ParseError} (h : tokenize bytes = .error e) :
    e.source = Utf8.shown bytes ∧ e.toFault.Located bytes := by
  unfold tokenize at h
  split at h
  · next f hf =>
    cases h
    have hblames := faulty_tokens (List.suffix_refl _) f hf
    refine ⟨rfl, marks_of_blames hblames, ?_⟩
    rintro cs rest rfl hstop
    rw [Utf8.showChars_append]
    exact points_of_blames hblames hstop
  · split at h
    · cases h
    · next n hn =>
      -- All is split, but a character that was passed over unseen is malformed.
      cases h
      have hle := (Utf8.offset_of_decodeFrom hn).2
      rw [Nat.zero_add] at hle
      refine ⟨rfl, marks_malformed hle, ?_⟩
      rintro cs rest rfl hstop
      have hge := Utf8.le_of_decodeFrom hn
      rw [Nat.zero_add] at hge
      rw [Utf8.showChars_append]
      refine points_malformed ?_ _
      exact Nat.le_antisymm hstop hge

theorem located_of_parse {limit : Nat} {bytes : Bytes} {e : ParseError}
    (h : parse limit bytes = .error e) : e.source = Utf8.shown bytes ∧ e.toFault.Located bytes := by
  rcases parse_error_cases h with h | ⟨ts, f, hts, hf, rfl⟩
  · exact located_of_tokenize h
  · obtain ⟨cs, rfl, htiles⟩ := tiles_tokenize hts
    have hpoints := points_of_parseTokens htiles.placed hf
    refine ⟨rfl, hpoints.marks, fun _ _ => ?_⟩
    rw [Utf8.showChars_encodeChars]
    exact hpoints

/-- The span of every fault points at what the fault reports in the bytes as they were given. It
lies in the source that is kept with the fault. It points at what the fault reports in the source,
too, and starts and ends between characters there, if all bytes are valid or at least those up to
its end. -/
theorem diagnostics_point {limit : Nat} {bytes : Bytes} {e : ParseError}
    (h : parse limit bytes = .error e) :
    e.toFault.Marks bytes ∧
    (e.span.start ≤ e.span.stop ∧ e.span.stop ≤ width e.source.toList) ∧
    ∀ cs rest, bytes = encodeChars cs ++ rest → rest = [] ∨ e.span.stop ≤ width cs →
      e.toFault.Points e.source.toList := by
  obtain ⟨hsource, hlocated⟩ := located_of_parse h
  obtain ⟨hle, hstop⟩ := hlocated.marks.within
  rw [hsource, Utf8.shown, String.toList_ofList]
  refine ⟨hlocated.marks, ⟨hle, hstop.trans (Utf8.length_le_width_showChars bytes)⟩, ?_⟩
  rintro cs rest hbytes (rfl | hvalid)
  · refine hlocated.points hbytes ?_
    rwa [hbytes, List.append_nil, Utf8.length_encodeChars] at hstop
  · exact hlocated.points hbytes hvalid

/-- Malformed bytes after the fault do no harm. -/
theorem diagnostics_point_before_malformed :
    ∃ e, parse 0 (Utf8.encode "'é'~" ++ [0xFF]) = .error e ∧ e.source = "'é'~\uFFFD" ∧
      e.span.stop ≤ width "'é'~".toList ∧ e.toFault.Marks (Utf8.encode "'é'~" ++ [0xFF]) ∧
      e.span.stop ≤ width e.source.toList ∧ e.toFault.Points e.source.toList := by
  have h : parse 0 (Utf8.encode "'é'~" ++ [0xFF]) =
      .error ⟨⟨.unexpectedCharacter '~', ⟨4, 5⟩⟩, "'é'~\uFFFD"⟩ := by decide +kernel
  obtain ⟨hmarks, hwithin, hpoints⟩ := diagnostics_point h
  exact ⟨_, h, rfl, by decide, hmarks, hwithin.2, hpoints _ _ rfl (.inr (by decide))⟩

/-- A stray byte before the fault is one byte to the span, and a replacement character in the
source. -/
theorem diagnostics_miss_behind_malformed :
    ¬ ∀ limit bytes e, parse limit bytes = .error e → e.toFault.Points e.source.toList := by
  intro hall
  have h : parse 0 [0x27, 0x80, 0x27, 0x23] =
      .error ⟨⟨.unexpectedCharacter '#', ⟨3, 4⟩⟩, "'\uFFFD'#"⟩ := by decide +kernel
  obtain ⟨front, item, back, htext, hspan, -⟩ := hall _ _ _ h
  have htext : ['\'', '\uFFFD', '\'', '#'] = front ++ (item ++ back) := htext
  have hfront : front = ['\'', '\uFFFD', '\'', '#'].take front.length := by
    rw [htext, List.take_left]
  have hlength : front.length ≤ 4 := by
    have := congrArg List.length htext
    simp only [List.length_append, List.length_cons, List.length_nil] at this
    omega
  -- No character of the source starts at the third byte.
  have hbetween : ∀ n ≤ 4, width (['\'', '\uFFFD', '\'', '#'].take n) ≠ 3 := by decide
  refine hbetween _ hlength ?_
  rw [← hfront]
  exact (congrArg Span.start hspan).symm

end LazyConfig
