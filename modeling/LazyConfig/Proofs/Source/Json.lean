-- JSON texts and the values they denote, by the grammar of JSON alone. Each form of JSON is a form
-- of literal that has the same value: numbers by the nearest double, texts with their escapes
-- undone. A pair of escapes that name surrogates is the one form that is left out.
-- Main statement: what denotes a value in JSON is a literal with this value.
import LazyConfig.Proofs.Document.Constants
import LazyConfig.Proofs.Number.Nearest
import LazyConfig.Proofs.Source.Literals

namespace LazyConfig.Json

open Double (IsNearest)
open Lexer (IsDigits IsNumber isQuotable)

/-! ## The grammar -/

/-- Space, tab, line feed and carriage return. -/
def isSpace (c : Char) : Bool := c = ' ' || c = '\t' || c = '\n' || c = '\r'

/-- The number that digits write. -/
def digitsOf (ds : List Char) : Nat := Nat.ofDigitChars 10 ds 0

/-- The digits of a whole number, which has no zero in front unless it is zero. -/
def IsWhole (ds : List Char) : Prop := IsDigits ds ∧ (ds.head? = some '0' → ds = ['0'])

/-- Nothing, or a point and digits, and the part of one that they write. -/
inductive Fraction : List Char → ℚ → Prop
  | none : Fraction [] 0
  | digits {ds : List Char} (h : IsDigits ds) : Fraction ('.' :: ds) (digitsOf ds / 10 ^ ds.length)

/-- Nothing, or a letter, perhaps a sign, and digits, and the power of ten that they write. -/
inductive Exponent : List Char → Int → Prop
  | none : Exponent [] 0
  | bare {e : Char} {ds : List Char} (he : e = 'e' ∨ e = 'E') (h : IsDigits ds) :
      Exponent (e :: ds) (digitsOf ds)
  | plus {e : Char} {ds : List Char} (he : e = 'e' ∨ e = 'E') (h : IsDigits ds) :
      Exponent (e :: '+' :: ds) (digitsOf ds)
  | minus {e : Char} {ds : List Char} (he : e = 'e' ∨ e = 'E') (h : IsDigits ds) :
      Exponent (e :: '-' :: ds) (-digitsOf ds)

/-- The characters of a number without a sign, and the number. -/
inductive Numeral : List Char → ℚ → Prop
  | intro {whole part power : List Char} {q : ℚ} {e : Int} (hwhole : IsWhole whole)
      (hpart : Fraction part q) (hpower : Exponent power e) :
      Numeral (whole ++ (part ++ power)) ((digitsOf whole + q) * 10 ^ e)

/-- A hexadecimal digit in either case, and its value. -/
def IsHexDigit (c : Char) (d : Nat) : Prop := d < 16 ∧ (c = d.digitChar ∨ c = d.digitChar.toUpper)

instance (c : Char) (d : Nat) : Decidable (IsHexDigit c d) :=
  inferInstanceAs (Decidable (d < 16 ∧ (c = d.digitChar ∨ c = d.digitChar.toUpper)))

/-- Four hexadecimal digits, and the number that they write. -/
def IsHex (ds : List Char) (n : Nat) : Prop :=
  ∃ a b c d i j k l, IsHexDigit a i ∧ IsHexDigit b j ∧ IsHexDigit c k ∧ IsHexDigit d l ∧
    ds = [a, b, c, d] ∧ n = ((i * 16 + j) * 16 + k) * 16 + l

/-- The letters of the short escapes, and what they stand for. -/
def shortEscapes : List (Char × Char) :=
  [('"', '"'), ('\\', '\\'), ('/', '/'), ('b', '\x08'), ('f', '\x0C'), ('n', '\n'), ('r', '\r'),
    ('t', '\t')]

/-- What stands between quotes, and the text it stands for. Pairs of escapes that name surrogates
are perhaps left out. -/
inductive Contents (pairs : Bool) : List Char → List Char → Prop
  | nil : Contents pairs [] []
  | plain {c : Char} {w s : List Char} (hc : 0x20 ≤ c.toNat ∧ c ≠ '"' ∧ c ≠ '\\')
      (h : Contents pairs w s) : Contents pairs (c :: w) (c :: s)
  | short {c x : Char} {w s : List Char} (hc : (c, x) ∈ shortEscapes) (h : Contents pairs w s) :
      Contents pairs ('\\' :: c :: w) (x :: s)
  | unicode {ds : List Char} {x : Char} {w s : List Char} (hx : IsHex ds x.toNat)
      (h : Contents pairs w s) : Contents pairs ('\\' :: 'u' :: (ds ++ w)) (x :: s)
  | pair {ds ds' : List Char} {high low : Nat} {x : Char} {w s : List Char} (hpairs : pairs = true)
      (hhigh : IsHex ds (0xD800 + high)) (hlow : IsHex ds' (0xDC00 + low))
      (hbound : high < 0x400 ∧ low < 0x400)
      (hx : x.toNat = 0x10000 + 0x400 * high + low) (h : Contents pairs w s) :
      Contents pairs ('\\' :: 'u' :: (ds ++ '\\' :: 'u' :: (ds' ++ w))) (x :: s)

/-- A quoted text, and what it stands for. -/
def IsString (pairs : Bool) (cs : List Char) (s : String) : Prop :=
  ∃ w, Contents pairs w s.toList ∧ cs = '"' :: (w ++ ['"'])

/-- The characters denote the value. No object repeats a key. -/
inductive Denotes (pairs : Bool) : List Char → Value → Prop
  | null : Denotes pairs "null".toList .null
  | boolean (b : Bool) : Denotes pairs (if b then "true" else "false").toList (.boolean b)
  | number {w : List Char} {q : ℚ} {x : Float} (h : Numeral w q) (hx : IsNearest false q x) :
      Denotes pairs w (.number x)
  | negative {w : List Char} {q : ℚ} {x : Float} (h : Numeral w q) (hx : IsNearest true q x) :
      Denotes pairs ('-' :: w) (.number x)
  | string {w : List Char} {s : String} (h : IsString pairs w s) : Denotes pairs w (.string s)
  | array (gap : List Char) (slots : List (Slot Value)) (hgap : ∀ c ∈ gap, isSpace c = true)
      (hspaced : ∀ s ∈ slots, ∀ c ∈ s.before ++ s.after, isSpace c = true)
      (h : ∀ s ∈ slots, Denotes pairs s.text s.item) :
      Denotes pairs ('[' :: ([','].intercalate (slots.map Slot.chars) ++ (gap ++ [']'])))
        (.array default (slots.map Slot.item))
  | object (gap : List Char) (fields : List (Field Value)) (hgap : ∀ c ∈ gap, isSpace c = true)
      (hspaced : ∀ f ∈ fields, (∀ c ∈ f.key.before ++ f.key.after, isSpace c = true) ∧
        ∀ c ∈ f.value.before ++ f.value.after, isSpace c = true)
      (hkeys : ∀ f ∈ fields, IsString pairs f.key.text f.key.item)
      (hnodup : (fields.map fun f => f.key.item).Nodup)
      (h : ∀ f ∈ fields, Denotes pairs f.value.text f.value.item) :
      Denotes pairs ('\x7b' :: ([','].intercalate (fields.map Field.chars) ++ (gap ++ ['\x7d'])))
        (.object default (fields.map fun f => (f.key.item, f.value.item)))

end Json

open Lexer (IsDigits IsNumber Avoids avoids_cons isQuotable isQuotable_append Spells)
open Double (IsNearest)

/-- A JSON text: what denotes a value, with spaces around it. -/
def IsJson (pairs : Bool) (text : List Char) (w : Value) : Prop :=
  ∃ before cs after, (∀ c ∈ before ++ after, Json.isSpace c = true) ∧ Json.Denotes pairs cs w ∧
    text = before ++ (cs ++ after)

namespace Json

theorem isBlank_of_isSpace {c : Char} (h : isSpace c = true) : Lexer.isBlank c = true := by
  simp only [isSpace, Bool.or_eq_true, decide_eq_true_eq] at h
  rcases h with ((rfl | rfl) | rfl) | rfl <;> decide

/-! ## Numbers -/

theorem digitsOf_append (ds more : List Char) :
    digitsOf (ds ++ more) = 10 ^ more.length * digitsOf ds + digitsOf more := by
  unfold digitsOf
  rw [Nat.ofDigitChars_append, Nat.ofDigitChars_eq_ofDigitChars_zero]

theorem digitsValue_eq (ds : List Char) : Decimal.digitsValue ds = digitsOf ds :=
  Nat.ofDigitChars_eq_foldl.symm

/-- Digits in front of what is none are cut off as a whole. -/
theorem cut_digits {ds rest : List Char} (h : ∀ c ∈ ds, c.isDigit = true)
    (hrest : Avoids Char.isDigit rest) :
    (ds ++ rest).takeWhile Char.isDigit = ds ∧ (ds ++ rest).dropWhile Char.isDigit = rest := by
  rw [List.takeWhile_append_of_pos h, List.dropWhile_append_of_pos h]
  cases rest with
  | nil => simp
  | cons c rest => simp [avoids_cons.mp hrest]

/-- Digits are read as an exponent, with any sign before them. -/
theorem exponent?_digits {ds : List Char} (h : IsDigits ds) :
    Decimal.exponent? ds = some (digitsOf ds : Int) ∧
      Decimal.exponent? ('+' :: ds) = some (digitsOf ds : Int) ∧
      Decimal.exponent? ('-' :: ds) = some (-digitsOf ds : Int) := by
  have hall : (ds.isEmpty || !ds.all Char.isDigit) = false := by
    rw [List.all_eq_true.mpr h.digits, List.isEmpty_eq_false_iff.mpr h.nonempty]
    rfl
  refine ⟨?_, ?_, ?_⟩
  · unfold Decimal.exponent?
    split
    next found negative digits hfound =>
    split at hfound
    · next rest => exact absurd (h.digits '-' (by simp)) (by decide)
    · next rest => exact absurd (h.digits '+' (by simp)) (by decide)
    · cases hfound
      rw [hall, digitsValue_eq]
      rfl
  · simp only [Decimal.exponent?, hall, digitsValue_eq]
    rfl
  · simp only [Decimal.exponent?, hall, digitsValue_eq]
    rfl

/-- An exponent is read as the power of ten that it writes. -/
theorem Exponent.read {power : List Char} {e : Int} (h : Exponent power e) :
    power = [] ∧ e = 0 ∨ ∃ c rest, power = c :: rest ∧ (c = 'e' ∨ c = 'E') ∧
      Decimal.exponent? rest = some e := by
  cases h with
  | none => exact .inl ⟨rfl, rfl⟩
  | @bare c ds hc h => exact .inr ⟨c, ds, rfl, hc, (exponent?_digits h).1⟩
  | @plus c ds hc h => exact .inr ⟨c, '+' :: ds, rfl, hc, (exponent?_digits h).2.1⟩
  | @minus c ds hc h => exact .inr ⟨c, '-' :: ds, rfl, hc, (exponent?_digits h).2.2⟩

theorem Fraction.isFraction {part : List Char} {q : ℚ} (h : Fraction part q) :
    Lexer.IsFraction part := by
  cases h with
  | none => exact .inl rfl
  | digits h => exact .inr ⟨_, h, rfl⟩

theorem Exponent.isExponent {power : List Char} {e : Int} (h : Exponent power e) :
    Lexer.IsExponent power := by
  cases h with
  | none => exact .inl rfl
  | @bare c ds hc h => exact .inr ⟨c, [], ds, hc, .inl rfl, h, rfl⟩
  | @plus c ds hc h => exact .inr ⟨c, ['+'], ds, hc, .inr (.inl rfl), h, rfl⟩
  | @minus c ds hc h => exact .inr ⟨c, ['-'], ds, hc, .inr (.inr rfl), h, rfl⟩

theorem Numeral.isNumber {w : List Char} {q : ℚ} (h : Numeral w q) : IsNumber w := by
  obtain @⟨whole, part, power, _, _, hwhole, hpart, hpower⟩ := h
  exact ⟨whole, part, power, [], hwhole.1, hpart.isFraction, hpower.isExponent, .inl rfl, by simp⟩

/-- Digits, with a point somewhere among them, that go with a power of ten. -/
theorem value_shifted (whole ds : List Char) (e : Int) :
    Decimal.value ⟨Decimal.digitsValue (whole ++ ds), e - ds.length⟩ =
      (digitsOf whole + digitsOf ds / 10 ^ ds.length) * 10 ^ e := by
  have hten : (10 : ℚ) ≠ 0 := by norm_num
  rw [Decimal.value, digitsValue_eq, digitsOf_append, zpow_sub₀ hten, zpow_natCast]
  push_cast
  field_simp

/-- The digits of a number and its power of ten are read off. -/
theorem ofChars?_parts {whole part power : List Char} {q : ℚ} {e : Int} (hwhole : IsDigits whole)
    (hpart : Fraction part q) (hpower : Exponent power e) :
    ∃ ds, q = digitsOf ds / 10 ^ ds.length ∧ Decimal.ofChars? (whole ++ (part ++ power)) =
      some ⟨Decimal.digitsValue (whole ++ ds), e - ds.length⟩ := by
  have hne : whole.isEmpty = false := List.isEmpty_eq_false_iff.mpr hwhole.nonempty
  have hend : Avoids Char.isDigit power := by
    rcases hpower.read with ⟨rfl, -⟩ | ⟨c, rest, rfl, rfl | rfl, -⟩
    · exact Lexer.avoids_nil _
    · exact avoids_cons.mpr (by decide)
    · exact avoids_cons.mpr (by decide)
  cases hpart with
  | none =>
    obtain ⟨htake, hdrop⟩ := cut_digits hwhole.digits hend
    refine ⟨[], by simp [digitsOf], ?_⟩
    rw [List.nil_append]
    simp only [Decimal.ofChars?, htake, hdrop, hne]
    rcases hpower.read with ⟨rfl, rfl⟩ | ⟨c, rest, rfl, rfl | rfl, hread⟩
    · simp
    · simp [hread]
    · simp [hread]
  | @digits ds h =>
    have hpoint : Avoids Char.isDigit ('.' :: (ds ++ power)) := avoids_cons.mpr (by decide)
    obtain ⟨htake, hdrop⟩ := cut_digits hwhole.digits hpoint
    obtain ⟨htake', hdrop'⟩ := cut_digits h.digits hend
    refine ⟨ds, rfl, ?_⟩
    rw [List.cons_append]
    simp only [Decimal.ofChars?, htake, hdrop, htake', hdrop', hne]
    rcases hpower.read with ⟨rfl, rfl⟩ | ⟨c, rest, rfl, hc, hread⟩
    · simp
    · simp [hc, hread]

/-- A number is read as a decimal of the same value. -/
theorem Numeral.ofChars? {w : List Char} {q : ℚ} (h : Numeral w q) :
    ∃ d, Decimal.ofChars? w = some d ∧ d.value = q := by
  obtain @⟨whole, part, power, q, e, hwhole, hpart, hpower⟩ := h
  obtain ⟨ds, rfl, hread⟩ := ofChars?_parts hwhole.1 hpart hpower
  exact ⟨_, hread, value_shifted whole ds e⟩

/-- No number has the mark of a whole number. -/
theorem Numeral.no_mark {w : List Char} {q : ℚ} (h : Numeral w q) : 'n' ∉ w := by
  have hdigits {ds : List Char} (h : IsDigits ds) : 'n' ∉ ds := fun hmem =>
    absurd (h.digits 'n' hmem) (by decide)
  have hletter {c : Char} (h : c = 'e' ∨ c = 'E') : 'n' ≠ c := by
    rcases h with rfl | rfl <;> decide
  obtain @⟨whole, part, power, _, _, hwhole, hpart, hpower⟩ := h
  rw [List.mem_append, List.mem_append, not_or, not_or]
  refine ⟨hdigits hwhole.1, ?_, ?_⟩
  · cases hpart with
    | none => simp
    | digits h => simp [hdigits h]
  · cases hpower with
    | none => simp
    | bare hc h | plus hc h | minus hc h => simp [hletter hc, hdigits h]

/-- The negative of what a decimal is read as is what its negative is read as. -/
theorem neg_toDouble (d : Decimal) : -d.toDouble false = d.toDouble true := by
  unfold Decimal.toDouble
  split
  · exact Double.neg_ofSize false (by decide)
  split
  · exact Double.neg_ofSize false le_rfl
  split
  · exact Double.neg_ofSize false (by decide)
  split
  · exact Double.neg_ofSize false (Nat.min_le_right _ _)
  · exact Double.neg_ofSize false (Nat.min_le_right _ _)

/-- The value of a number is the nearest double. -/
theorem Numeral.ofNumber {w : List Char} {q : ℚ} (h : Numeral w q) :
    ∃ d : Decimal, Value.ofNumber (String.ofList w) = .ok (.number (d.toDouble false)) ∧
      d.value = q := by
  obtain ⟨d, hread, hvalue⟩ := h.ofChars?
  refine ⟨d, ?_, hvalue⟩
  have hlast : w.getLast? ≠ some 'n' := fun hlast => h.no_mark (List.mem_of_getLast? hlast)
  rw [Value.ofNumber, String.toList_ofList, Value.numberOfChars?, if_neg hlast, hread]
  rfl

/-! ## Texts -/

theorem IsHexDigit.value {c : Char} {d : Nat} (h : IsHexDigit c d) :
    Escape.hexValue? c = some d ∧ c ≠ '"' ∧ c ≠ '\\' ∧ c ≠ '\x7b' := by
  obtain ⟨hd, hc⟩ := h
  have hall : ∀ d : Fin 16, ∀ c : Char, c = Nat.digitChar d ∨ c = (Nat.digitChar d).toUpper →
      Escape.hexValue? c = some d.val ∧ c ≠ '"' ∧ c ≠ '\\' ∧ c ≠ '\x7b' := by
    simp only [forall_eq_or_imp, forall_eq]
    decide
  exact hall ⟨d, hd⟩ c hc

/-- Four digits are read as the character that they name. -/
theorem IsHex.read {ds : List Char} {x : Char} (h : IsHex ds x.toNat) (position : Nat)
    (rest : List Char) : Escape.read position ('u' :: ds ++ rest) = .ok (some x, 5) := by
  obtain ⟨a, b, c, d, i, j, k, l, ha, hb, hc, hd, rfl, hx⟩ := h
  have hchar : Utf8.scalar? x.toNat = some x := by
    have hvalid : x.toNat.isValidChar := x.valid
    simp [Utf8.scalar?, hvalid]
  rw [hx] at hchar
  simp [Escape.read, Escape.readDigits, ha.value, hb.value, hc.value, hd.value, Escape.named, hchar,
    bind, Except.bind]

theorem isQuotable_hex {ds : List Char} {n : Nat} (h : IsHex ds n) :
    isQuotable '"' false ds = true := by
  obtain ⟨a, b, c, d, i, j, k, l, ha, hb, hc, hd, rfl, -⟩ := h
  simp [isQuotable, ha.value, hb.value, hc.value, hd.value]

theorem read_short {c x : Char} (h : (c, x) ∈ shortEscapes) (position : Nat) (rest : List Char) :
    Escape.read position ([c] ++ rest) = .ok (some x, 1) := by
  simp only [shortEscapes, List.mem_cons, Prod.mk.injEq, List.not_mem_nil, or_false] at h
  rcases h with ⟨rfl, rfl⟩ | ⟨rfl, rfl⟩ | ⟨rfl, rfl⟩ | ⟨rfl, rfl⟩ | ⟨rfl, rfl⟩ | ⟨rfl, rfl⟩ |
    ⟨rfl, rfl⟩ | ⟨rfl, rfl⟩
  all_goals rfl

/-- What stands between quotes runs up to the closing one, and stands for its text. -/
theorem Contents.read {w s : List Char} (h : Contents false w s) :
    isQuotable '"' false w = true ∧ ∀ position, Escape.unescapeFrom position w = .ok s := by
  induction h with
  | nil => exact ⟨rfl, fun position => by simp [Escape.unescapeFrom]⟩
  | @plain c w s hc h ih =>
    refine ⟨by simpa [isQuotable, hc] using ih.1, fun position => ?_⟩
    rw [Escape.unescapeFrom_cons hc.2.2, ih.2]
    rfl
  | @short c x w s hc h ih =>
    refine ⟨by simpa [isQuotable] using ih.1, fun position => ?_⟩
    have hread := Escape.unescapeFrom_escape (read_short hc position w)
    rw [List.singleton_append] at hread
    rw [hread, ih.2]
    rfl
  | @unicode ds x w s hx h ih =>
    have hlength : ('u' :: ds).length = 5 := by
      obtain ⟨a, b, c, d, i, j, k, l, -, -, -, -, rfl, -⟩ := hx
      rfl
    refine ⟨?_, fun position => ?_⟩
    · rw [isQuotable, if_pos rfl, isQuotable, isQuotable_append (isQuotable_hex hx)]
      exact ih.1
    · have hread := hx.read position w
      rw [← hlength] at hread
      have hread := Escape.unescapeFrom_escape hread
      rw [List.cons_append] at hread
      rw [hread, ih.2]
      rfl
  | pair hpairs => cases hpairs

/-- A quoted text is one of the language, and stands for the same. -/
theorem IsString.isText {cs : List Char} {s : String} (h : IsString false cs s) : IsText cs s := by
  obtain ⟨w, hw, rfl⟩ := h
  obtain ⟨hquotable, hread⟩ := hw.read
  refine ⟨.string (.inr rfl) hquotable, ?_⟩
  have hunwrap : Grammar.unwrap 1 (String.ofList ('"' :: (w ++ ['"']))) = String.ofList w := by
    simp [Grammar.unwrap]
  rw [hunwrap, Escape.unescape, String.toList_ofList, hread, Except.map, String.ofList_toList]

/-! ## Values -/

/-- What denotes the items of slots is written by literals with these values. -/
theorem exists_slots {slots : List (Slot Value)}
    (hspaced : ∀ s ∈ slots, ∀ c ∈ s.before ++ s.after, isSpace c = true)
    (h : ∀ s ∈ slots, ∃ e, IsLiteral s.text e ∧ e.constant? = some s.item) :
    ∃ slots' : List (Slot Expr), slots.map Slot.chars = slots'.map Slot.chars ∧
      (∀ s ∈ slots', s.Spaced) ∧ (∀ s ∈ slots', IsLiteral s.text s.item) ∧
      Expr.constants? (slots'.map Slot.item) = some (slots.map Slot.item) := by
  induction slots with
  | nil => exact ⟨[], rfl, by simp, by simp, rfl⟩
  | cons s slots ih =>
    obtain ⟨⟨e, hliteral, hvalue⟩, hmore⟩ := List.forall_mem_cons.mp h
    obtain ⟨hspace, hspaces⟩ := List.forall_mem_cons.mp hspaced
    obtain ⟨slots', hchars, hspaced', hliterals, hvalues⟩ := ih hspaces hmore
    refine ⟨⟨s.before, s.text, s.after, e⟩ :: slots', ?_, List.forall_mem_cons.mpr ⟨?_, hspaced'⟩,
      List.forall_mem_cons.mpr ⟨hliteral, hliterals⟩, ?_⟩
    · rw [List.map_cons, List.map_cons, hchars]
      rfl
    · exact fun c hc => isBlank_of_isSpace (hspace c hc)
    · simp [Expr.constants?, hvalue, hvalues]

/-- What denotes the entries of fields is written by properties with these values. -/
theorem exists_fields {fields : List (Field Value)}
    (hspaced : ∀ f ∈ fields, (∀ c ∈ f.key.before ++ f.key.after, isSpace c = true) ∧
      ∀ c ∈ f.value.before ++ f.value.after, isSpace c = true)
    (hkeys : ∀ f ∈ fields, IsString false f.key.text f.key.item)
    (h : ∀ f ∈ fields, ∃ e, IsLiteral f.value.text e ∧ e.constant? = some f.value.item) :
    ∃ fields' : List (Field Expr), fields.map Field.chars = fields'.map Field.chars ∧
      (∀ f ∈ fields', f.Spaced) ∧ (∀ f ∈ fields', IsKey f.key.text f.key.item) ∧
      (∀ f ∈ fields', IsLiteral f.value.text f.value.item) ∧
      Member.constants? (fields'.map fun f => .property f.key.item f.value.item) =
        some (fields.map fun f => (f.key.item, f.value.item)) := by
  induction fields with
  | nil => exact ⟨[], rfl, by simp, by simp, by simp, rfl⟩
  | cons f fields ih =>
    obtain ⟨⟨e, hliteral, hvalue⟩, hmore⟩ := List.forall_mem_cons.mp h
    obtain ⟨⟨hkeyspace, hspace⟩, hspaces⟩ := List.forall_mem_cons.mp hspaced
    obtain ⟨hkey, hkeys⟩ := List.forall_mem_cons.mp hkeys
    obtain ⟨fields', hchars, hspaced', hkeys', hliterals, hvalues⟩ := ih hspaces hkeys hmore
    refine ⟨⟨f.key, f.value.before, f.value.text, f.value.after, e⟩ :: fields', ?_,
      List.forall_mem_cons.mpr ⟨⟨?_, ?_⟩, hspaced'⟩,
      List.forall_mem_cons.mpr ⟨.inr hkey.isText, hkeys'⟩,
      List.forall_mem_cons.mpr ⟨hliteral, hliterals⟩, ?_⟩
    · rw [List.map_cons, List.map_cons, hchars]
      rfl
    · exact fun c hc => isBlank_of_isSpace (hkeyspace c hc)
    · exact fun c hc => isBlank_of_isSpace (hspace c hc)
    · simp [Member.constants?, hvalue, hvalues]

/-- What denotes a value is a literal with this value. -/
theorem Denotes.exists_literal {cs : List Char} {w : Value} (h : Denotes false cs w) :
    ∃ e, IsLiteral cs e ∧ e.constant? = some w := by
  induction h with
  | null => exact ⟨_, .null, rfl⟩
  | boolean b => exact ⟨_, .boolean b, rfl⟩
  | number h hx =>
    obtain ⟨d, hread, hvalue⟩ := h.ofNumber
    rw [← hvalue] at hx
    refine ⟨_, .number h.isNumber, ?_⟩
    rw [Expr.constant?, hread, hx.unique (d.isNearest_toDouble false)]
    rfl
  | negative h hx =>
    obtain ⟨d, hread, hvalue⟩ := h.ofNumber
    rw [← hvalue] at hx
    refine ⟨_, .negative h.isNumber, ?_⟩
    rw [Expr.constant?, hread, hx.unique (d.isNearest_toDouble true), ← neg_toDouble]
    rfl
  | string h => exact ⟨_, .string h.isText, rfl⟩
  | array gap slots hgap hspaced h ih =>
    obtain ⟨slots', hchars, hspaced', hliterals, hvalues⟩ := exists_slots hspaced ih
    rw [hchars]
    refine ⟨_,
      .array gap slots' (fun c hc => isBlank_of_isSpace (hgap c hc)) hspaced' hliterals, ?_⟩
    rw [Expr.constant?, hvalues]
    rfl
  | object gap fields hgap hspaced hkeys hnodup h ih =>
    obtain ⟨fields', hchars, hspaced', hkeys', hliterals, hvalues⟩ := exists_fields hspaced hkeys ih
    rw [hchars]
    refine ⟨_, .object gap fields' (fun c hc => isBlank_of_isSpace (hgap c hc)) hspaced' hkeys'
      hliterals, ?_⟩
    rw [Expr.constant?, hvalues, Option.bind_some, if_pos]
    simpa [Object.keys, Function.comp_def] using hnodup

end LazyConfig.Json
