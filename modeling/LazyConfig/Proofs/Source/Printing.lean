-- Expressions as source text: the words of the tree with a blank between them, and parentheses only
-- where an operand would be taken for more or less than it is.
-- Main statement: the text of any tree that was read from a source is read as the same tree.
import LazyConfig.Proofs.Source.WellFormed
import LazyConfig.Proofs.Text.Escape

namespace LazyConfig

open Lexer

/-! ## Printing -/

/-- The level at which an expression stands without parentheses. A lambda takes all that follows it,
a binary operator is as its precedence, and only what is no operator takes arguments. -/
def Expr.level : Expr → Nat
  | .lambda _ _ _ => 0
  | .binary _ op _ _ => op.precedence
  | .unary _ _ _ => 7
  | _ => 8

/-- The tokens in parentheses, if these are needed. -/
def grouped (needed : Bool) (ts : List Token) : List Token :=
  if needed then .symbol "(" :: (ts ++ [.symbol ")"]) else ts

mutual

/-- The tokens that write an expression. An operand gets parentheses if it binds less tightly than
its place asks for: a left operand at least as its operator, a right one more tightly, and the
operand of a unary operator more tightly than any binary one. -/
def Expr.printed : Expr → List Token
  | .number _ text => [.of .number text]
  | .string _ text => [.of .string (Escape.quote text)]
  | .boolean _ value => [.of .identifier (if value then "true" else "false")]
  | .null _ => [.of .identifier "null"]
  | .blob _ form text => [.of (.blob form) (form.name ++ "'" ++ text ++ "'")]
  | .identifier _ name => [.of .identifier name]
  | .relative _ level name =>
    [.of .dots (String.ofList (List.replicate (level + 1) '.')), .of .identifier name]
  | .array _ elements => .symbol "[" :: (separated (Expr.printedAll elements) ++ [.symbol "]"])
  | .object _ members =>
    .symbol "\x7b" :: (separated (Member.printedAll members) ++ [.symbol "\x7d"])
  | .call _ callee args =>
    grouped (callee.level < 8) callee.printed ++
      .symbol "(" :: (separated (Expr.printedAll args) ++ [.symbol ")"])
  | .lambda _ params body =>
    .symbol "(" :: (separated (params.map fun name => [.of .identifier name]) ++
      .symbol ")" :: .symbol "=>" :: body.printed)
  | .binary _ op left right =>
    grouped (left.level < op.precedence) left.printed ++
      .symbol op.symbol :: grouped (right.level ≤ op.precedence) right.printed
  | .unary _ op operand => .symbol op.symbol :: grouped (operand.level < 7) operand.printed

/-- The tokens of each of the expressions. -/
def Expr.printedAll : List Expr → List (List Token)
  | [] => []
  | e :: es => e.printed :: Expr.printedAll es

/-- The tokens of each of the members. -/
def Member.printedAll : List Member → List (List Token)
  | [] => []
  | .property key value :: ms =>
    (.of .string (Escape.quote key) :: .symbol ":" :: value.printed) :: Member.printedAll ms
  | .spread value :: ms => value.printed :: Member.printedAll ms

end

/-- The text that writes an expression: its tokens with a blank between them. -/
def Expr.source (e : Expr) : String := " ".intercalate (e.printed.map (·.text))

/-! ## Quoted texts -/

theorem contents_quote (s : String) :
    Escape.unescape (Grammar.unwrap 1 (Escape.quote s)) = .ok s := by
  simp [Grammar.unwrap, Escape.quote, Escape.unescape, Escape.unescapeFrom_written, Except.map]

theorem isQuotable_writeChar (c : Char) : isQuotable '"' false (Escape.writeChar c) = true := by
  unfold Escape.writeChar
  split
  · rfl
  split
  · rfl
  split
  · rfl
  split
  · rfl
  split
  · rfl
  split
  · rfl
  split
  · next h =>
    have hsmall : c.toNat < 256 := by
      simp only [Escape.isControl, Bool.or_eq_true, Bool.and_eq_true, decide_eq_true_eq] at h
      omega
    have hdigit : ∀ d : Fin 16, Nat.digitChar d ≠ '\\' ∧ Nat.digitChar d ≠ '"' := by decide
    have hhigh := hdigit ⟨c.toNat / 16, by omega⟩
    have hlow := hdigit ⟨c.toNat % 16, by omega⟩
    rw [Escape.toList_fourDigits hsmall]
    simp [isQuotable, hhigh, hlow]
  · next h₁ h₂ _ _ _ _ _ => simp [isQuotable, h₁, h₂]

theorem isQuotable_written (cs : List Char) :
    isQuotable '"' false (cs.flatMap Escape.writeChar) = true := by
  induction cs with
  | nil => rfl
  | cons c cs ih => rw [List.flatMap_cons, isQuotable_append (isQuotable_writeChar c), ih]

theorem spells_quote (s : String) : Spells .string (Escape.quote s).toList := by
  rw [Escape.quote, String.toList_ofList]
  exact .string (.inr rfl) (isQuotable_written s.toList)

/-! ## What is printed writes the tree -/

theorem unwrap_printed (form : BlobForm) (text : String) :
    Grammar.unwrap 4 (form.name ++ "'" ++ text ++ "'") = text := by
  have h : (form.name ++ "'" ++ text ++ "'").toList =
      form.name.toList ++ '\'' :: (text.toList ++ ['\'']) := by simp
  rw [unwrap_blob h, String.ofList_toList]

theorem Writes.level_le {level : Nat} {ts : List Token} {e : Expr} (h : Writes level ts e) :
    level ≤ 8 := by
  cases h with
  | binary op => exact op.precedence_le.2.trans (by decide)
  | _ => decide

/-- Parentheses raise the tokens to every level that is asked for. -/
theorem Writes.grouped {level : Nat} {ts : List Token} {e : Expr} (h : Writes level ts e)
    (least : Nat) (hleast : least ≤ 8) (hlevel : level < least → level < 7) :
    ∃ level', least ≤ level' ∧ Writes level' (LazyConfig.grouped (level < least) ts) e := by
  by_cases hneeded : level < least
  · refine ⟨8, hleast, ?_⟩
    rw [LazyConfig.grouped, if_pos (by simpa using hneeded)]
    exact .group (hlevel hneeded) h
  · refine ⟨level, by omega, ?_⟩
    rw [LazyConfig.grouped, if_neg (by simpa using hneeded)]
    exact h

theorem Expr.level_of_callable {e : Expr} (h : e.isCallable = true) (hlevel : e.level < 8) :
    e.level < 7 := by
  cases e <;> simp_all [isCallable, level]

theorem Expr.printedAll_eq (es : List Expr) : Expr.printedAll es = es.map Expr.printed := by
  induction es with
  | nil => rfl
  | cons e es ih => rw [Expr.printedAll, ih, List.map_cons]

theorem Grammar.word_of_isFreeName {name : String} (h : IsFreeName name) :
    Grammar.word (.of .identifier name) = .identifier default name := by
  obtain ⟨-, h₁, h₂, h₃⟩ := h
  simp [Grammar.word, h₁, h₂, h₃]
  rfl

/-- A call of a name starts with the name and a parenthesis. -/
theorem Expr.printed_of_isNamedCall {e : Expr} (h : e.isNamedCall = true) :
    ∃ name more, e.printed = .of .identifier name :: .symbol "(" :: more := by
  fun_induction Expr.isNamedCall e with
  | case1 span s name args => exact ⟨name, _, rfl⟩
  | case2 span callee args hcallee ih =>
    obtain ⟨name, more, hmore⟩ := ih h
    have hlevel : callee.level = 8 := by
      cases callee <;> simp_all [isNamedCall, level]
    exact ⟨name, _, by simp [Expr.printed, hlevel, LazyConfig.grouped, hmore]; rfl⟩
  | case3 => cases h

theorem Expr.level_of_isNamedCall {e : Expr} (h : e.isNamedCall = true) : e.level = 8 := by
  cases e <;> simp_all [isNamedCall, level]

/-- The expression as a piece of a list. -/
def Expr.piece (e : Expr) : Piece := ⟨e.level, e.printed, e.bare⟩

/-- The member as a piece of an object. -/
def Member.piece : Member → MemberPiece
  | .property key value => ⟨value.piece, some (.of .string (Escape.quote key), key)⟩
  | .spread value => ⟨value.piece, none⟩

theorem Member.printedAll_eq (ms : List Member) :
    Member.printedAll ms = (ms.map Member.piece).map (·.all) := by
  induction ms with
  | nil => rfl
  | cons m ms ih => cases m <;> simp [Member.printedAll, ih, piece, MemberPiece.all, Expr.piece]

theorem Member.bareAll_eq_map (ms : List Member) :
    Member.bareAll ms = (ms.map Member.piece).map (·.member) := by
  induction ms with
  | nil => rfl
  | cons m ms ih => cases m <;> simp [Member.bareAll, ih, piece, MemberPiece.member, Expr.piece]

mutual

/-- What is printed for a tree that can be written writes the tree, places aside. -/
theorem Expr.writes_printed : (e : Expr) → e.WellFormed → Writes e.level e.printed e.bare
  | .number _ text, _ => .number text
  | .string _ text, _ => .string (contents_quote text)
  | .boolean _ true, _ => .word "true"
  | .boolean _ false, _ => .word "false"
  | .null _, _ => .word "null"
  | .blob _ form text, _ => by
    have h := Writes.blob form (form.name ++ "'" ++ text ++ "'")
    rw [unwrap_printed] at h
    exact h
  | .identifier _ name, h => by
    have hword := Writes.word name
    rw [Grammar.word_of_isFreeName h] at hword
    exact hword
  | .relative _ level name, _ => by
    have h := Writes.relative (String.ofList (List.replicate (level + 1) '.')) name
    rw [String.length_ofList, List.length_replicate, Nat.add_sub_cancel] at h
    exact h
  | .array _ elements, h => by
    have harray := Writes.array (elements.map Expr.piece)
      (by simpa using Expr.writes_pieces elements h)
    simpa [Expr.level, Expr.printed, Expr.bare, Expr.printedAll_eq, Expr.bareAll_eq_map,
      Expr.piece, Function.comp_def] using harray
  | .object _ members, h => by
    obtain ⟨hproper, hwrites⟩ := Member.writes_pieces members h
    have hobject := Writes.object (members.map Member.piece) (by simpa using hproper)
      (by simpa using hwrites)
    simpa only [Expr.level, Expr.printed, Expr.bare, Member.printedAll_eq, Member.bareAll_eq_map]
      using hobject
  | .call _ callee args, h => by
    obtain ⟨hcallable, hcallee, hargs⟩ := h
    obtain ⟨level, hlevel, hwrites⟩ := (Expr.writes_printed callee hcallee).grouped 8 (by omega)
      (Expr.level_of_callable hcallable)
    obtain rfl : level = 8 := by
      have := hwrites.level_le
      omega
    have hcall :=
      Writes.call (args.map Expr.piece) (by rw [Expr.isCallable_bare, hcallable]) hwrites
      (by simpa using Expr.writes_pieces args hargs)
    simpa [Expr.level, Expr.printed, Expr.bare, Expr.printedAll_eq, Expr.bareAll_eq_map,
      Expr.piece, Function.comp_def] using hcall
  | .lambda _ params body, h => .lambda params (Expr.writes_printed body h.2)
  | .binary _ op left right, h => by
    have hop := op.precedence_le
    obtain ⟨l, hl, hleft⟩ := (Expr.writes_printed left h.1).grouped op.precedence
      (by omega) (by omega)
    obtain ⟨r, hr, hright⟩ := (Expr.writes_printed right h.2).grouped (op.precedence + 1)
      (by omega) (by omega)
    simp only [Nat.lt_succ_iff] at hright
    exact .binary op hl hr hleft hright
  | .unary _ op operand, h => by
    obtain ⟨l, hl, hoperand⟩ := (Expr.writes_printed operand h).grouped 7 (by omega) id
    exact .unary op hl hoperand

theorem Expr.writes_pieces : (es : List Expr) → Expr.AllWellFormed es →
    ∀ e ∈ es, Writes e.piece.level e.piece.tokens e.piece.expr
  | [], _ => by simp
  | e :: es, h => by
    have he := Expr.writes_printed e h.1
    have hes := Expr.writes_pieces es h.2
    exact List.forall_mem_cons.mpr ⟨he, hes⟩

theorem Member.writes_pieces : (ms : List Member) → Member.AllWellFormed ms →
    (∀ m ∈ ms, m.piece.Proper) ∧
      ∀ m ∈ ms, Writes m.piece.level m.piece.tokens m.piece.expr
  | [], _ => by simp
  | .property key value :: ms, h => by
    have hvalue := Expr.writes_printed value h.1
    obtain ⟨hproper, hms⟩ := Member.writes_pieces ms h.2
    have hkey : (Member.property key value).piece.Proper := .inr ⟨rfl, contents_quote key⟩
    exact ⟨List.forall_mem_cons.mpr ⟨hkey, hproper⟩, List.forall_mem_cons.mpr ⟨hvalue, hms⟩⟩
  | .spread value :: ms, h => by
    have hvalue := Expr.writes_printed value h.2.1
    obtain ⟨hproper, hms⟩ := Member.writes_pieces ms h.2.2
    have hspread : (Member.spread value).piece.Proper :=
      ⟨Expr.level_of_isNamedCall h.1, Expr.printed_of_isNamedCall h.1⟩
    exact ⟨List.forall_mem_cons.mpr ⟨hspread, hproper⟩, List.forall_mem_cons.mpr ⟨hvalue, hms⟩⟩

end

/-! ## What is printed is made of words -/

/-- A token at no place that is a word of its kind. -/
def IsPrintable (t : Token) : Prop := Spells t.kind t.text.toList ∧ t.bare = t

theorem layout_blank {c : Char} {cs : List Char} {ts : List Token} (hc : isBlank c = true)
    (h : Layout cs ts) : Layout (c :: cs) ts := by
  cases h with
  | blank h => exact .blank (List.forall_mem_cons.mpr ⟨hc, h⟩)
  | word hgap hw hstop h => exact .word (List.forall_mem_cons.mpr ⟨hc, hgap⟩) hw hstop h

/-- A word in front of a text of words. -/
theorem layout_cons {t : Token} (ht : IsPrintable t) {rest : List Char} {ts : List Token}
    (hstop : Stops t.kind rest) (h : Layout rest ts) :
    Layout (t.text.toList ++ rest) (t :: ts) := by
  have hword := Layout.word (List.forall_mem_nil _) ht.1 hstop h
  rw [String.ofList_toList] at hword
  rw [← ht.2]
  exact hword

/-- Words with a blank between them. -/
theorem layout_intercalate {ts : List Token} (h : ∀ t ∈ ts, IsPrintable t) :
    Layout (" ".intercalate (ts.map (·.text))).toList ts := by
  induction ts with
  | nil => exact .blank (by simp)
  | cons t ts ih =>
    have ht := h t (by simp)
    have hmore := ih fun t ht => h t (by simp [ht])
    cases ts with
    | nil =>
      have hend : Delimited [] := avoids_nil _
      have hword := layout_cons ht (hend.stops _) hmore
      simpa using hword
    | cons u ts =>
      have hblank := delimited_of_isBlank (c := ' ') (by decide)
      have hword := layout_cons ht ((hblank _).stops _) (layout_blank (by decide) hmore)
      simpa [String.intercalate_cons_cons] using hword

theorem isPrintable_symbol {s : String} (h : s.toList ∈ symbols) : IsPrintable (.symbol s) :=
  ⟨.punct h, rfl⟩

theorem isPrintable_name {s : String} (h : isName s = true) :
    IsPrintable (.of .identifier s) := by
  refine ⟨?_, rfl⟩
  unfold isName at h
  rw [Token.kind_of, Token.text_of]
  split at h
  · cases h
  · next c cs hs =>
    rw [Bool.and_eq_true, List.all_eq_true] at h
    rw [hs]
    exact .identifier h.1 h.2

theorem isPrintable_quote (s : String) : IsPrintable (.of .string (Escape.quote s)) :=
  ⟨spells_quote s, rfl⟩

theorem isPrintable_separated {all : List (List Token)}
    (h : ∀ ts ∈ all, ∀ t ∈ ts, IsPrintable t) : ∀ t ∈ separated all, IsPrintable t := by
  induction all with
  | nil => simp [separated]
  | cons ts all ih =>
    have hts := h ts (by simp)
    have hmore := ih fun us hus => h us (by simp [hus])
    cases all with
    | nil => exact hts
    | cons us all =>
      rw [separated]
      · exact List.forall_mem_append.mpr ⟨hts, List.forall_mem_cons.mpr
          ⟨isPrintable_symbol (by decide), hmore⟩⟩
      · simp

theorem isPrintable_brackets {opening closing : String} (hopening : opening.toList ∈ symbols)
    (hclosing : closing.toList ∈ symbols) {ts : List Token} (h : ∀ t ∈ ts, IsPrintable t) :
    ∀ t ∈ .symbol opening :: (ts ++ [.symbol closing]), IsPrintable t :=
  List.forall_mem_cons.mpr ⟨isPrintable_symbol hopening, List.forall_mem_append.mpr
    ⟨h, List.forall_mem_singleton.mpr (isPrintable_symbol hclosing)⟩⟩

theorem isPrintable_grouped (needed : Bool) {ts : List Token} (h : ∀ t ∈ ts, IsPrintable t) :
    ∀ t ∈ grouped needed ts, IsPrintable t := by
  unfold grouped
  split
  · exact isPrintable_brackets (by decide) (by decide) h
  · exact h

mutual

theorem Expr.isPrintable_printed : (e : Expr) → e.WellFormed → ∀ t ∈ e.printed, IsPrintable t
  | .number _ text, h => by simpa [Expr.printed] using ⟨.number h, rfl⟩
  | .string _ text, _ => by simpa [Expr.printed] using isPrintable_quote text
  | .boolean _ value, _ => by
    cases value <;> simpa [Expr.printed] using isPrintable_name (by decide)
  | .null _, _ => by simpa [Expr.printed] using isPrintable_name (by decide)
  | .blob _ form text, h => by
    have hspells := Spells.blob form h
    refine List.forall_mem_singleton.mpr ⟨?_, rfl⟩
    simpa using hspells
  | .identifier _ name, h => by simpa [Expr.printed] using isPrintable_name h.1
  | .relative _ level name, h => by
    refine List.forall_mem_cons.mpr ⟨⟨?_, rfl⟩, List.forall_mem_singleton.mpr (isPrintable_name h)⟩
    simpa using Spells.dots level
  | .array _ elements, h =>
    isPrintable_brackets (by decide) (by decide)
      (isPrintable_separated (Expr.isPrintable_printedAll elements h))
  | .object _ members, h =>
    isPrintable_brackets (by decide) (by decide)
      (isPrintable_separated (Member.isPrintable_printedAll members h))
  | .call _ callee args, h => by
    have hcallee := Expr.isPrintable_printed callee h.2.1
    have hargs := isPrintable_separated (Expr.isPrintable_printedAll args h.2.2)
    exact List.forall_mem_append.mpr ⟨isPrintable_grouped _ hcallee,
      isPrintable_brackets (by decide) (by decide) hargs⟩
  | .lambda _ params body, h => by
    have hparams : ∀ t ∈ separated (params.map fun name => [Token.of .identifier name]),
        IsPrintable t := by
      refine isPrintable_separated fun ts hts => ?_
      obtain ⟨name, hname, rfl⟩ := List.mem_map.mp hts
      exact List.forall_mem_singleton.mpr (isPrintable_name (h.1 name hname))
    have hbody := Expr.isPrintable_printed body h.2
    refine List.forall_mem_cons.mpr ⟨isPrintable_symbol (by decide),
      List.forall_mem_append.mpr ⟨hparams, ?_⟩⟩
    exact List.forall_mem_cons.mpr ⟨isPrintable_symbol (by decide),
      List.forall_mem_cons.mpr ⟨isPrintable_symbol (by decide), hbody⟩⟩
  | .binary _ op left right, h => by
    have hleft := Expr.isPrintable_printed left h.1
    have hright := Expr.isPrintable_printed right h.2
    have hop : IsPrintable (.symbol op.symbol) := isPrintable_symbol (by cases op <;> decide)
    exact List.forall_mem_append.mpr ⟨isPrintable_grouped _ hleft,
      List.forall_mem_cons.mpr ⟨hop, isPrintable_grouped _ hright⟩⟩
  | .unary _ op operand, h => by
    have hop : IsPrintable (.symbol op.symbol) := isPrintable_symbol (by cases op <;> decide)
    exact List.forall_mem_cons.mpr
      ⟨hop, isPrintable_grouped _ (Expr.isPrintable_printed operand h)⟩

theorem Expr.isPrintable_printedAll : (es : List Expr) → Expr.AllWellFormed es →
    ∀ ts ∈ Expr.printedAll es, ∀ t ∈ ts, IsPrintable t
  | [], _ => by simp [Expr.printedAll]
  | e :: es, h =>
    List.forall_mem_cons.mpr ⟨Expr.isPrintable_printed e h.1, Expr.isPrintable_printedAll es h.2⟩

theorem Member.isPrintable_printedAll : (ms : List Member) → Member.AllWellFormed ms →
    ∀ ts ∈ Member.printedAll ms, ∀ t ∈ ts, IsPrintable t
  | [], _ => by simp [Member.printedAll]
  | .property key value :: ms, h => by
    have hvalue := Expr.isPrintable_printed value h.1
    exact List.forall_mem_cons.mpr ⟨List.forall_mem_cons.mpr ⟨isPrintable_quote key,
      List.forall_mem_cons.mpr ⟨isPrintable_symbol (by decide), hvalue⟩⟩,
      Member.isPrintable_printedAll ms h.2⟩
  | .spread value :: ms, h =>
    List.forall_mem_cons.mpr
      ⟨Expr.isPrintable_printed value h.2.1, Member.isPrintable_printedAll ms h.2.2⟩

end

/-! ## Reading back -/

/-- The text of a tree that was read from a source is read as the same tree, places aside, whenever
as many levels are allowed as it has tokens. -/
theorem parse_source {limit deep : Nat} {bytes : Bytes} {e : Expr}
    (h : parse limit bytes = .ok e) (hdeep : e.printed.length ≤ deep) :
    ∃ e', parse deep (Utf8.encode e.source) = .ok e' ∧ e'.bare = e.bare := by
  have hwf := wellFormed_of_parse h
  have hlayout := layout_intercalate (Expr.isPrintable_printed e hwf)
  obtain ⟨e', hparse, he⟩ := parse_layout hlayout (Expr.writes_printed e hwf) hdeep
  exact ⟨e', hparse, by rw [he, Expr.bare_bare]⟩

/-- A sum keeps its parentheses as a factor, and a lambda as what is called. -/
theorem parse_source_of_product :
    ∃ e, parse 5 (Utf8.encode "(a+1)*((x)=>-x)(2)") = .ok e ∧
      e.source = "( a + 1 ) * ( ( x ) => - x ) ( 2 )" ∧
      ∃ e', parse 17 (Utf8.encode e.source) = .ok e' ∧ e'.bare = e.bare := by
  have h : parse 5 (Utf8.encode "(a+1)*((x)=>-x)(2)") =
      .ok (.binary ⟨1, 18⟩ .mul
        (.binary ⟨1, 4⟩ .add (.identifier ⟨1, 2⟩ "a") (.number ⟨3, 4⟩ "1"))
        (.call ⟨7, 18⟩
          (.lambda ⟨7, 14⟩ ["x"] (.unary ⟨12, 14⟩ .neg (.identifier ⟨13, 14⟩ "x")))
          [.number ⟨16, 17⟩ "2"])) := by decide +kernel
  exact ⟨_, h, by decide, parse_source h (by decide)⟩

end LazyConfig
