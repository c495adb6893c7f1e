-- How trees are written as tokens. The relation has one rule for each way to write an expression,
-- with the level at which the tokens can stand: 0 is a lambda, which takes all that follows, 1 to 6
-- are binary operators by how tightly they bind, 7 is a unary operator, and 8 takes arguments.
-- Main statement: what needs a group around it is no head of a lambda.
import LazyConfig.Proofs.Source.Bare

namespace LazyConfig

/-! ## Tokens of a list -/

/-- The symbol as a token at no place. -/
def Token.symbol (s : String) : Token := .of .punct s

/-- Lists of tokens with commas between them. -/
def separated : List (List Token) → List Token
  | [] => []
  | [ts] => ts
  | ts :: more => ts ++ .symbol "," :: separated more

/-- An item of an array or an argument: its tokens, which stand at a level, and what they write. -/
structure Piece where
  level : Nat
  tokens : List Token
  expr : Expr

/-- The token of a key writes the key: a name as it is, a text in quotes with its escapes. -/
def WritesKey (t : Token) (key : String) : Prop :=
  (t.kind = .identifier ∧ t.text = key) ∨
    (t.kind = .string ∧ Escape.unescape (Grammar.unwrap 1 t.text) = .ok key)

/-- A member of an object: a piece, after the token of a key unless it is spread. -/
structure MemberPiece extends Piece where
  key? : Option (Token × String)

namespace MemberPiece

/-- All tokens of the member. -/
def all (m : MemberPiece) : List Token :=
  match m.key? with
  | some (t, _) => t :: .symbol ":" :: m.tokens
  | none => m.tokens

/-- The member that the tokens write. -/
def member (m : MemberPiece) : Member :=
  match m.key? with
  | some (_, key) => .property key m.expr
  | none => .spread m.expr

/-- The key is written by its token. What is spread starts with a name and a parenthesis. -/
def Proper (m : MemberPiece) : Prop :=
  match m.key? with
  | some (t, key) => WritesKey t key
  | none => m.level = 8 ∧ ∃ name more,
      m.tokens = .of .identifier name :: .symbol "(" :: more

end MemberPiece

/-! ## Writing an expression -/

/-- The tokens write the expression, and stand at the level. -/
inductive Writes : (level : Nat) → List Token → Expr → Prop
  | number (text : String) : Writes 8 [.of .number text] (.number default text)
  | string {text s : String} (h : Escape.unescape (Grammar.unwrap 1 text) = .ok s) :
      Writes 8 [.of .string text] (.string default s)
  | blob (form : BlobForm) (text : String) :
      Writes 8 [.of (.blob form) text] (.blob default form (Grammar.unwrap 4 text))
  | word (text : String) :
      Writes 8 [.of .identifier text] (Grammar.word (.of .identifier text))
  | relative (dots name : String) :
      Writes 8 [.of .dots dots, .of .identifier name] (.relative default (dots.length - 1) name)
  | group {level : Nat} {ts : List Token} {e : Expr} (hlevel : level < 7) (h : Writes level ts e) :
      Writes 8 (.symbol "(" :: (ts ++ [.symbol ")"])) e
  | array (ps : List Piece) (h : ∀ p ∈ ps, Writes p.level p.tokens p.expr) :
      Writes 8 (.symbol "[" :: (separated (ps.map (·.tokens)) ++ [.symbol "]"]))
        (.array default (ps.map (·.expr)))
  | object (ms : List MemberPiece) (hp : ∀ m ∈ ms, m.Proper)
      (h : ∀ m ∈ ms, Writes m.level m.tokens m.expr) :
      Writes 8 (.symbol "\x7b" :: (separated (ms.map (·.all)) ++ [.symbol "\x7d"]))
        (.object default (ms.map (·.member)))
  | call {ts : List Token} {e : Expr} (ps : List Piece) (hcallable : e.isCallable = true)
      (he : Writes 8 ts e) (h : ∀ p ∈ ps, Writes p.level p.tokens p.expr) :
      Writes 8 (ts ++ .symbol "(" :: (separated (ps.map (·.tokens)) ++ [.symbol ")"]))
        (.call default e (ps.map (·.expr)))
  | lambda {level : Nat} (names : List String) {ts : List Token} {e : Expr}
      (h : Writes level ts e) :
      Writes 0 (.symbol "(" :: (separated (names.map fun name => [.of .identifier name]) ++
        .symbol ")" :: .symbol "=>" :: ts)) (.lambda default names e)
  | binary {level level' : Nat} (op : BinaryOp) {ts ts' : List Token} {e e' : Expr}
      (hleft : op.precedence ≤ level) (hright : op.precedence < level')
      (h : Writes level ts e) (h' : Writes level' ts' e') :
      Writes op.precedence (ts ++ .symbol op.symbol :: ts') (.binary default op e e')
  | unary {level : Nat} (op : UnaryOp) {ts : List Token} {e : Expr} (hlevel : 7 ≤ level)
      (h : Writes level ts e) : Writes 7 (.symbol op.symbol :: ts) (.unary default op e)

/-! ## How written tokens start -/

@[simp] theorem Token.kind_of (kind : TokenKind) (text : String) :
    (Token.of kind text).kind = kind :=
  rfl

@[simp] theorem Token.text_of (kind : TokenKind) (text : String) :
    (Token.of kind text).text = text :=
  rfl

@[simp] theorem Token.kind_symbol (s : String) : (Token.symbol s).kind = .punct := rfl

@[simp] theorem Token.text_symbol (s : String) : (Token.symbol s).text = s := rfl

@[simp] theorem Token.isSymbol_symbol (s s' : String) :
    (Token.symbol s).isSymbol s' = decide (s = s') := by
  rfl

@[simp] theorem Token.isSymbol_of_ne {kind : TokenKind} (h : kind ≠ .punct) (text s : String) :
    (Token.of kind text).isSymbol s = false := by
  simp [Token.isSymbol, h]

theorem BinaryOp.precedence_le (op : BinaryOp) : 1 ≤ op.precedence ∧ op.precedence ≤ 6 := by
  cases op <;> decide

theorem BinaryOp.symbol_ne (op : BinaryOp) :
    op.symbol ≠ "(" ∧ op.symbol ≠ ")" ∧ op.symbol ≠ "," := by
  cases op <;> decide

/-- Tokens that write an expression do not start with what closes a list. -/
theorem Writes.exists_cons {level : Nat} {ts : List Token} {e : Expr} (h : Writes level ts e) :
    ∃ t more, ts = t :: more ∧
      (t.isSymbol ")" = false ∧ t.isSymbol "]" = false ∧ t.isSymbol "\x7d" = false) ∧
      (level = 8 → Grammar.unaryOp? t = none) := by
  induction h with
  | number | string | blob | word | relative =>
    exact ⟨_, _, rfl, by simp, fun _ => rfl⟩
  | group | array | object | lambda => exact ⟨_, _, rfl, by simp, fun _ => rfl⟩
  | call ps hcallable he h ih =>
    obtain ⟨t, more, rfl, ht⟩ := ih
    exact ⟨t, _, rfl, ht⟩
  | binary op hleft hright h h' ih ih' =>
    obtain ⟨t, more, rfl, ht, -⟩ := ih
    refine ⟨t, _, rfl, ht, fun h8 => ?_⟩
    cases op <;> cases h8
  | unary op hlevel h ih =>
    refine ⟨_, _, rfl, ?_, fun h8 => by cases h8⟩
    cases op <;> simp [UnaryOp.symbol]

/-- Tokens that write an expression are no names of a lambda, unless they are a single name. -/
theorem Writes.parameters_eq_none {level : Nat} {ts : List Token} {e : Expr}
    (h : Writes level ts e) :
    (level = 8 ∧ ∃ name, ts = [.of .identifier name]) ∨
      ∀ rest, Grammar.parameters (ts ++ rest) = none := by
  have hsymbol : ∀ (s : String) (more rest : List Token), s ≠ ")" →
      Grammar.parameters (.symbol s :: more ++ rest) = none := by
    intro s more rest hs
    rw [Grammar.parameters.eq_def]
    simp [hs]
  have hkind : ∀ (kind : TokenKind) (text : String) (more rest : List Token),
      kind ≠ .punct → kind ≠ .identifier →
      Grammar.parameters (.of kind text :: more ++ rest) = none := by
    intro kind text more rest hp hi
    rw [Grammar.parameters.eq_def]
    simp [hp, hi]
  have hname : ∀ (name s : String) (rest : List Token), s ≠ "," → s ≠ ")" →
      Grammar.parameters (.of .identifier name :: .symbol s :: rest) = none := by
    intro name s rest hcomma hclose
    rw [Grammar.parameters.eq_def]
    simp [hcomma, hclose]
  induction h with
  | number text => exact .inr fun rest => hkind _ _ [] rest (by simp) (by simp)
  | string h => exact .inr fun rest => hkind _ _ [] rest (by simp) (by simp)
  | blob form text => exact .inr fun rest => hkind _ _ [] rest (by simp) (by simp)
  | word text => exact .inl ⟨rfl, text, rfl⟩
  | relative dots name => exact .inr fun rest => hkind _ _ [_] rest (by simp) (by simp)
  | group | array | object | lambda => exact .inr fun rest => hsymbol _ _ rest (by decide)
  | call ps hcallable he h ih =>
    refine .inr fun rest => ?_
    rcases ih with ⟨-, name, rfl⟩ | ih
    · exact hname name "(" _ (by decide) (by decide)
    · rw [List.append_assoc]
      exact ih _
  | binary op hleft hright h h' ih ih' =>
    refine .inr fun rest => ?_
    rcases ih with ⟨-, name, rfl⟩ | ih
    · exact hname name op.symbol _ op.symbol_ne.2.2 op.symbol_ne.2.1
    · rw [List.append_assoc]
      exact ih _
  | unary op hlevel h ih => exact .inr fun rest => hsymbol _ _ rest (by cases op <;> decide)

/-- What needs a group is no head of a lambda. -/
theorem Writes.lambdaHead_eq_none {level : Nat} {ts : List Token} {e : Expr}
    (h : Writes level ts e) (hlevel : level < 7) (rest : List Token) :
    Grammar.lambdaHead (ts ++ rest) = none := by
  rcases h.parameters_eq_none with ⟨rfl, -⟩ | hnone
  · omega
  · simp [Grammar.lambdaHead, hnone]

end LazyConfig
