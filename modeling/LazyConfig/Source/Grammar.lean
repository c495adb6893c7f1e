-- Reading tokens as an expression. Binary operators are read by climbing: an operand, and
-- then operators that bind tightly enough, each with a right side that binds more tightly.
-- Brackets, arguments and the operands of unary operators nest one level deeper, and the
-- levels are limited: the grammar of a level is built from the grammar of the level inside.
-- Main statement: a parser that succeeds leaves fewer tokens than it was given, so reading
-- ends for every list of tokens.
import LazyConfig.Source.Expr
import LazyConfig.Source.Fault
import LazyConfig.Source.Lexer

namespace LazyConfig

/-! ## Parsers -/

/-- What was read, and the tokens left, which are fewer than `bound`. -/
structure Parsed (α : Type) (bound : Nat) where
  value : α
  rest : List Token
  shorter : rest.length < bound

/-- Reads from the front of a list of tokens, and takes at least one of them. -/
abbrev Parser (α : Type) := (ts : List Token) → Except Fault (Parsed α ts.length)

namespace Grammar

/-- The next token. A list that has run out is at the end of the text. -/
def peek (ts : List Token) : Token := ts.headD (.endAt 0)

/-- The fault of a token that does not fit. -/
def unexpected (expected : Expected) (ts : List Token) : Fault :=
  let t := peek ts
  ⟨.unexpectedToken expected (if t.kind = .eof then none else some t.text), t.span⟩

/-- Reads one symbol and gives its span. -/
def symbol (s : String) : Parser Span
  | [] => .error (unexpected (.symbol s) [])
  | t :: rest =>
    if t.isSymbol s then .ok ⟨t.span, rest, Nat.lt_succ_self _⟩
    else .error (unexpected (.symbol s) (t :: rest))

/-- Reads items with commas between them, up to a closing symbol, which is left. A comma may
follow the last item. -/
def delimited {α : Type} (close : String) (item : Parser α) (ts : List Token) :
    Except Fault (Parsed (List α) (ts.length + 1)) :=
  if (peek ts).isSymbol close then .ok ⟨[], ts, Nat.lt_succ_self _⟩
  else
    match item ts with
    | .error e => .error e
    | .ok ⟨first, [], _⟩ => .ok ⟨[first], [], Nat.succ_pos _⟩
    | .ok ⟨first, t :: rest, h⟩ =>
      if t.isSymbol "," then
        match delimited close item rest with
        | .error e => .error e
        | .ok ⟨others, left, h'⟩ =>
          .ok ⟨first :: others, left, by simp only [List.length_cons] at h; omega⟩
      else .ok ⟨[first], t :: rest, Nat.lt_succ_of_lt h⟩
  termination_by ts.length
  decreasing_by simp only [List.length_cons] at h; omega

/-! ## Literals -/

/-- A text without its first `n` characters and its last one. -/
def unwrap (n : Nat) (s : String) : String := String.ofList ((s.toList.drop n).dropLast)

/-- What a string token stands for. -/
def contents (t : Token) : Except Fault String :=
  match Escape.unescape (unwrap 1 t.text) with
  | .ok s => .ok s
  | .error e => .error ⟨.invalidString e, t.span⟩

/-- The literal or the name that a word is. -/
def word (t : Token) : Expr :=
  if t.text = "true" then .boolean t.span true
  else if t.text = "false" then .boolean t.span false
  else if t.text = "null" then .null t.span
  else .identifier t.span t.text

/-- Reads the name after dots. Each dot after the first is one scope further out. -/
def relative (dots : Token) (ts : List Token) :
    Except Fault (Parsed Expr (ts.length + 1)) :=
  match ts with
  | [] => .error (unexpected .nameAfterDots [])
  | t :: rest =>
    if t.kind = .identifier then
      .ok ⟨.relative (dots.span.through t.span) (dots.text.length - 1) t.text, rest, by
        simp only [List.length_cons]; omega⟩
    else .error (unexpected .nameAfterDots (t :: rest))

/-! ## Lambda parameters -/

/-- Names with commas between them and perhaps after the last, and the parenthesis that closes
them. -/
def parameters : List Token → Option (List String × List Token)
  | [] => none
  | t :: rest =>
    if t.isSymbol ")" then some ([], rest)
    else if t.kind = .identifier then
      match rest with
      | [] => none
      | u :: after =>
        if u.isSymbol "," then (parameters after).map fun (names, left) => (t.text :: names, left)
        else if u.isSymbol ")" then some ([t.text], after)
        else none
    else none

/-- The parameters of a lambda with its arrow, after the opening parenthesis. -/
def lambdaHead (ts : List Token) : Option (List String × List Token) :=
  match parameters ts with
  | some (names, t :: rest) => if t.isSymbol "=>" then some (names, rest) else none
  | _ => none

theorem parameters_shorter {ts left : List Token} {names : List String}
    (h : parameters ts = some (names, left)) : left.length < ts.length := by
  fun_induction parameters ts generalizing names with
  | case1 => cases h
  | case2 => simp only [Option.some.injEq, Prod.mk.injEq] at h; simp [← h.2]
  | case3 => cases h
  | case4 t _ _ u after _ ih =>
    obtain ⟨⟨ns, l⟩, hp, hn⟩ := Option.map_eq_some_iff.1 h
    simp only [Prod.mk.injEq] at hn
    have := ih (hn.2 ▸ hp)
    simp only [List.length_cons]
    omega
  | case5 =>
    simp only [Option.some.injEq, Prod.mk.injEq] at h; simp only [List.length_cons, ← h.2]; omega
  | case6 => cases h
  | case7 => cases h

theorem lambdaHead_shorter {ts left : List Token} {names : List String}
    (h : lambdaHead ts = some (names, left)) : left.length < ts.length := by
  unfold lambdaHead at h
  split at h
  · next hp =>
    split at h
    · have := parameters_shorter hp
      simp only [Option.some.injEq, Prod.mk.injEq] at h
      simp only [List.length_cons] at this
      rw [← h.2]
      omega
    · cases h
  · cases h

end Grammar

/-! ## One level of nesting -/

/-- What can be read at one level of nesting. -/
structure Grammar where
  /-- A whole expression. -/
  expression : Parser Expr
  /-- An expression without binary operators. -/
  unary : Parser Expr
  /-- An expression without operators: a primary one with its calls. -/
  chain : Parser Expr

namespace Grammar

/-- The grammar of the level inside, for the tokens it is to read, or the fault that there is no
such level. -/
abbrev Inside := List Token → Except Fault Grammar

/-- A parenthesised expression or a lambda, after the opening parenthesis `t`. -/
def group (inner : Grammar) (t : Token) (ts : List Token) :
    Except Fault (Parsed Expr (ts.length + 1)) :=
  match h : lambdaHead ts with
  | some (params, after) => do
    let ⟨body, rest, shorter⟩ ← inner.expression after
    .ok ⟨.lambda (t.span.through body.span) params body, rest, by
      have := lambdaHead_shorter h
      omega⟩
  | none => do
    let ⟨value, rest, shorter⟩ ← inner.expression ts
    let ⟨_, rest, shorter'⟩ ← symbol ")" rest
    .ok ⟨value, rest, by omega⟩

/-- The elements of an array, after the opening bracket `t`. -/
def array (inner : Grammar) (t : Token) (ts : List Token) :
    Except Fault (Parsed Expr (ts.length + 1)) := do
  let ⟨elements, rest, shorter⟩ ← delimited "]" inner.expression ts
  let ⟨close, rest, shorter'⟩ ← symbol "]" rest
  .ok ⟨.array (t.span.through close) elements, rest, by omega⟩

/-- The value of a property, after its key. -/
def property (inner : Grammar) (key : String) (ts : List Token) :
    Except Fault (Parsed Member (ts.length + 1)) := do
  let ⟨_, rest, shorter⟩ ← symbol ":" ts
  let ⟨value, rest, shorter'⟩ ← inner.expression rest
  .ok ⟨.property key value, rest, by omega⟩

/-- A member of an object: a call to spread, or a key with a value. -/
def member (inner : Grammar) : Parser Member
  | [] => .error (unexpected .propertyName [])
  | t :: rest =>
    match t.kind with
    | .identifier =>
      if (peek rest).isSymbol "(" then do
        let ⟨value, left, shorter⟩ ← inner.chain (t :: rest)
        .ok ⟨.spread value, left, shorter⟩
      else property inner t.text rest
    | .string | .template => do
      let key ← contents t
      property inner key rest
    | _ => .error (unexpected .propertyName (t :: rest))

/-- The members of an object, after the opening brace `t`. -/
def object (inner : Grammar) (t : Token) (ts : List Token) :
    Except Fault (Parsed Expr (ts.length + 1)) := do
  let ⟨members, rest, shorter⟩ ← delimited "\x7d" (member inner) ts
  let ⟨close, rest, shorter'⟩ ← symbol "\x7d" rest
  .ok ⟨.object (t.span.through close) members, rest, by omega⟩

/-- A literal, a name, or something in brackets. -/
def primary (inside : Inside) : Parser Expr
  | [] => .error (unexpected .expression [])
  | t :: rest =>
    match t.kind with
    | .number => .ok ⟨.number t.span t.text, rest, Nat.lt_succ_self _⟩
    | .string | .template => do
      let text ← contents t
      .ok ⟨.string t.span text, rest, Nat.lt_succ_self _⟩
    | .blob form => .ok ⟨.blob t.span form (unwrap 4 t.text), rest, Nat.lt_succ_self _⟩
    | .identifier => .ok ⟨word t, rest, Nat.lt_succ_self _⟩
    | .dots => relative t rest
    | .punct =>
      if t.text = "(" then do group (← inside (t :: rest)) t rest
      else if t.text = "[" then do array (← inside (t :: rest)) t rest
      else if t.text = "\x7b" then do object (← inside (t :: rest)) t rest
      else .error (unexpected .expression (t :: rest))
    | .eof => .error (unexpected .expression (t :: rest))

/-- Reads argument lists as long as they follow, each a call of what is read so far. -/
def calls (inside : Inside) (callee : Expr) (ts : List Token) :
    Except Fault (Parsed Expr (ts.length + 1)) :=
  match ts with
  | [] => .ok ⟨callee, [], Nat.succ_pos _⟩
  | t :: rest =>
    if t.isSymbol "(" ∧ callee.isCallable then
      match inside rest with
      | .error e => .error e
      | .ok inner =>
        match delimited ")" inner.expression rest with
        | .error e => .error e
        | .ok ⟨args, afterArgs, shorter⟩ =>
          match symbol ")" afterArgs with
          | .error e => .error e
          | .ok ⟨close, left, shorter'⟩ =>
            match calls inside (.call (callee.span.through close) callee args) left with
            | .error e => .error e
            | .ok ⟨value, left, shorter''⟩ =>
              .ok ⟨value, left, by simp only [List.length_cons]; omega⟩
    else .ok ⟨callee, t :: rest, Nat.lt_succ_self _⟩
  termination_by ts.length
  decreasing_by simp only [List.length_cons]; omega

/-- A primary expression with its calls. -/
def callChain (inside : Inside) : Parser Expr := fun ts => do
  let ⟨callee, rest, shorter⟩ ← primary inside ts
  let ⟨value, rest, shorter'⟩ ← calls inside callee rest
  .ok ⟨value, rest, by omega⟩

/-- The unary operator that a token is. -/
def unaryOp? (t : Token) : Option UnaryOp :=
  if t.kind = .punct then UnaryOp.ofSymbol? t.text else none

/-- The binary operator that a token is. -/
def binaryOp? (t : Token) : Option BinaryOp :=
  if t.kind = .punct then BinaryOp.ofSymbol? t.text else none

/-- A unary operator with its operand one level inside, or a call chain. -/
def operand (inside : Inside) : Parser Expr
  | [] => callChain inside []
  | t :: rest =>
    match unaryOp? t with
    | some op => do
      let inner ← inside rest
      let ⟨value, left, shorter⟩ ← inner.unary rest
      .ok ⟨.unary (t.span.through value.span) op value, left, Nat.lt_succ_of_lt shorter⟩
    | none => callChain inside (t :: rest)

mutual

/-- Reads operators that bind at least as tightly as `least`, after the operand `left`. -/
def climbFrom (atom : Parser Expr) (least : Nat) (left : Expr) (ts : List Token) :
    Except Fault (Parsed Expr (ts.length + 1)) :=
  match ts with
  | [] => .ok ⟨left, [], Nat.succ_pos _⟩
  | t :: rest =>
    match binaryOp? t with
    | none => .ok ⟨left, t :: rest, Nat.lt_succ_self _⟩
    | some op =>
      if op.precedence < least then .ok ⟨left, t :: rest, Nat.lt_succ_self _⟩
      else
        match climb atom (op.precedence + 1) rest with
        | .error e => .error e
        | .ok ⟨right, after, shorter⟩ =>
          match climbFrom atom least
            (.binary (left.span.through right.span) op left right) after with
          | .error e => .error e
          | .ok ⟨value, left, shorter'⟩ =>
            .ok ⟨value, left, by simp only [List.length_cons]; omega⟩
  termination_by ts.length
  decreasing_by all_goals simp only [List.length_cons]; omega

/-- An operand and the operators after it that bind at least as tightly as `least`. -/
def climb (atom : Parser Expr) (least : Nat) (ts : List Token) :
    Except Fault (Parsed Expr ts.length) :=
  match atom ts with
  | .error e => .error e
  | .ok ⟨left, rest, shorter⟩ =>
    match climbFrom atom least left rest with
    | .error e => .error e
    | .ok ⟨value, rest, shorter'⟩ => .ok ⟨value, rest, by omega⟩
  termination_by ts.length
  decreasing_by omega

end

/-- The grammar of a level, from the level inside. -/
def ofInside (inside : Inside) : Grammar where
  expression := climb (operand inside) 0
  unary := operand inside
  chain := callChain inside

/-! ## All levels -/

/-- The fault of an expression at `depth` that would nest deeper than `limit`. -/
def tooDeep (limit depth : Nat) : Inside := fun ts =>
  .error ⟨.tooDeep (depth + 1) limit, (peek ts).span⟩

/-- The grammar at `depth` with `levels` more levels inside. -/
def levels (limit : Nat) : (levels depth : Nat) → Grammar
  | 0, depth => ofInside (tooDeep limit depth)
  | n + 1, depth => ofInside fun _ => .ok (levels limit n (depth + 1))

/-- The grammar at `depth`, when expressions nest no deeper than `limit`. -/
def upTo (limit depth : Nat) : Grammar := levels limit (limit - depth) depth

end Grammar

/-! ## Whole texts -/

/-- The expression that a list of tokens writes, up to its end. -/
def parseTokens (limit : Nat) (ts : List Token) : Except Fault Expr := do
  let ⟨value, rest, _⟩ ← (Grammar.upTo limit 0).expression ts
  if (Grammar.peek rest).kind = .eof then .ok value
  else .error (Grammar.unexpected .endOfInput rest)

/-- The expression that a source text writes, nested no deeper than `limit`. -/
def parse (limit : Nat) (bytes : Bytes) : Except ParseError Expr := do
  let ts ← tokenize bytes
  (parseTokens limit ts).mapError fun fault => ⟨fault, Utf8.shown bytes⟩

end LazyConfig
