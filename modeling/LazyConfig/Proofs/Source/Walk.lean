-- Reading with a cursor. The tokens stay in one list, the cursor moves along it, and a counter says
-- how many levels are open. Where a parenthesis may open a lambda, names are read as its
-- parameters, and the cursor goes back if they are none. How many rules may be entered inside of
-- one another is limited by a number of steps.
-- Main statement: what each reader of a single token does, by the tokens that are ahead.
import LazyConfig.Source.Grammar

namespace LazyConfig

theorem Token.ne_eof_of_isSymbol {t : Token} {symbol : String} (h : t.isSymbol symbol = true) :
    t.kind ≠ .eof := by
  simp [(Token.isSymbol_iff.mp h).1]

/-- Where reading is. -/
structure Cursor where
  tokens : List Token
  /-- How deep expressions may nest. -/
  limit : Nat
  /-- The place of the next token. -/
  place : Nat
  /-- How many levels are open. -/
  depth : Nat

namespace Cursor

/-- The token at a place, or the last one behind the end. -/
def tokenAt (s : Cursor) (place : Nat) : Token :=
  (s.tokens[min place (s.tokens.length - 1)]?).getD (.endAt 0)

/-- The tokens from the next one on. Behind the end, the last one is still ahead. -/
def ahead (s : Cursor) : List Token := s.tokens.drop (min s.place (s.tokens.length - 1))

/-- The cursor at another place. -/
def moved (s : Cursor) (place : Nat) : Cursor := { s with place := place }

/-- The cursor behind the next token. -/
def step (s : Cursor) : Cursor := s.moved (s.place + 1)

/-- The cursor one level inside. -/
def down (s : Cursor) : Cursor := { s with depth := s.depth + 1 }

end Cursor

/-- Reads from a cursor on and moves it, also when there is a fault. There is no outcome if the
steps do not suffice. -/
abbrev Walk (α : Type) := ExceptT Fault (StateT Cursor Option) α

namespace Walk

/-! ## Single tokens -/

def outOfSteps {α : Type} : Walk α := fun _ => none

/-- The next token. -/
def current : Walk Token := do
  let s ← get
  return s.tokenAt s.place

/-- The token behind the next one. -/
def following : Walk Token := do
  let s ← get
  return s.tokenAt (s.place + 1)

/-- Passes over the next token, but not over the end. -/
def bump : Walk Token := do
  let t ← current
  if t.kind ≠ .eof then modify Cursor.step
  return t

/-- Passes over a symbol if it is next. -/
def eat (symbol : String) : Walk (Option Span) := do
  let t ← current
  if t.isSymbol symbol then
    let _ ← bump
    return some t.span
  else return none

/-- The fault that the next token does not fit. -/
def refuse {α : Type} (expected : Expected) : Walk α := do
  let t ← current
  throw (Grammar.unexpected expected [t])

/-- Passes over a symbol, which has to be next. -/
def expect (symbol : String) : Walk Span := do
  match ← eat symbol with
  | some span => return span
  | none => refuse (.symbol symbol)

/-- What a string token stands for. -/
def contents (t : Token) : Walk String :=
  match Grammar.contents t with
  | .ok text => return text
  | .error f => throw f

/-! ## Levels and lists -/

/-- Opens a level. -/
def descend : Walk Unit := do
  modify Cursor.down
  let s ← get
  if s.limit < s.depth then
    let t ← current
    throw ⟨.tooDeep s.depth s.limit, t.span⟩

/-- Closes a level. -/
def ascend : Walk Unit := modify fun s => { s with depth := s.depth - 1 }

/-- Reads one level inside. -/
def nested {α : Type} (inside : Walk α) : Walk α := do
  descend
  let a ← inside
  ascend
  return a

/-- Reads items with commas between them, up to a closing symbol, which is left. -/
def delimited {α : Type} (close : String) (item : Walk α) : (steps : Nat) → Walk (List α)
  | 0 => outOfSteps
  | n + 1 => do
    let t ← current
    if t.isSymbol close then return []
    else
      let first ← item
      match ← eat "," with
      | some _ =>
        let others ← delimited close item n
        return first :: others
      | none => return [first]

/-! ## Lambda parameters -/

/-- Reads names with commas between them, up to the parenthesis that closes them. If they are none,
the cursor stays wherever that shows. -/
def parameters : (steps : Nat) → Walk (Option (List String))
  | 0 => outOfSteps
  | n + 1 => do
    match ← eat ")" with
    | some _ => return some []
    | none =>
      let t ← current
      if t.kind = .identifier then
        let _ ← bump
        match ← eat "," with
        | some _ =>
          let others ← parameters n
          return others.map (t.text :: ·)
        | none =>
          match ← eat ")" with
          | some _ => return some [t.text]
          | none => return none
      else return none

/-- Reads the parameters of a lambda, with the opening parenthesis and the arrow. -/
def lambdaHead (steps : Nat) : Walk (Option (List String)) := do
  let _ ← bump
  match ← parameters steps with
  | some names =>
    match ← eat "=>" with
    | some _ => return some names
    | none => return none
  | none => return none

/-! ## Brackets

What is inside is read by another reader, one level deeper or with fewer steps. -/

/-- Reads an expression in parentheses. -/
def parenthesized (expression : Walk Expr) : Walk Expr := do
  let _ ← bump
  let value ← expression
  let _ ← expect ")"
  return value

/-- Reads a lambda if a parenthesis opens one. If it does not, the cursor goes back to the
parenthesis, and an expression in parentheses is read. -/
def group (expression : Walk Expr) (steps : Nat) : Walk Expr := do
  let t ← current
  let mark ← get
  match ← lambdaHead steps with
  | some params =>
    let body ← expression
    return .lambda (t.span.through body.span) params body
  | none =>
    modify fun s => s.moved mark.place
    parenthesized expression

def array (expression : Walk Expr) (steps : Nat) : Walk Expr := do
  let t ← bump
  let elements ← delimited "]" expression steps
  let close ← expect "]"
  return .array (t.span.through close) elements

/-- Reads the value of a property, from its key on. -/
def property (expression : Walk Expr) (key : String) : Walk Member := do
  let _ ← bump
  let _ ← expect ":"
  let value ← expression
  return .property key value

def object (member : Walk Member) (steps : Nat) : Walk Expr := do
  let t ← bump
  let members ← delimited "\x7d" member steps
  let close ← expect "\x7d"
  return .object (t.span.through close) members

/-- Reads the arguments of a call and the parenthesis that closes them. -/
def arguments (expression : Walk Expr) (steps : Nat) : Walk (List Expr × Span) := do
  let args ← delimited ")" expression steps
  let close ← expect ")"
  return (args, close)

/-! ## Expressions -/

/-- Reads a name after dots. -/
def relative : Walk Expr := do
  let dots ← bump
  let t ← current
  if t.kind = .identifier then
    let _ ← bump
    return .relative (dots.span.through t.span) (dots.text.length - 1) t.text
  else refuse .nameAfterDots

mutual

/-- Reads an operand and the operators after it that bind at least as tightly as `least`. -/
def expression : (steps least : Nat) → Walk Expr
  | 0, _ => outOfSteps
  | n + 1, least => do
    let left ← unary n
    operators n least left

/-- Reads operators after an operand, as long as they bind at least as tightly as `least`. -/
def operators : (steps least : Nat) → Expr → Walk Expr
  | 0, _, _ => outOfSteps
  | n + 1, least, left => do
    let t ← current
    match Grammar.binaryOp? t with
    | none => return left
    | some op =>
      if op.precedence < least then return left
      else
        let _ ← bump
        let right ← expression n (op.precedence + 1)
        operators n least (.binary (left.span.through right.span) op left right)

/-- Reads an expression without binary operators. -/
def unary : (steps : Nat) → Walk Expr
  | 0 => outOfSteps
  | n + 1 => do
    let t ← current
    match Grammar.unaryOp? t with
    | none => chain n
    | some op =>
      let _ ← bump
      let value ← nested (unary n)
      return .unary (t.span.through value.span) op value

/-- Reads a primary expression with its calls. -/
def chain : (steps : Nat) → Walk Expr
  | 0 => outOfSteps
  | n + 1 => do
    let callee ← primary n
    calls n callee

/-- Reads argument lists after a callee, as long as there are any. -/
def calls : (steps : Nat) → Expr → Walk Expr
  | 0, _ => outOfSteps
  | n + 1, callee => do
    let t ← current
    if t.isSymbol "(" ∧ callee.isCallable then
      let _ ← bump
      let (args, close) ← nested (arguments (expression n 0) n)
      calls n (.call (callee.span.through close) callee args)
    else return callee

/-- Reads a literal, a name, or something in brackets. -/
def primary : (steps : Nat) → Walk Expr
  | 0 => outOfSteps
  | n + 1 => do
    let t ← current
    match t.kind with
    | .number =>
      let _ ← bump
      return .number t.span t.text
    | .string | .template =>
      let text ← contents t
      let _ ← bump
      return .string t.span text
    | .blob form =>
      let _ ← bump
      return .blob t.span form (Grammar.unwrap 4 t.text)
    | .identifier =>
      let _ ← bump
      return Grammar.word t
    | .dots => relative
    | .punct =>
      if t.text = "(" then nested (group (expression n 0) n)
      else if t.text = "[" then nested (array (expression n 0) n)
      else if t.text = "\x7b" then nested (object (member n) n)
      else refuse .expression
    | .eof => refuse .expression

/-- Reads a call to spread, or a key with a value. -/
def member : (steps : Nat) → Walk Member
  | 0 => outOfSteps
  | n + 1 => do
    let t ← current
    match t.kind with
    | .identifier =>
      let u ← following
      if u.isSymbol "(" then
        let value ← chain n
        return .spread value
      else property (expression n 0) t.text
    | .string | .template =>
      let key ← contents t
      property (expression n 0) key
    | _ => refuse .propertyName

end

end Walk

/-! ## Where a cursor is -/

namespace Cursor

variable {s : Cursor} {t u : Token} {rest : List Token}

theorem tokenAt_place (s : Cursor) : s.tokenAt s.place = Grammar.peek s.ahead := by
  rw [tokenAt, Grammar.peek, ahead, List.headD_eq_head?_getD, List.head?_drop]

theorem length_ahead (s : Cursor) :
    s.ahead.length = s.tokens.length - min s.place (s.tokens.length - 1) := by
  rw [ahead, List.length_drop]

/-- A cursor that is before the end is so at each token ahead. -/
theorem place_lt (before : List Token) (h : s.ahead = before ++ t :: rest)
    (hin : s.place < s.tokens.length) :
    s.place + before.length < s.tokens.length := by
  have hlength := s.length_ahead
  rw [h, List.length_append, List.length_cons] at hlength
  omega

theorem ahead_moved (before : List Token) (h : s.ahead = before ++ t :: rest) :
    (s.moved (s.place + before.length)).ahead = t :: rest := by
  have hlength := s.length_ahead
  rw [h, List.length_append, List.length_cons] at hlength
  have hmoved : min (s.place + before.length) (s.tokens.length - 1) =
      min s.place (s.tokens.length - 1) + before.length := by omega
  change s.tokens.drop (min (s.place + before.length) (s.tokens.length - 1)) = t :: rest
  rw [hmoved, ← List.drop_drop, ← ahead, h, List.drop_left]

theorem ahead_step (h : s.ahead = t :: u :: rest) : s.step.ahead = u :: rest :=
  ahead_moved [t] h

/-- The last token stays ahead. -/
theorem ahead_step_last (h : s.ahead = [t]) : s.step.ahead = [t] := by
  have hlength := s.length_ahead
  rw [h, List.length_singleton] at hlength
  have hplace : min (s.place + 1) (s.tokens.length - 1) = min s.place (s.tokens.length - 1) := by
    omega
  rw [← h]
  change s.tokens.drop (min (s.place + 1) (s.tokens.length - 1)) = s.ahead
  rw [hplace, ahead]

end Cursor

/-! ## Running -/

namespace Walk

section

variable {α β : Type} {s s' : Cursor} {x : Walk α}

theorem run_bind (x : Walk α) (f : α → Walk β) (s : Cursor) :
    (x >>= f) s = match x s with
      | none => none
      | some (.error e, s') => some (.error e, s')
      | some (.ok a, s') => f a s' := by
  simp only [bind, ExceptT.bind, ExceptT.mk, StateT.bind, ExceptT.bindCont]
  cases x s with
  | none => rfl
  | some outcome => obtain ⟨a | a, s'⟩ := outcome <;> rfl

theorem bind_of_ok {a : α} (h : x s = some (.ok a, s')) (f : α → Walk β) :
    (x >>= f) s = f a s' := by
  rw [run_bind, h]

theorem bind_of_error {e : Fault} (h : x s = some (.error e, s')) (f : α → Walk β) :
    (x >>= f) s = some (.error e, s') := by
  rw [run_bind, h]

end

variable {s : Cursor} {t : Token} {rest : List Token} {symbol : String}

theorem current_run (s : Cursor) : current s = some (.ok (Grammar.peek s.ahead), s) := by
  rw [← s.tokenAt_place]
  rfl

theorem following_run (s : Cursor) : following s = some (.ok (Grammar.peek s.step.ahead), s) := by
  rw [← s.step.tokenAt_place]
  rfl

theorem descend_of_lt (h : s.depth < s.limit) : descend s = some (.ok (), s.down) := by
  change (if s.limit < s.depth + 1 then _ else _ : Walk Unit) s.down = _
  rw [if_neg (by omega)]
  rfl

theorem descend_of_not_lt (h : ¬s.depth < s.limit) :
    descend s =
    some (.error ⟨.tooDeep (s.depth + 1) s.limit, (Grammar.peek s.ahead).span⟩, s.down) := by
  change (if s.limit < s.depth + 1 then _ else _ : Walk Unit) s.down = _
  rw [if_pos (by omega), bind_of_ok (current_run s.down)]
  rfl

section

variable (h : s.ahead = t :: rest)

include h

theorem current_of_ahead : current s = some (.ok t, s) := by
  rw [current_run, h]
  rfl

theorem bump_of_ahead (ht : t.kind ≠ .eof) : bump s = some (.ok t, s.step) := by
  rw [bump, bind_of_ok (current_of_ahead h), if_pos ht]
  rfl

theorem eat_of_isSymbol (ht : t.isSymbol symbol = true) :
    eat symbol s = some (.ok (some t.span), s.step) := by
  rw [eat, bind_of_ok (current_of_ahead h), if_pos ht,
    bind_of_ok (bump_of_ahead h (Token.ne_eof_of_isSymbol ht))]
  rfl

theorem eat_of_not_isSymbol (ht : ¬t.isSymbol symbol = true) :
    eat symbol s = some (.ok none, s) := by
  rw [eat, bind_of_ok (current_of_ahead h), if_neg ht]
  rfl

theorem refuse_of_ahead {α : Type} (expected : Expected) :
    refuse (α := α) expected s = some (.error (Grammar.unexpected expected (t :: rest)), s) := by
  rw [refuse, bind_of_ok (current_of_ahead h)]
  rfl

theorem expect_of_isSymbol (ht : t.isSymbol symbol = true) :
    expect symbol s = some (.ok t.span, s.step) := by
  rw [expect, bind_of_ok (eat_of_isSymbol h ht)]
  rfl

theorem expect_of_not_isSymbol (ht : ¬t.isSymbol symbol = true) :
    expect symbol s = some (.error (Grammar.unexpected (.symbol symbol) (t :: rest)), s) := by
  rw [expect, bind_of_ok (eat_of_not_isSymbol h ht)]
  exact refuse_of_ahead h _

end

end Walk

end LazyConfig
