-- Expressions as trees, each node with the span of the text that wrote it.
-- Main statement: it can be decided whether two trees are the same.
import LazyConfig.Codec.Blob
import LazyConfig.Source.Operator

namespace LazyConfig

mutual

inductive Expr where
  /-- A number as it is written. -/
  | number (span : Span) (text : String)
  /-- A text, with its escapes read. -/
  | string (span : Span) (text : String)
  | boolean (span : Span) (value : Bool)
  | null (span : Span)
  /-- The contents of a blob as they are written. -/
  | blob (span : Span) (form : BlobForm) (text : String)
  | identifier (span : Span) (name : String)
  /-- A name in the scope `level` scopes out. -/
  | relative (span : Span) (level : Nat) (name : String)
  | array (span : Span) (elements : List Expr)
  | object (span : Span) (members : List Member)
  | call (span : Span) (callee : Expr) (args : List Expr)
  | lambda (span : Span) (params : List String) (body : Expr)
  | binary (span : Span) (op : BinaryOp) (left right : Expr)
  | unary (span : Span) (op : UnaryOp) (operand : Expr)

/-- A member of an object literal. -/
inductive Member where
  | property (key : String) (value : Expr)
  /-- A call whose object is merged in. -/
  | spread (value : Expr)

end

instance : Inhabited Expr := ⟨.null default⟩

namespace Expr

/-- The text that wrote the node. -/
def span : Expr → Span
  | number span _ => span
  | string span _ => span
  | boolean span _ => span
  | null span => span
  | blob span _ _ => span
  | identifier span _ => span
  | relative span _ _ => span
  | array span _ => span
  | object span _ => span
  | call span _ _ => span
  | lambda span _ _ => span
  | binary span _ _ _ => span
  | unary span _ _ => span

/-- Whether arguments may follow the expression. -/
def isCallable : Expr → Bool
  | identifier _ _ => true
  | relative _ _ _ => true
  | call _ _ _ => true
  | lambda _ _ _ => true
  | _ => false

end Expr

/-- The key of a property. -/
def Member.key? : Member → Option String
  | property key _ => some key
  | spread _ => none

/-- The expression of a member. -/
def Member.expr : Member → Expr
  | property _ value => value
  | spread value => value

/-! ## Equality -/

mutual

/-- Whether two trees are the same, with their spans. -/
def Expr.same : Expr → Expr → Bool
  | .number span text, .number span' text' => span = span' && text = text'
  | .string span text, .string span' text' => span = span' && text = text'
  | .boolean span b, .boolean span' b' => span = span' && b = b'
  | .null span, .null span' => span = span'
  | .blob span form text, .blob span' form' text' => span = span' && form = form' && text = text'
  | .identifier span name, .identifier span' name' => span = span' && name = name'
  | .relative span level name, .relative span' level' name' =>
    span = span' && level = level' && name = name'
  | .array span es, .array span' es' => span = span' && Expr.sameAll es es'
  | .object span ms, .object span' ms' => span = span' && Member.sameAll ms ms'
  | .call span callee args, .call span' callee' args' =>
    span = span' && callee.same callee' && Expr.sameAll args args'
  | .lambda span params body, .lambda span' params' body' =>
    span = span' && params = params' && body.same body'
  | .binary span op l r, .binary span' op' l' r' =>
    span = span' && op = op' && l.same l' && r.same r'
  | .unary span op e, .unary span' op' e' => span = span' && op = op' && e.same e'
  | _, _ => false

def Expr.sameAll : List Expr → List Expr → Bool
  | [], [] => true
  | e :: es, e' :: es' => e.same e' && Expr.sameAll es es'
  | _, _ => false

def Member.sameAll : List Member → List Member → Bool
  | [], [] => true
  | .property key e :: later, .property key' e' :: later' =>
    key = key' && e.same e' && Member.sameAll later later'
  | .spread e :: later, .spread e' :: later' => e.same e' && Member.sameAll later later'
  | _, _ => false

end

mutual

theorem Expr.same_iff (e e' : Expr) : e.same e' = true ↔ e = e' := by
  cases e with
  | array _ es => cases e' <;> simp [Expr.same, Expr.sameAll_iff es]
  | object _ ms => cases e' <;> simp [Expr.same, Member.sameAll_iff ms]
  | call _ callee args =>
    cases e' <;> simp [Expr.same, Expr.same_iff callee, Expr.sameAll_iff args, and_assoc]
  | lambda _ _ body => cases e' <;> simp [Expr.same, Expr.same_iff body, and_assoc]
  | binary _ _ l r => cases e' <;> simp [Expr.same, Expr.same_iff l, Expr.same_iff r, and_assoc]
  | unary _ _ e => cases e' <;> simp [Expr.same, Expr.same_iff e, and_assoc]
  | _ => cases e' <;> simp [Expr.same, and_assoc]

theorem Expr.sameAll_iff (es es' : List Expr) : Expr.sameAll es es' = true ↔ es = es' := by
  cases es with
  | nil => cases es' <;> simp [Expr.sameAll]
  | cons e es => cases es' <;> simp [Expr.sameAll, Expr.same_iff e, Expr.sameAll_iff es]

theorem Member.sameAll_iff (ms ms' : List Member) : Member.sameAll ms ms' = true ↔ ms = ms' := by
  cases ms with
  | nil => cases ms' <;> simp [Member.sameAll]
  | cons m later =>
    cases ms' with
    | nil => cases m <;> simp [Member.sameAll]
    | cons m' later' =>
      cases m with
      | property key e =>
        cases m' <;> simp [Member.sameAll, Expr.same_iff e, Member.sameAll_iff later, and_assoc]
      | spread e => cases m' <;> simp [Member.sameAll, Expr.same_iff e, Member.sameAll_iff later]

end

instance : DecidableEq Expr := fun e e' => decidable_of_iff _ (Expr.same_iff e e')

end LazyConfig
