-- Tokens and trees further on in a text: the same ones, with every place so many bytes later. What
-- a token means does not depend on its place, and a tree of moved tokens is a moved tree.
-- Main statement: what keeps the rules of the grammar apart is the same for a moved token.
import LazyConfig.Source.Grammar

namespace LazyConfig

/-! ## Moving -/

def Span.moved (k : Nat) (s : Span) : Span := ⟨s.start + k, s.stop + k⟩

def Token.moved (k : Nat) (t : Token) : Token := ⟨t.kind, t.span.moved k, t.text⟩

mutual

/-- The expression, so many bytes further on. -/
def Expr.moved (k : Nat) : Expr → Expr
  | .number span text => .number (span.moved k) text
  | .string span text => .string (span.moved k) text
  | .boolean span value => .boolean (span.moved k) value
  | .null span => .null (span.moved k)
  | .blob span form text => .blob (span.moved k) form text
  | .identifier span name => .identifier (span.moved k) name
  | .relative span level name => .relative (span.moved k) level name
  | .array span elements => .array (span.moved k) (Expr.movedAll k elements)
  | .object span members => .object (span.moved k) (Member.movedAll k members)
  | .call span callee args => .call (span.moved k) (callee.moved k) (Expr.movedAll k args)
  | .lambda span params body => .lambda (span.moved k) params (body.moved k)
  | .binary span op left right => .binary (span.moved k) op (left.moved k) (right.moved k)
  | .unary span op operand => .unary (span.moved k) op (operand.moved k)

def Expr.movedAll (k : Nat) : List Expr → List Expr
  | [] => []
  | e :: es => e.moved k :: Expr.movedAll k es

def Member.movedAll (k : Nat) : List Member → List Member
  | [] => []
  | .property key value :: ms => .property key (value.moved k) :: Member.movedAll k ms
  | .spread value :: ms => .spread (value.moved k) :: Member.movedAll k ms

end

def Member.moved (k : Nat) : Member → Member
  | .property key value => .property key (value.moved k)
  | .spread value => .spread (value.moved k)

theorem Expr.movedAll_eq_map (k : Nat) (es : List Expr) :
    Expr.movedAll k es = es.map (Expr.moved k) := by
  induction es with
  | nil => rfl
  | cons e es ih => rw [Expr.movedAll, ih, List.map_cons]

theorem Member.movedAll_eq_map (k : Nat) (ms : List Member) :
    Member.movedAll k ms = ms.map (Member.moved k) := by
  induction ms with
  | nil => rfl
  | cons m ms ih => cases m <;> rw [Member.movedAll, ih, List.map_cons, Member.moved]

/-! ## What is moved with a node -/

@[simp] theorem Expr.span_moved (k : Nat) (e : Expr) : (e.moved k).span = e.span.moved k := by
  cases e <;> rfl

@[simp] theorem Expr.isCallable_moved (k : Nat) (e : Expr) :
    (e.moved k).isCallable = e.isCallable := by
  cases e <;> rfl

theorem Span.through_moved (k : Nat) (s s' : Span) :
    (s.through s').moved k = (s.moved k).through (s'.moved k) := rfl

/-! ## What stays with a token -/

section

variable (k : Nat) (t : Token)

@[simp] theorem Token.kind_moved : (t.moved k).kind = t.kind := rfl

@[simp] theorem Token.span_moved : (t.moved k).span = t.span.moved k := rfl

@[simp] theorem Token.text_moved : (t.moved k).text = t.text := rfl

@[simp] theorem Token.isSymbol_moved (symbol : String) :
    (t.moved k).isSymbol symbol = t.isSymbol symbol := rfl

theorem Grammar.unaryOp?_moved : Grammar.unaryOp? (t.moved k) = Grammar.unaryOp? t := rfl

theorem Grammar.binaryOp?_moved : Grammar.binaryOp? (t.moved k) = Grammar.binaryOp? t := rfl

theorem Grammar.word_moved : Grammar.word (t.moved k) = (Grammar.word t).moved k := by
  unfold Grammar.word
  rw [Token.text_moved, Token.span_moved, apply_ite (Expr.moved k), apply_ite (Expr.moved k),
    apply_ite (Expr.moved k)]
  rfl

theorem Grammar.contents_moved {t : Token} {text : String} (h : Grammar.contents t = .ok text) :
    Grammar.contents (t.moved k) = .ok text := by
  unfold Grammar.contents at h ⊢
  rw [Token.text_moved]
  split at h
  · cases h
    rfl
  · cases h

end

end LazyConfig
