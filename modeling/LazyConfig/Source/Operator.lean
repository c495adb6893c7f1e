-- Operators: their symbols, and how tightly the binary ones bind. All binary operators
-- group to the left.
-- Main statement: a symbol names an operator exactly when the operator is written so.
namespace LazyConfig

inductive BinaryOp where
  | or
  | and
  | eq
  | ne
  | strictEq
  | strictNe
  | lt
  | le
  | gt
  | ge
  | add
  | sub
  | mul
  | div
  | rem
  deriving DecidableEq, Repr

inductive UnaryOp where
  | neg
  | not
  deriving DecidableEq, Repr

namespace BinaryOp

def symbol : BinaryOp → String
  | or => "||"
  | and => "&&"
  | eq => "=="
  | ne => "!="
  | strictEq => "==="
  | strictNe => "!=="
  | lt => "<"
  | le => "<="
  | gt => ">"
  | ge => ">="
  | add => "+"
  | sub => "-"
  | mul => "*"
  | div => "/"
  | rem => "%"

/-- Every operator once. -/
def all : List BinaryOp :=
  [or, and, eq, ne, strictEq, strictNe, lt, le, gt, ge, add, sub, mul, div, rem]

/-- The operator that a symbol names. -/
def ofSymbol? (s : String) : Option BinaryOp := all.find? fun op => op.symbol = s

/-- How tightly the operator binds, the loosest first. -/
def precedence : BinaryOp → Nat
  | or => 1
  | and => 2
  | eq | ne | strictEq | strictNe => 3
  | lt | le | gt | ge => 4
  | add | sub => 5
  | mul | div | rem => 6

theorem mem_all (op : BinaryOp) : op ∈ all := by
  cases op <;> decide

theorem symbol_injective {a b : BinaryOp} (h : a.symbol = b.symbol) : a = b := by
  revert h
  cases a <;> cases b <;> decide

theorem ofSymbol?_eq_some {s : String} {op : BinaryOp} :
    ofSymbol? s = some op ↔ op.symbol = s := by
  constructor
  · intro h
    simpa using List.find?_some h
  · rintro rfl
    cases h : ofSymbol? op.symbol with
    | none =>
      have := List.find?_eq_none.1 h op (mem_all op)
      simp at this
    | some other =>
      have hs : other.symbol = op.symbol := by simpa using List.find?_some h
      rw [symbol_injective hs]

end BinaryOp

namespace UnaryOp

def symbol : UnaryOp → String
  | neg => "-"
  | not => "!"

/-- The operator that a symbol names. -/
def ofSymbol? (s : String) : Option UnaryOp := [neg, not].find? fun op => op.symbol = s

end UnaryOp

end LazyConfig
