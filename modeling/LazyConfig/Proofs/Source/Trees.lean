-- Trees and their parts: what stands directly inside of an expression, and what stands in it at any
-- depth.
import LazyConfig.Source.Expr
import Mathlib.Logic.Relation

namespace LazyConfig

/-- The expressions directly inside of an expression. -/
def Expr.children : Expr → List Expr
  | .array _ elements => elements
  | .object _ members => members.map Member.expr
  | .call _ callee args => callee :: args
  | .lambda _ _ body => [body]
  | .binary _ _ left right => [left, right]
  | .unary _ _ operand => [operand]
  | _ => []

/-- The names that an expression binds in what stands directly inside of it. -/
def Expr.binds : Expr → List String
  | .lambda _ params _ => params
  | _ => []

/-- The expression is a part of the other one, at any depth, or is the other one. -/
def Expr.PartOf (e root : Expr) : Prop :=
  Relation.ReflTransGen (fun outer inside => inside ∈ outer.children) root e

theorem Expr.PartOf.child {e inside root : Expr} (h : e.PartOf root) (hmem : inside ∈ e.children) :
    inside.PartOf root := Relation.ReflTransGen.tail h hmem

theorem Expr.PartOf.of_child {e inside root : Expr} (h : e.PartOf inside)
    (hmem : inside ∈ root.children) : e.PartOf root := Relation.ReflTransGen.head hmem h

theorem Member.expr_mem_children {m : Member} {span : Span} {members : List Member}
    (h : m ∈ members) : m.expr ∈ (Expr.object span members).children :=
  List.mem_map_of_mem h

end LazyConfig
