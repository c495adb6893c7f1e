-- How far the body of a lambda goes. It is read as a whole expression, so it goes on with whatever
-- its last operand and its operators take. Arguments that its last operand does not take are left,
-- and the call chain that the lambda starts takes them, whether the lambda stands in a group or
-- not.
-- Main statements: how the lambdas stand that are called, and a lambda that is called without a
-- group.
import LazyConfig.Proofs.Source.Derivations
import Mathlib.Data.List.Chain

namespace LazyConfig

open Grammar

/-! ## Lambdas in the tokens -/

/-- At the front of the tokens a lambda is written, and these are left after its body. -/
inductive LambdaAt : List Token → Expr → List Token → Prop
  | written {n : Nat} {t : Token} {more after rest : List Token}
      {params : List String} {body : Expr}
      (ht : t.isSymbol "(" = true) (hhead : lambdaHead more = some (params, after))
      (h : Derives n (.climb 0) after body rest) :
      LambdaAt (t :: more) (.lambda (t.span.through body.span) params body) rest

/-- The lambda is written in a group of its own: an opening parenthesis stands right before it, and
right after it the one that closes the group. -/
def Grouped (ts : List Token) (lambda : Expr) : Prop :=
  ∃ first written close rest, first :: written <:+ ts ∧ first.isSymbol "(" = true ∧
    LambdaAt written lambda (close :: rest) ∧ close.isSymbol ")" = true

/-- Arguments follow right after the lambda, and the call chain that its body ends with, which is a
part of it, takes no arguments. -/
def LeavesArguments (ts : List Token) (lambda : Expr) : Prop :=
  ∃ written rest, written <:+ ts ∧ LambdaAt written lambda rest ∧ (peek rest).isSymbol "(" = true ∧
    ∃ n last e, last <:+ written ∧ Derives n .chain last e rest ∧ e.PartOf lambda ∧
      e.isCallable = false

theorem Grouped.mono {ts ts' : List Token} {e : Expr} (h : Grouped ts' e) (hts : ts' <:+ ts) :
    Grouped ts e := by
  obtain ⟨first, written, close, rest, hwritten, h⟩ := h
  exact ⟨first, written, close, rest, hwritten.trans hts, h⟩

theorem LeavesArguments.mono {ts ts' : List Token} {e : Expr} (h : LeavesArguments ts' e)
    (hts : ts' <:+ ts) : LeavesArguments ts e := by
  obtain ⟨written, rest, hwritten, h⟩ := h
  exact ⟨written, rest, hwritten.trans hts, h⟩

theorem LambdaAt.exists_cons {ts rest : List Token} {e : Expr} (h : LambdaAt ts e rest) :
    ∃ t more, ts = t :: more ∧ t.isSymbol "(" = true := by
  obtain ⟨ht, -, -⟩ := h
  exact ⟨_, _, rfl, ht⟩

namespace Grammar

/-! ## What a rule ends with -/

/-- The rule takes all the arguments that its last operand can take. -/
def Rule.TakesArguments : Rule → Prop
  | .primary | .calls => False
  | _ => True

variable {n : Nat} {rule : Rule} {ts rest : List Token} {e : Expr}

/-- Where arguments are left, the last operand is a call chain that takes none. -/
theorem Derives.last_chain (h : Derives n rule ts e rest) (hrule : rule.TakesArguments)
    (hrest : (peek rest).isSymbol "(" = true) :
    ∃ m last e', last <:+ ts ∧ Derives m .chain last e' rest ∧ e'.PartOf e ∧
      e'.isCallable = false := by
  induction h with
  | number | string | blob | word | relative | group | lambda | array | object | single | call =>
    exact hrule.elim
  | @chain n ts rest e h hstop =>
    have hclosed : e.isCallable = false := by
      by_contra hcallable
      exact hstop ⟨hrest, by simpa using hcallable⟩
    exact ⟨n, ts, e, List.suffix_rfl, .chain h hstop, .refl, hclosed⟩
  | plain h hfirst ih => exact ih trivial hrest
  | unary hop h ih =>
    obtain ⟨m, last, e', hlast, hchain, hpart, hclosed⟩ := ih trivial hrest
    exact ⟨m, last, e', hlast.trans (List.suffix_cons _ _), hchain,
      hpart.of_child (List.mem_singleton_self _), hclosed⟩
  | first least h ih => exact ih trivial hrest
  | binary h hop hleast hright ih ihright =>
    obtain ⟨m, last, e', hlast, hchain, hpart, hclosed⟩ := ihright trivial hrest
    refine ⟨m, last, e', (hlast.trans (List.suffix_cons _ _)).trans h.suffix, hchain, ?_, hclosed⟩
    exact hpart.of_child (List.mem_cons_of_mem _ (List.mem_singleton_self _))
  | climb h hrests ih => exact ih trivial hrest

/-! ## Where a lambda is written -/

/-- The expression is a lambda. -/
def IsLambda (e : Expr) : Prop := ∃ span params body, e = .lambda span params body

/-- A lambda is derived from the tokens that write it, or from a group that it is written in. -/
theorem Derives.lambda_or_grouped (h : Derives n rule ts e rest) (he : IsLambda e) :
    LambdaAt ts e rest ∨ Grouped ts e := by
  induction h with
  | number | string | blob | relative | array | object | call | unary | binary =>
    obtain ⟨_, _, _, he⟩ := he
    cases he
  | word =>
    obtain ⟨_, _, _, he⟩ := he
    unfold Grammar.word at he
    repeat' split at he
    all_goals cases he
  | @group n t close ts rest e ht hhead h hclose ih =>
    rcases ih he with hat | hgrouped
    · exact .inr ⟨t, ts, close, rest, List.suffix_rfl, ht, hat, hclose⟩
    · exact .inr (hgrouped.mono (List.suffix_cons _ _))
  | lambda ht hhead h => exact .inl (.written ht hhead h)
  | single h ih | chain h _ ih | plain h _ ih | first _ h ih | climb h _ ih => exact ih he

/-- What is called is derived from the tokens before its arguments. -/
theorem Derives.callee (h : Derives n rule ts e rest) {span : Span} {callee : Expr}
    {args : List Expr} (he : e = .call span callee args) :
    ∃ m first after, first <:+ ts ∧ Derives m .calls first callee after ∧
      (peek after).isSymbol "(" = true := by
  induction h with
  | number | string | blob | relative | array | object | lambda | unary | binary => cases he
  | word =>
    unfold Grammar.word at he
    repeat' split at he
    all_goals cases he
  | group ht hhead h hclose ih =>
    obtain ⟨m, first, after, hfirst, hcallee⟩ := ih he
    exact ⟨m, first, after, hfirst.trans (List.suffix_cons _ _), hcallee⟩
  | call h ht hcallable hlist hitems hclose =>
    cases he
    exact ⟨_, _, _, List.suffix_rfl, h, ht⟩
  | single h ih | chain h _ ih | plain h _ ih | first _ h ih | climb h _ ih => exact ih he

/-- A lambda that is called stands in a group, or its body leaves the arguments. -/
theorem Derives.called (h : Derives n rule ts e rest) {span : Span} {callee : Expr}
    {args : List Expr} (he : e = .call span callee args) (hlambda : IsLambda callee) :
    Grouped ts callee ∨ LeavesArguments ts callee := by
  obtain ⟨m, first, after, hfirst, hcallee, harguments⟩ := h.callee he
  rcases hcallee.lambda_or_grouped hlambda with hat | hgrouped
  · right
    refine ⟨first, after, hfirst, hat, harguments, ?_⟩
    obtain ⟨ht, hhead, hbody⟩ := hat
    obtain ⟨m, last, e', hlast, hchain, hpart, hclosed⟩ := hbody.last_chain trivial harguments
    exact ⟨m, last, e',
      (hlast.trans (suffix_of_lambdaHead hhead)).trans (List.suffix_cons _ _), hchain,
      hpart.of_child (List.mem_singleton_self _), hclosed⟩
  · exact .inl (hgrouped.mono hfirst)

end Grammar

/-! ## Trees of a source -/

/-- In the tree that a source is read as, each lambda that is called stands in a group of its own,
or the arguments follow right after its body, which ends with an operand that takes none. -/
theorem called_lambdas {limit : Nat} {bytes : Bytes} {e : Expr} (h : parse limit bytes = .ok e) :
    ∃ ts, tokenize bytes = .ok ts ∧ ∀ span callee args, (Expr.call span callee args).PartOf e →
      IsLambda callee → Grouped ts callee ∨ LeavesArguments ts callee := by
  obtain ⟨ts, hts, he⟩ := exists_tokens_of_parse h
  obtain ⟨rest, hderives, -⟩ := parseTokens_eq_ok_iff.mp he
  refine ⟨ts, hts, fun span callee args hpart hlambda => ?_⟩
  obtain ⟨n, rule, ts', rest', hcall, hsuffix⟩ := hderives.part hpart
  exact (hcall.called rfl hlambda).imp (·.mono hsuffix) (·.mono hsuffix)

/-- The body of the first lambda ends with a number, which takes no arguments. The other one stands
in a group. -/
theorem called_lambdas_of_number :
    ∃ e, parse 3 (Utf8.encode "(x) => 1 (((y) => y)(2))") = .ok e ∧
      ∃ ts, tokenize (Utf8.encode "(x) => 1 (((y) => y)(2))") = .ok ts ∧
        ∀ span callee args, (Expr.call span callee args).PartOf e →
          IsLambda callee → Grouped ts callee ∨ LeavesArguments ts callee := by
  have h : parse 3 (Utf8.encode "(x) => 1 (((y) => y)(2))") =
      .ok (.call ⟨0, 24⟩ (.lambda ⟨0, 8⟩ ["x"] (.number ⟨7, 8⟩ "1"))
        [.call ⟨11, 23⟩
        (.lambda ⟨11, 19⟩ ["y"] (.identifier ⟨18, 19⟩ "y")) [.number ⟨21, 22⟩ "2"]]) := by
    decide +kernel
  exact ⟨_, h, called_lambdas h⟩

/-- A lambda is called that stands in no group: its tokens have no two opening parentheses in a
row. -/
theorem called_without_group :
    ∃ ts, parse 2 (Utf8.encode "(x) => 1 (2)") =
        .ok (.call ⟨0, 12⟩ (.lambda ⟨0, 8⟩ ["x"] (.number ⟨7, 8⟩ "1")) [.number ⟨10, 11⟩ "2"]) ∧
      tokenize (Utf8.encode "(x) => 1 (2)") = .ok ts ∧
      ¬ Grouped ts (.lambda ⟨0, 8⟩ ["x"] (.number ⟨7, 8⟩ "1")) := by
  have hts : tokenize (Utf8.encode "(x) => 1 (2)") =
      .ok [⟨.punct, ⟨0, 1⟩, "("⟩, ⟨.identifier, ⟨1, 2⟩, "x"⟩, ⟨.punct, ⟨2, 3⟩, ")"⟩,
        ⟨.punct, ⟨4, 6⟩, "=>"⟩, ⟨.number, ⟨7, 8⟩, "1"⟩, ⟨.punct, ⟨9, 10⟩, "("⟩,
        ⟨.number, ⟨10, 11⟩, "2"⟩, ⟨.punct, ⟨11, 12⟩, ")"⟩, .endAt 12] := by decide +kernel
  refine ⟨_, by decide +kernel, hts, ?_⟩
  rintro ⟨first, written, close, rest, ⟨front, hfront⟩, hfirst, hat, -⟩
  obtain ⟨t, more, rfl, ht⟩ := hat.exists_cons
  have hsingle : List.IsChain (fun t u : Token => ¬ (t.isSymbol "(" = true ∧ u.isSymbol "(" = true))
      (front ++ first :: t :: more) := by
    rw [hfront]
    decide
  exact (List.isChain_append_cons_cons.mp hsingle).2.1 ⟨hfirst, ht⟩

end LazyConfig
