-- How high trees are that are read. The limit counts brackets, arguments and operands of unary
-- operators. A step to the right side of an operator is not counted, but the right side binds more
-- tightly, so there are at most six of them at each level. Steps to a left side and to a callee are
-- not counted either, and of these there may be any number: a sum is as high as it is long.
-- Main statement: a tree that is read nests no deeper than the limit allows, chains of operators
-- and of calls aside, and is no higher than this many times its longest chain.
import LazyConfig.Proofs.Document.Heights
import LazyConfig.Proofs.Source.Outcomes
import LazyConfig.Proofs.Source.Printing
import Mathlib.Order.MinMax

namespace LazyConfig

open Utf8 (encodeChars)

/-! ## Nesting and chains -/

mutual

/-- The number of nodes on the longest way down the tree, when those are not counted from which the
way goes on to the left side of an operator or to a callee. -/
def Expr.nesting : Expr → Nat
  | .array _ elements => Expr.nestingAll elements + 1
  | .object _ members => Member.nestingAll members + 1
  | .call _ callee args => max callee.nesting (Expr.nestingAll args + 1)
  | .lambda _ _ body => body.nesting + 1
  | .binary _ _ left right => max left.nesting (right.nesting + 1)
  | .unary _ _ operand => operand.nesting + 1
  | _ => 1

def Expr.nestingAll : List Expr → Nat
  | [] => 0
  | e :: es => max e.nesting (Expr.nestingAll es)

def Member.nestingAll : List Member → Nat
  | [] => 0
  | .property _ value :: later => max value.nesting (Member.nestingAll later)
  | .spread value :: later => max value.nesting (Member.nestingAll later)

end

/-- The number of nodes from the tree down, always to the left side of an operator or to a
callee. -/
def Expr.chain : Expr → Nat
  | .call _ callee _ => callee.chain + 1
  | .binary _ _ left _ => left.chain + 1
  | _ => 1

mutual

/-- The longest chain anywhere in the tree. -/
def Expr.longestChain : Expr → Nat
  | .array _ elements => max 1 (Expr.longestChainAll elements)
  | .object _ members => max 1 (Member.longestChainAll members)
  | .call _ callee args =>
    max (callee.chain + 1) (max callee.longestChain (Expr.longestChainAll args))
  | .lambda _ _ body => max 1 body.longestChain
  | .binary _ _ left right => max (left.chain + 1) (max left.longestChain right.longestChain)
  | .unary _ _ operand => max 1 operand.longestChain
  | _ => 1

def Expr.longestChainAll : List Expr → Nat
  | [] => 0
  | e :: es => max e.longestChain (Expr.longestChainAll es)

def Member.longestChainAll : List Member → Nat
  | [] => 0
  | .property _ value :: later => max value.longestChain (Member.longestChainAll later)
  | .spread value :: later => max value.longestChain (Member.longestChainAll later)

end

theorem Expr.chain_le_longestChain (e : Expr) : e.chain ≤ e.longestChain := by
  cases e <;> simp [chain, longestChain]

/-! ## Height -/

/-- A node over what has so many chains under one another ends a chain of its own. -/
theorem height_over {h n k : Nat} (hinside : h ≤ n * k) : h + 1 + k ≤ (n + 1) * k + 1 := by
  rw [Nat.succ_mul]
  omega

/-- A node with a left side goes on with the chain of the left side, and is over the other sides. -/
theorem height_beside {h h' n n' k c : Nat} (hleft : h + k ≤ n * k + c) (hright : h' ≤ n' * k) :
    max h h' + 1 + k ≤ max n (n' + 1) * k + (c + 1) := by
  have hn := Nat.mul_le_mul_right k (Nat.le_max_left n (n' + 1))
  have hn' := Nat.mul_le_mul_right k (Nat.le_max_right n (n' + 1))
  rw [Nat.succ_mul] at hn'
  omega

mutual

/-- The chain at the top aside, a tree has so many chains under one another as it nests. -/
theorem Expr.height_add_le {k : Nat} : (e : Expr) → e.longestChain ≤ k →
    e.height + k ≤ e.nesting * k + e.chain
  | .number _ _, _ | .string _ _, _ | .boolean _ _, _ | .null _, _ | .blob _ _ _, _
  | .identifier _ _, _ | .relative _ _ _, _ => by
    simp [Expr.height, Expr.weight, Expr.nesting, Expr.chain, Nat.add_comm]
  | .array _ elements, h => height_over (Expr.heightAll_le elements (Nat.max_le.mp h).2)
  | .object _ members, h => height_over (Member.heightAll_le members (Nat.max_le.mp h).2)
  | .call _ callee args, h => by
    obtain ⟨-, hcallee, hargs⟩ := And.imp_right Nat.max_le.mp (Nat.max_le.mp h)
    exact height_beside (Expr.height_add_le callee hcallee) (Expr.heightAll_le args hargs)
  | .lambda _ _ body, h => height_over (Expr.height_le_mul body (Nat.max_le.mp h).2)
  | .binary _ _ left right, h => by
    obtain ⟨-, hleft, hright⟩ := And.imp_right Nat.max_le.mp (Nat.max_le.mp h)
    exact height_beside (Expr.height_add_le left hleft) (Expr.height_le_mul right hright)
  | .unary _ _ operand, h => height_over (Expr.height_le_mul operand (Nat.max_le.mp h).2)

/-- A tree has no more chains under one another than it nests. -/
theorem Expr.height_le_mul {k : Nat} (e : Expr) (h : e.longestChain ≤ k) :
    e.height ≤ e.nesting * k := by
  have habove := Expr.height_add_le e h
  have hchain := e.chain_le_longestChain
  omega

theorem Expr.heightAll_le {k : Nat} : (es : List Expr) → Expr.longestChainAll es ≤ k →
    Expr.weightAll max es ≤ Expr.nestingAll es * k
  | [], _ => Nat.zero_le _
  | e :: es, h => by
    obtain ⟨he, hes⟩ := Nat.max_le.mp h
    rw [Expr.weightAll, Expr.nestingAll, ← Nat.mul_max_mul_right]
    exact max_le_max (Expr.height_le_mul e he) (Expr.heightAll_le es hes)

theorem Member.heightAll_le {k : Nat} : (ms : List Member) → Member.longestChainAll ms ≤ k →
    Member.weightAll max ms ≤ Member.nestingAll ms * k
  | [], _ => Nat.zero_le _
  | .property _ value :: later, h | .spread value :: later, h => by
    obtain ⟨hvalue, hlater⟩ := Nat.max_le.mp h
    rw [Member.weightAll, Member.nestingAll, ← Nat.mul_max_mul_right]
    exact max_le_max (Expr.height_le_mul value hvalue) (Member.heightAll_le later hlater)

end

mutual

/-- Places do not weigh. -/
theorem Expr.height_bare : (e : Expr) → e.bare.height = e.height
  | .number _ _ | .string _ _ | .boolean _ _ | .null _ | .blob _ _ _ | .identifier _ _
  | .relative _ _ _ => rfl
  | .array _ elements => congrArg (· + 1) (Expr.heightAll_bareAll elements)
  | .object _ members => congrArg (· + 1) (Member.heightAll_bareAll members)
  | .call _ callee args =>
    congrArg₂ (max · · + 1) (Expr.height_bare callee) (Expr.heightAll_bareAll args)
  | .lambda _ _ body => congrArg (· + 1) (Expr.height_bare body)
  | .binary _ _ left right =>
    congrArg₂ (max · · + 1) (Expr.height_bare left) (Expr.height_bare right)
  | .unary _ _ operand => congrArg (· + 1) (Expr.height_bare operand)

theorem Expr.heightAll_bareAll : (es : List Expr) →
    Expr.weightAll max (Expr.bareAll es) = Expr.weightAll max es
  | [] => rfl
  | e :: es => congrArg₂ max (Expr.height_bare e) (Expr.heightAll_bareAll es)

theorem Member.heightAll_bareAll : (ms : List Member) →
    Member.weightAll max (Member.bareAll ms) = Member.weightAll max ms
  | [] => rfl
  | .property _ value :: ms | .spread value :: ms =>
    congrArg₂ max (Expr.height_bare value) (Member.heightAll_bareAll ms)

end

/-! ## What is read at each level -/

theorem Expr.nestingAll_le {m : Nat} {es : List Expr} (h : ∀ e ∈ es, e.nesting ≤ m) :
    Expr.nestingAll es ≤ m := by
  induction es with
  | nil => exact Nat.zero_le _
  | cons e es ih =>
    rw [List.forall_mem_cons] at h
    exact Nat.max_le.mpr ⟨h.1, ih h.2⟩

theorem Member.nestingAll_le {m : Nat} {ms : List Member}
    (h : ∀ member ∈ ms, member.expr.nesting ≤ m) :
    Member.nestingAll ms ≤ m := by
  induction ms with
  | nil => exact Nat.zero_le _
  | cons member ms ih =>
    rw [List.forall_mem_cons] at h
    cases member with
    | property | spread => exact Nat.max_le.mpr ⟨h.1, ih h.2⟩

theorem Grammar.nesting_word (t : Token) : (Grammar.word t).nesting = 1 := by
  unfold Grammar.word
  repeat' split
  all_goals rfl

/-- The trees of a level, over trees that nest so deep. The operators that bind so tightly are at
most six, each on the right side of the one before. -/
def Shape.nested (m : Nat) : Shape where
  chain e := e.nesting ≤ m + 1
  operand e := e.nesting ≤ m + 1
  climbing least e := e.nesting ≤ m + 1 + (6 - (least - 1))

theorem Shape.builds_nested {inner : Shape} {m : Nat} (hchain : ∀ e, inner.chain e → e.nesting ≤ m)
    (hoperand : ∀ e, inner.operand e → e.nesting ≤ m)
    (hclimbing : ∀ e, inner.climbing 0 e → e.nesting ≤ m) : inner.Builds (.nested m) where
  number _ _ := Nat.le_add_left 1 m
  string _ _ := Nat.le_add_left 1 m
  blob _ _ _ := Nat.le_add_left 1 m
  word t := by
    simp only [nested, Grammar.nesting_word]
    exact Nat.le_add_left 1 m
  relative _ _ _ := Nat.le_add_left 1 m
  group he := Nat.le_succ_of_le (hclimbing _ he)
  lambda _ _ he := Nat.succ_le_succ (hclimbing _ he)
  array _ hes := Nat.succ_le_succ (Expr.nestingAll_le fun e he => hclimbing e (hes e he))
  object _ hms := Nat.succ_le_succ (Member.nestingAll_le fun
    | .property _ value, hm => hclimbing value (hms _ hm)
    | .spread value, hm => hchain value (hms _ hm))
  call _ he hes := Nat.max_le.mpr
    ⟨he, Nat.succ_le_succ (Expr.nestingAll_le fun e he => hclimbing e (hes e he))⟩
  plain he := he
  unary _ _ he := Nat.succ_le_succ (hoperand _ he)
  single _ he := Nat.le_trans he (Nat.le_add_right _ _)
  binary {l r least} _ op hl hleast hr := by
    have hop := op.precedence_le
    simp only [nested] at hl hr ⊢
    rw [Expr.nesting]
    omega

theorem Shape.nested_tower : Shape.Tower fun n => .nested (7 * n) where
  bottom := builds_nested (fun _ h => h.elim) (fun _ h => h.elim) (fun _ h => h.elim)
  step n :=
    builds_nested (fun _ h => Nat.le_trans h (by omega)) (fun _ h => Nat.le_trans h (by omega))
    (fun _ h => h)

/-- A tree that is read nests no deeper than the limit allows, chains aside, and the height of the
tree is this many times the longest chain at most. -/
theorem nesting_is_limited {limit : Nat} {bytes : Bytes} {e : Expr}
    (h : parse limit bytes = .ok e) :
    e.nesting ≤ 7 * (limit + 1) ∧ e.height ≤ 7 * (limit + 1) * e.longestChain := by
  have hahead : Ahead (fun _ => True) fun _ => True :=
    ⟨fun _ _ => trivial, fun _ _ => trivial, fun _ _ _ => trivial, fun _ _ _ => trivial⟩
  obtain ⟨ts, -, h⟩ := exists_tokens_of_parse h
  have hends := hahead.ends_parseTokens Shape.nested_tower limit ts trivial
  rw [h] at hends
  have hnesting : e.nesting ≤ 7 * (limit + 1) := hends
  exact ⟨hnesting, Nat.le_trans (e.height_le_mul (Nat.le_refl _)) (Nat.mul_le_mul_right _ hnesting)⟩

/-- A right side inside of brackets, and a call of a call. -/
theorem nesting_is_limited_in_brackets :
    ∃ e, parse 1 (Utf8.encode "[a-b*c]+f()()") = .ok e ∧ e.height = 5 ∧
      e.nesting ≤ 7 * (1 + 1) ∧ e.height ≤ 7 * (1 + 1) * e.longestChain := by
  have h : parse 1 (Utf8.encode "[a-b*c]+f()()") =
      .ok (.binary ⟨0, 13⟩ .add
        (.array ⟨0, 7⟩ [.binary ⟨1, 6⟩ .sub (.identifier ⟨1, 2⟩ "a")
          (.binary ⟨3, 6⟩ .mul (.identifier ⟨3, 4⟩ "b") (.identifier ⟨5, 6⟩ "c"))])
        (.call ⟨8, 13⟩ (.call ⟨8, 11⟩ (.identifier ⟨8, 9⟩ "f") []) [])) := by decide +kernel
  exact ⟨_, h, rfl, nesting_is_limited h⟩

/-! ## Sums -/

/-- So many more summands. -/
def sumTokens : Nat → List Token
  | 0 => []
  | n + 1 => .symbol "+" :: .of .identifier "a" :: sumTokens n

/-- The sum of a tree and so many more summands. -/
def sumOver (left : Expr) : Nat → Expr
  | 0 => left
  | n + 1 => sumOver (.binary default .add left (.identifier default "a")) n

theorem height_sumOver (left : Expr) (n : Nat) : (sumOver left n).height = left.height + n := by
  induction n generalizing left with
  | zero => rfl
  | succ n ih =>
    have hpos : 0 < left.height := Expr.weight_pos max left
    have hsum : (Expr.binary default .add left (.identifier default "a")).height =
        max left.height 1 + 1 := rfl
    rw [sumOver, ih, hsum]
    omega

theorem isPrintable_sum (n : Nat) :
    ∀ t ∈ Token.of .identifier "a" :: sumTokens n, IsPrintable t := by
  have ha : IsPrintable (.of .identifier "a") := isPrintable_name (by decide)
  induction n with
  | zero => exact List.forall_mem_singleton.mpr ha
  | succ n ih =>
    exact List.forall_mem_cons.mpr
      ⟨ha, List.forall_mem_cons.mpr ⟨isPrintable_symbol (by decide), ih⟩⟩

namespace Grammar

/-- After a summand stands a plus or the end. -/
theorem peek_sumTokens (n : Nat) :
    (peek (sumTokens n ++ [.of .eof ""])).isSymbol "(" = false ∧
      ∀ op, binaryOp? (peek (sumTokens n ++ [.of .eof ""])) = some op → op.precedence < 6 := by
  cases n with
  | zero => exact ⟨rfl, fun op hop => nomatch hop⟩
  | succ n =>
    refine ⟨rfl, fun op hop => ?_⟩
    have hadd : some BinaryOp.add = some op := hop
    cases hadd
    decide

theorem reads_summand (inside : Inside) (n : Nat) :
    Reads (operand inside (.of .identifier "a" :: (sumTokens n ++ [.of .eof ""])))
      (.identifier default "a") (sumTokens n ++ [.of .eof ""]) :=
  reads_operand_chain rfl
    (reads_callChain ⟨Nat.lt_succ_self _, rfl⟩ (reads_calls_stop inside _ (peek_sumTokens n).1))

/-- The summands are added from the left to the right, none of them a level inside. -/
theorem reads_sum (inside : Inside) {left : Expr} (hleft : left.span = default) (n : Nat) :
    Reads (climbFrom (operand inside) 0 left (sumTokens n ++ [.of .eof ""])) (sumOver left n)
      [.of .eof ""] := by
  induction n generalizing left with
  | zero => exact reads_climbFrom_stop fun op hop => nomatch hop
  | succ n ih =>
    have hspan : left.span.through (Expr.identifier default "a").span = default := by
      rw [hleft]
      rfl
    have hmore : Reads (climbFrom (operand inside) 0
        (.binary (left.span.through (Expr.identifier default "a").span) .add left
          (.identifier default "a")) (sumTokens n ++ [.of .eof ""]))
        (sumOver left (n + 1)) [.of .eof ""] := by
      rw [hspan]
      exact ih rfl
    refine reads_climbFrom_step rfl (Nat.zero_le _) ?_ hmore
    exact reads_climb (reads_summand inside n) (reads_climbFrom_stop (peek_sumTokens n).2)

end Grammar

/-- Whatever the limit is, a sum is read, and it is as high as it is long. -/
theorem exists_parse_sum (limit n : Nat) :
    ∃ bytes e, parse limit bytes = .ok e ∧ e.height = n + 1 := by
  obtain ⟨found, hfound, hbare⟩ := tokenize_layout (layout_intercalate (isPrintable_sum n))
  have hread : parseTokens limit (.of .identifier "a" :: sumTokens n ++ [.of .eof ""]) =
      .ok (sumOver (.identifier default "a") n) := by
    obtain ⟨inside, hlevels, -⟩ := Grammar.exists_deep limit limit 0
    obtain ⟨_, hsum⟩ :=
      Grammar.reads_climb (Grammar.reads_summand inside n) (Grammar.reads_sum inside rfl n)
    have hexpression :
        (Grammar.ofInside inside).expression = Grammar.climb (Grammar.operand inside) 0 :=
      rfl
    simp [parseTokens, Grammar.upTo, hlevels, hexpression, hsum, bind, Except.bind, Grammar.peek]
  obtain ⟨e, he, hsame⟩ := exists_parseTokens_of_bare hread (by rw [hbare, List.map_append]; rfl)
  refine ⟨_, e, by rw [parse_of_tokenize hfound, he]; rfl, ?_⟩
  rw [← e.height_bare, hsame, Expr.height_bare, height_sumOver]
  exact Nat.add_comm _ _

/-- So no bound on the height follows from the limit alone. -/
theorem height_is_not_limited :
    ¬ ∀ limit, ∃ bound, ∀ bytes e, parse limit bytes = .ok e → e.height ≤ bound := by
  intro h
  obtain ⟨bound, hbound⟩ := h 0
  obtain ⟨bytes, e, hparse, hheight⟩ := exists_parse_sum 0 bound
  have := hbound bytes e hparse
  omega

end LazyConfig
