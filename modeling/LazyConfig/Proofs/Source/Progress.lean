-- Reading with a cursor comes to an end. How many steps it takes is bounded by the tokens ahead and
-- by the rule: each rule that passes over no token before it goes on to another one has a higher
-- rank than that one. As the last token is the end of the text, which is passed over by none, the
-- cursor stays before the end.
-- Main statement: every rule ends within its steps, moves the cursor if it succeeds, and reads what
-- the grammar of its depth reads from the tokens ahead.
import LazyConfig.Proofs.Source.LambdaHeads
import LazyConfig.Proofs.Source.Precedence

namespace LazyConfig

/-! ## Lists that end -/

/-- The last token is the end of the text. -/
def Ended (ts : List Token) : Prop := ∃ last ∈ ts.getLast?, last.kind = .eof

variable {t u : Token} {ts rest : List Token}

theorem Ended.ne_nil (h : Ended ts) : ts ≠ [] := by
  obtain ⟨last, hlast, -⟩ := h
  rintro rfl
  cases hlast

theorem Ended.ahead {s : Cursor} (h : Ended s.tokens) : Ended s.ahead := by
  have hpos := List.length_pos_iff.mpr h.ne_nil
  obtain ⟨last, hlast, hkind⟩ := h
  refine ⟨last, ?_, hkind⟩
  rw [Cursor.ahead, List.getLast?_drop, if_neg (by omega)]
  exact hlast

theorem Ended.eq_cons {s : Cursor} (h : Ended s.tokens) (hs : s.ahead = ts) :
    ∃ t rest, ts = t :: rest :=
  List.exists_cons_of_ne_nil (hs ▸ h.ahead.ne_nil)

/-- Behind a token that is not the end, there are others. -/
theorem Ended.exists_cons (h : Ended (t :: rest)) (ht : t.kind ≠ .eof) :
    ∃ u left, rest = u :: left := by
  obtain ⟨last, hlast, hkind⟩ := h
  cases rest with
  | nil =>
    rw [List.getLast?_singleton, Option.mem_some_iff] at hlast
    exact absurd (hlast ▸ hkind) ht
  | cons u left => exact ⟨u, left, rfl⟩

/-! ## Rules in terms of the level inside -/

namespace Grammar

variable {inside : Inside} {atom : Parser Expr}

/-- The grammar one level inside of a depth, or the fault that there is none. -/
def insideAt (limit depth : Nat) : Inside :=
  if depth < limit then fun _ => .ok (upTo limit (depth + 1)) else tooDeep limit depth

theorem upTo_eq_ofInside (limit depth : Nat) :
    upTo limit depth = ofInside (insideAt limit depth) := by
  unfold upTo insideAt
  cases h : limit - depth with
  | zero =>
    rw [if_neg (by omega)]
    rfl
  | succ n =>
    have hn : n = limit - (depth + 1) := by omega
    rw [if_pos (by omega), hn]
    rfl

/-- The arguments of a call, after the opening parenthesis, and the parenthesis that closes them. -/
def arguments (inner : Grammar) (ts : List Token) :
    Except Fault (Parsed (List Expr × Span) (ts.length + 1)) := do
  let args ← delimited ")" inner.expression ts
  let close ← symbol ")" args.rest
  .ok ⟨(args.value, close.value), close.rest, Nat.lt_trans close.shorter args.shorter⟩

theorem calls_of_open {callee : Expr} (h : t.isSymbol "(" = true ∧ callee.isCallable = true) :
    calls inside callee (t :: rest) = (do
      let a ← inside rest >>= fun inner => inner.arguments rest
      let b ← calls inside (.call (callee.span.through a.value.2) callee a.value.1) a.rest
      .ok ⟨b.value, b.rest, Nat.lt_trans b.shorter (Nat.succ_lt_succ a.shorter)⟩) := by
  rw [calls, if_pos h]
  cases inside rest with
  | error e => rfl
  | ok inner =>
    simp only [arguments, bind, Except.bind]
    cases delimited ")" inner.expression rest with
    | error e => rfl
    | ok a =>
      simp only
      cases symbol ")" a.rest with
      | error e => rfl
      | ok b =>
        simp only
        cases calls inside (.call (callee.span.through b.value) callee a.value) b.rest <;> rfl

theorem operand_of_op {op : UnaryOp} (hop : unaryOp? t = some op) :
    operand inside (t :: rest) = (do
      let a ← inside rest >>= fun inner => inner.unary rest
      .ok
        ⟨.unary (t.span.through a.value.span) op a.value, a.rest,
          Nat.lt_succ_of_lt a.shorter⟩) := by
  simp only [operand, hop]
  cases inside rest <;> rfl

theorem climb_eq_bind (least : Nat) (ts : List Token) :
    climb atom least ts = (do
      let a ← atom ts
      let b ← climbFrom atom least a.value a.rest
      .ok ⟨b.value, b.rest, Nat.lt_of_lt_of_le b.shorter a.shorter⟩) := by
  rw [climb]
  cases atom ts with
  | error e => rfl
  | ok a =>
    simp only [bind, Except.bind]
    cases climbFrom atom least a.value a.rest <;> rfl

theorem climbFrom_of_op {least : Nat} {left : Expr} {op : BinaryOp} (hop : binaryOp? t = some op)
    (hle : ¬op.precedence < least) :
    climbFrom atom least left (t :: rest) = (do
      let a ← climb atom (op.precedence + 1) rest
      let b ← climbFrom atom least (.binary (left.span.through a.value.span) op left a.value) a.rest
      .ok ⟨b.value, b.rest,
        Nat.lt_trans b.shorter (Nat.succ_lt_succ (Nat.lt_succ_of_lt a.shorter))⟩) := by
  rw [climbFrom]
  simp only [hop, if_neg hle]
  cases climb atom (op.precedence + 1) rest with
  | error e => rfl
  | ok a =>
    simp only [bind, Except.bind]
    cases climbFrom atom least
      (.binary (left.span.through a.value.span) op left a.value) a.rest <;> rfl

theorem delimited_of_item {α : Type} {close : String} {item : Parser α}
    (h : ¬(peek ts).isSymbol close = true) :
    delimited close item ts = item ts >>= fun a =>
      match a with
      | ⟨first, [], _⟩ => .ok ⟨[first], [], Nat.succ_pos _⟩
      | ⟨first, t :: rest, shorter⟩ =>
        if t.isSymbol "," then
          delimited close item rest >>= fun b =>
            .ok ⟨first :: b.value,
              b.rest, by have := b.shorter; simp only [List.length_cons] at shorter; omega⟩
        else .ok ⟨[first], t :: rest, Nat.lt_succ_of_lt shorter⟩ := by
  rw [delimited, if_neg h]
  rcases item ts with e | ⟨first, _ | ⟨t, rest⟩, shorter⟩
  · rfl
  · rfl
  · simp only [bind, Except.bind]
    split
    · cases delimited close item rest <;> rfl
    · rfl

end Grammar

namespace Walk

/-! ## A cursor and a list of tokens -/

/-- From a cursor, there is the same fault, or the cursor has moved to the tokens that are left. It
is then before the end, if it was so before. -/
inductive Agrees {α : Type} {m : Nat} (s : Cursor) :
    Option (Except Fault α × Cursor) → Except Fault (Parsed α m) → Prop
  | fault (e : Fault) (s' : Cursor) : Agrees s (some (.error e, s')) (.error e)
  | done (a : Parsed α m) (place : Nat) (hahead : (s.moved place).ahead = a.rest)
      (hin : s.place < s.tokens.length → place < s.tokens.length) :
      Agrees s (some (.ok a.value, s.moved place)) (.ok a)

/-- From where a cursor may move with no more than so many tokens ahead, it reads what the parser
reads. -/
def Reads {α : Type} (s : Cursor) (most : Nat) (item : Walk α) (parser : Parser α) : Prop :=
  ∀ place ts, (s.moved place).ahead = ts → ts.length ≤ most →
    Agrees (s.moved place) (item (s.moved place)) (parser ts)

section

variable {α β : Type} {m k : Nat} {s : Cursor} {o : Option (Except Fault α × Cursor)}
  {x : Walk α} {y : Except Fault (Parsed α m)}

theorem Agrees.of_moved {place : Nat} (h : Agrees (s.moved place) o y)
    (hin : s.place < s.tokens.length → place < s.tokens.length) : Agrees s o y := by
  cases h with
  | fault e s' => exact .fault e s'
  | done a place' hahead hin' => exact .done a place' hahead fun hlt => hin' (hin hlt)

/-- The cursor stays where it is. -/
theorem Agrees.stay {a : α} (hs : s.ahead = ts) (hlt : ts.length < m) :
    Agrees s ((pure a : Walk α) s) (.ok (⟨a, ts, hlt⟩ : Parsed α m)) :=
  .done ⟨a, ts, hlt⟩ s.place hs id

theorem Agrees.bind {f : α → Walk β} {g : Parsed α m → Except Fault (Parsed β k)}
    (h : Agrees s (x s) y) (hfg : ∀ a place, (s.moved place).ahead = a.rest →
      Agrees (s.moved place) (f a.value (s.moved place)) (g a)) :
    Agrees s ((x >>= f) s) (y >>= g) := by
  rw [Walk.run_bind]
  generalize x s = o at h
  cases h with
  | fault e s' => exact .fault e s'
  | done a place hahead hin => exact (hfg a place hahead).of_moved hin

/-- Nothing more is read, and the bound on the tokens left is another one. -/
theorem Agrees.rebound {g : Parsed α m → Except Fault (Parsed α k)} (h : Agrees s o y)
    (hg : ∀ a, ∃ hlt, g a = .ok ⟨a.value, a.rest, hlt⟩) : Agrees s o (y >>= g) := by
  cases h with
  | fault e s' => exact .fault e s'
  | done a place hahead hin =>
    obtain ⟨hlt, hg⟩ := hg a
    change Agrees s _ (g a)
    rw [hg]
    exact .done ⟨a.value, a.rest, hlt⟩ place hahead hin

theorem Agrees.contents {f : String → Walk β} {g : String → Except Fault (Parsed β k)}
    (h : ∀ text, Agrees s (f text s) (g text)) :
    Agrees s ((Walk.contents t >>= f) s) (Grammar.contents t >>= g) := by
  rw [Walk.run_bind]
  unfold Walk.contents
  cases Grammar.contents t with
  | error e => exact .fault e s
  | ok text => exact h text

/-- Reading goes on one level inside, if there is one, and comes back to the level. -/
theorem Agrees.nested {g : Grammar → Except Fault (Parsed α m)} (hs : s.ahead = ts)
    (h : Agrees s.down (x s.down) (g (Grammar.upTo s.limit (s.depth + 1)))) :
    Agrees s (Walk.nested x s) (Grammar.insideAt s.limit s.depth ts >>= g) := by
  subst hs
  unfold Grammar.insideAt
  by_cases hlt : s.depth < s.limit
  · rw [if_pos hlt, Walk.nested, Walk.bind_of_ok (Walk.descend_of_lt hlt), Walk.run_bind]
    change Agrees s _ (g (Grammar.upTo s.limit (s.depth + 1)))
    generalize x s.down = o, g (Grammar.upTo s.limit (s.depth + 1)) = y at h
    cases h with
    | fault e s' => exact .fault e s'
    | done a place hahead hin => exact .done a place hahead hin
  · rw [if_neg hlt, Walk.nested, Walk.bind_of_error (Walk.descend_of_not_lt hlt)]
    exact .fault _ _

/-- The cursor passes over a token, which is not the last one. -/
theorem Agrees.of_step (hended : Ended s.tokens) (hs : s.ahead = t :: rest) (ht : t.kind ≠ .eof)
    (h : s.step.ahead = rest → Agrees s.step o y) : Agrees s o y := by
  obtain ⟨u, left, rfl⟩ := (hs ▸ hended.ahead).exists_cons ht
  exact (h (Cursor.ahead_step hs)).of_moved (Cursor.place_lt [t] hs)

theorem Agrees.bump {f : Token → Walk α} (hended : Ended s.tokens) (hs : s.ahead = t :: rest)
    (ht : t.kind ≠ .eof) (h : s.step.ahead = rest → Agrees s.step (f t s.step) y) :
    Agrees s ((Walk.bump >>= f) s) y := by
  rw [Walk.bind_of_ok (Walk.bump_of_ahead hs ht)]
  exact .of_step hended hs ht h

/-- Passes over a token and gives what it is. -/
theorem Agrees.token {a : α} (hended : Ended s.tokens) (hs : s.ahead = t :: rest)
    (ht : t.kind ≠ .eof) (hlt : rest.length < m) :
    Agrees s ((do let _ ← Walk.bump; return a : Walk α) s) (.ok (⟨a, rest, hlt⟩ : Parsed α m)) :=
  .bump hended hs ht fun hrest => .stay hrest hlt

theorem Agrees.refuse {expected : Expected} (hs : s.ahead = t :: rest) :
    Agrees s (Walk.refuse (α := α) expected s)
      (.error (Grammar.unexpected expected (t :: rest)) : Except Fault (Parsed α m)) := by
  rw [Walk.refuse_of_ahead hs]
  exact .fault _ _

theorem Agrees.symbol (hended : Ended s.tokens) (hs : s.ahead = ts) (symbol : String) :
    Agrees s (Walk.expect symbol s) (Grammar.symbol symbol ts) := by
  obtain ⟨t, rest, rfl⟩ := hended.eq_cons hs
  by_cases ht : t.isSymbol symbol = true
  · rw [Walk.expect_of_isSymbol hs ht, Grammar.symbol, if_pos ht]
    exact .of_step hended hs (Token.ne_eof_of_isSymbol ht) fun hrest => .stay hrest _
  · rw [Walk.expect_of_not_isSymbol hs ht, Grammar.symbol, if_neg ht]
    exact .fault _ _

/-! ## Lists and brackets -/

theorem Reads.mono {item : Walk α} {parser : Parser α} {most most' : Nat}
    (h : Reads s most item parser) (hle : most' ≤ most) : Reads s most' item parser :=
  fun place ts hs hlt => h place ts hs (Nat.le_trans hlt hle)

/-- Each item passes over a token, so that there are steps left for the others. -/
theorem Agrees.delimited {close : String} {item : Walk α} {parser : Parser α} {n : Nat}
    (hended : Ended s.tokens) (hs : s.ahead = ts) (hn : ts.length ≤ n)
    (hitem : Reads s ts.length item parser) :
    Agrees s (Walk.delimited close item n s) (Grammar.delimited close parser ts) := by
  induction n generalizing s ts with
  | zero => exact absurd (List.length_eq_zero_iff.mp (Nat.le_zero.mp hn)) (hs ▸ hended.ahead.ne_nil)
  | succ n ih =>
  obtain ⟨t, rest, rfl⟩ := hended.eq_cons hs
  rw [Walk.delimited, Walk.bind_of_ok (Walk.current_of_ahead hs)]
  by_cases hclose : t.isSymbol close = true
  · have hpeek : (Grammar.peek (t :: rest)).isSymbol close = true := hclose
    rw [if_pos hclose, Grammar.delimited, if_pos hpeek]
    exact .stay hs _
  have hpeek : ¬(Grammar.peek (t :: rest)).isSymbol close = true := hclose
  rw [if_neg hclose, Grammar.delimited_of_item hpeek]
  refine (hitem s.place _ hs (Nat.le_refl _)).bind fun a place hahead => ?_
  obtain ⟨first, left, shorter⟩ := a
  have hended' : Ended (s.moved place).tokens := hended
  obtain ⟨u, left, rfl⟩ := hended'.eq_cons hahead
  by_cases hcomma : u.isSymbol "," = true
  · rw [Walk.bind_of_ok (Walk.eat_of_isSymbol hahead hcomma)]
    refine .of_step hended' hahead (Token.ne_eof_of_isSymbol hcomma) fun hrest => ?_
    simp only [if_pos hcomma]
    have hshorter : left.length < (t :: rest).length := Nat.lt_of_succ_lt shorter
    have hitem' : Reads (s.moved place).step left.length item parser :=
      hitem.mono (Nat.le_of_lt hshorter)
    have hmore := ih (s := (s.moved place).step) hended hrest (by omega) hitem'
    exact hmore.bind fun b place' hleft => .stay hleft _
  · rw [Walk.bind_of_ok (Walk.eat_of_not_isSymbol hahead hcomma)]
    simp only [if_neg hcomma]
    exact .stay hahead _

end

section

variable {s : Cursor} {inner : Grammar} {expression : Walk Expr} {n : Nat} (hended : Ended s.tokens)

include hended

theorem Agrees.arguments (hs : s.ahead = ts) (hn : ts.length ≤ n)
    (hexpression : Reads s ts.length expression inner.expression) :
    Agrees s (Walk.arguments expression n s) (inner.arguments ts) := by
  refine (Agrees.delimited hended hs hn hexpression).bind fun a place hahead => ?_
  exact (Agrees.symbol (s := s.moved place) hended hahead ")").bind fun b _ hleft => .stay hleft _

theorem Agrees.property (key : String) (hs : s.ahead = t :: rest) (ht : t.kind ≠ .eof)
    (hexpression : Reads s rest.length expression inner.expression) :
    Agrees s (Walk.property expression key s) (inner.property key rest) := by
  refine .bump hended hs ht fun hrest => ?_
  refine (Agrees.symbol (s := s.step) hended hrest ":").bind fun a place hahead => ?_
  exact (hexpression place _ hahead (Nat.le_of_lt a.shorter)).bind fun b _ hleft => .stay hleft _

variable (hs : s.ahead = t :: rest)

include hs

theorem Agrees.relative (ht : t.kind ≠ .eof) :
    Agrees s (Walk.relative s) (Grammar.relative t rest) := by
  refine .bump hended hs ht fun hrest => ?_
  obtain ⟨u, left, rfl⟩ := (hs ▸ hended.ahead).exists_cons ht
  rw [Walk.bind_of_ok (Walk.current_of_ahead hrest)]
  by_cases hkind : u.kind = .identifier
  · rw [if_pos hkind, Grammar.relative, if_pos hkind]
    exact .token (s := s.step) hended hrest (by simp [hkind]) _
  · rw [if_neg hkind, Grammar.relative, if_neg hkind]
    exact .refuse hrest

theorem Agrees.array (ht : t.kind ≠ .eof) (hn : rest.length ≤ n)
    (hexpression : Reads s rest.length expression inner.expression) :
    Agrees s (Walk.array expression n s) (inner.array t rest) := by
  refine .bump hended hs ht fun hrest => ?_
  refine (Agrees.delimited (s := s.step) hended hrest hn hexpression).bind fun a place hahead => ?_
  exact (Agrees.symbol (s := s.moved place) hended hahead "]").bind fun b _ hleft => .stay hleft _

theorem Agrees.object {member : Walk Member} (ht : t.kind ≠ .eof) (hn : rest.length ≤ n)
    (hmember : Reads s rest.length member inner.member) :
    Agrees s (Walk.object member n s) (inner.object t rest) := by
  refine .bump hended hs ht fun hrest => ?_
  refine (Agrees.delimited (s := s.step) hended hrest hn hmember).bind fun a place hahead => ?_
  exact (Agrees.symbol (s := s.moved place) hended hahead "\x7d").bind
    fun b _ hleft => .stay hleft _

theorem Agrees.group (ht : t.isSymbol "(" = true) (hn : rest.length < n)
    (hexpression : Reads s rest.length expression inner.expression) :
    Agrees s (Walk.group expression n s) (inner.group t rest) := by
  obtain ⟨place, hrun, hplace⟩ := Walk.lambdaHead_run hs ht hn
  unfold Grammar.group
  split
  · next params after hhead =>
    rw [hhead] at hrun
    rw [Walk.group_of_some hs hrun]
    obtain ⟨paren, params, close, arrow, heq, -, -, -, harrow⟩ :=
      (Grammar.lambdaHead_eq_some_iff ht).mp hhead
    have hshorter := Grammar.lambdaHead_shorter hhead
    have hbefore : s.ahead = (paren :: params ++ [close]) ++ arrow :: after := by simp [hs, heq]
    have hend : place = s.place + (paren :: params ++ [close]).length + 1 := by
      rw [hplace _ _ hhead, heq]
      simp only [List.length_append, List.length_cons, List.length_nil]
      omega
    rw [hend]
    refine .of_moved ?_ (Cursor.place_lt _ hbefore)
    refine .of_step (s := s.moved _) hended (Cursor.ahead_moved _ hbefore)
      (Token.ne_eof_of_isSymbol harrow) fun hafter => ?_
    exact (hexpression _ _ hafter (Nat.le_of_lt hshorter)).bind fun a _ hleft => .stay hleft _
  · next hhead =>
    rw [hhead] at hrun
    rw [Walk.group_of_none hs hrun]
    refine .bump hended hs (Token.ne_eof_of_isSymbol ht) fun hrest => ?_
    refine (hexpression (s.place + 1) _ hrest (Nat.le_refl _)).bind fun a place hahead => ?_
    exact (Agrees.symbol (s := s.moved place) hended hahead ")").bind fun b _ hleft => .stay hleft _

end

/-! ## All rules at once -/

/-- With so many steps, each rule reads from every cursor what the grammar of its depth reads. Four
steps suffice for a token, and one for each rule that goes on to another one at the same token. -/
structure Follows (n : Nat) : Prop where
  expression {s : Cursor} {ts : List Token} (least : Nat) : Ended s.tokens → s.ahead = ts →
    4 * ts.length + 3 ≤ n → Agrees s (Walk.expression n least s)
      (Grammar.climb (Grammar.upTo s.limit s.depth).unary least ts)
  operators {s : Cursor} {ts : List Token} (least : Nat) (left : Expr) : Ended s.tokens →
    s.ahead = ts →
    4 * ts.length ≤ n → Agrees s (Walk.operators n least left s)
      (Grammar.climbFrom (Grammar.upTo s.limit s.depth).unary least left ts)
  unary {s : Cursor} {ts : List Token} : Ended s.tokens → s.ahead = ts →
    4 * ts.length + 2 ≤ n → Agrees s (Walk.unary n s) ((Grammar.upTo s.limit s.depth).unary ts)
  chain {s : Cursor} {ts : List Token} : Ended s.tokens → s.ahead = ts →
    4 * ts.length + 1 ≤ n → Agrees s (Walk.chain n s) ((Grammar.upTo s.limit s.depth).chain ts)
  calls {s : Cursor} {ts : List Token} (callee : Expr) : Ended s.tokens → s.ahead = ts →
    4 * ts.length ≤ n → Agrees s (Walk.calls n callee s)
      (Grammar.calls (Grammar.insideAt s.limit s.depth) callee ts)
  primary {s : Cursor} {ts : List Token} : Ended s.tokens → s.ahead = ts →
    4 * ts.length ≤ n → Agrees s (Walk.primary n s)
      (Grammar.primary (Grammar.insideAt s.limit s.depth) ts)
  member {s : Cursor} {ts : List Token} : Ended s.tokens → s.ahead = ts →
    4 * ts.length + 2 ≤ n → Agrees s (Walk.member n s) ((Grammar.upTo s.limit s.depth).member ts)

namespace Follows

variable {n : Nat} {s : Cursor}

/-- Without steps, there would be no token ahead. -/
theorem zero : Follows 0 := by
  have hne :
      ∀ {s : Cursor} {ts : List Token}, Ended s.tokens → s.ahead = ts → ¬4 * ts.length ≤ 0 := by
    intro s ts hended hs hn
    refine hended.ahead.ne_nil (List.length_eq_zero_iff.mp ?_)
    rw [hs]
    omega
  constructor
  all_goals intros
  all_goals exact absurd (by omega) (hne ‹_› ‹_›)

variable (ih : Follows n)

include ih

/-- Inside of a depth, whole expressions are read. -/
theorem reads_expression (most : Nat) (hended : Ended s.tokens) (hn : 4 * most + 3 ≤ n) :
    Reads s most (Walk.expression n 0) (Grammar.upTo s.limit s.depth).expression := by
  intro place ts hs hlt
  rw [Grammar.expression_upTo]
  exact ih.expression (s := s.moved place) 0 hended hs (by omega)

theorem reads_member (most : Nat) (hended : Ended s.tokens) (hn : 4 * most + 2 ≤ n) :
    Reads s most (Walk.member n) (Grammar.upTo s.limit s.depth).member :=
  fun place _ hs hlt => ih.member (s := s.moved place) hended hs (by omega)

variable (hended : Ended s.tokens) (hs : s.ahead = t :: rest)

include hended hs

theorem succ_expression (least : Nat) (hn : 4 * (t :: rest).length + 3 ≤ n + 1) :
    Agrees s (Walk.expression (n + 1) least s)
      (Grammar.climb (Grammar.upTo s.limit s.depth).unary least (t :: rest)) := by
  rw [Walk.expression, Grammar.climb_eq_bind]
  refine (ih.unary hended hs (by omega)).bind fun a place hahead => ?_
  have hlt := a.shorter
  exact (ih.operators (s := s.moved place) least a.value hended hahead (by omega)).rebound
    fun _ => ⟨_, rfl⟩

theorem succ_operators (least : Nat) (left : Expr) (hn : 4 * (t :: rest).length ≤ n + 1) :
    Agrees s (Walk.operators (n + 1) least left s)
      (Grammar.climbFrom (Grammar.upTo s.limit s.depth).unary least left (t :: rest)) := by
  rw [Walk.operators, Walk.bind_of_ok (Walk.current_of_ahead hs)]
  cases hop : Grammar.binaryOp? t with
  | none =>
    rw [Grammar.climbFrom]
    simp only [hop]
    exact .stay hs _
  | some op =>
    dsimp only
    by_cases hlt : op.precedence < least
    · rw [if_pos hlt, Grammar.climbFrom]
      simp only [hop, if_pos hlt]
      exact .stay hs _
    · have ht : t.kind ≠ .eof := by
        intro hkind
        simp [Grammar.binaryOp?, hkind] at hop
      simp only [List.length_cons] at hn
      rw [if_neg hlt, Grammar.climbFrom_of_op hop hlt]
      refine .bump hended hs ht fun hrest => ?_
      refine (ih.expression (s := s.step) _ hended hrest (by omega)).bind fun a place hahead => ?_
      have hshorter := a.shorter
      exact (ih.operators (s := s.moved place) least _ hended hahead (by omega)).rebound
        fun _ => ⟨_, rfl⟩

theorem succ_unary (hn : 4 * (t :: rest).length + 2 ≤ n + 1) :
    Agrees s (Walk.unary (n + 1) s) ((Grammar.upTo s.limit s.depth).unary (t :: rest)) := by
  have hchain := ih.chain hended hs (by omega)
  rw [Walk.unary, Walk.bind_of_ok (Walk.current_of_ahead hs)]
  rw [Grammar.upTo_eq_ofInside] at hchain ⊢
  change Agrees s _ (Grammar.operand (Grammar.insideAt s.limit s.depth) (t :: rest))
  cases hop : Grammar.unaryOp? t with
  | none =>
    simp only [Grammar.operand, hop]
    exact hchain
  | some op =>
    have ht : t.kind ≠ .eof := by
      intro hkind
      simp [Grammar.unaryOp?, hkind] at hop
    simp only [List.length_cons] at hn
    rw [Grammar.operand_of_op hop]
    refine .bump hended hs ht fun hrest => ?_
    have hvalue : Agrees s.step (Walk.nested (Walk.unary n) s.step)
        (Grammar.insideAt s.limit s.depth rest >>= fun inner => inner.unary rest) :=
      .nested hrest (ih.unary (s := s.step.down) hended hrest (by omega))
    exact hvalue.bind fun a _ hleft => .stay hleft _

theorem succ_chain (hn : 4 * (t :: rest).length + 1 ≤ n + 1) :
    Agrees s (Walk.chain (n + 1) s) ((Grammar.upTo s.limit s.depth).chain (t :: rest)) := by
  rw [Walk.chain, Grammar.upTo_eq_ofInside]
  change Agrees s _ (Grammar.callChain (Grammar.insideAt s.limit s.depth) (t :: rest))
  unfold Grammar.callChain
  refine (ih.primary hended hs (by omega)).bind fun a place hahead => ?_
  have hlt := a.shorter
  exact (ih.calls (s := s.moved place) a.value hended hahead (by omega)).rebound fun _ => ⟨_, rfl⟩

theorem succ_calls (callee : Expr) (hn : 4 * (t :: rest).length ≤ n + 1) :
    Agrees s (Walk.calls (n + 1) callee s)
      (Grammar.calls (Grammar.insideAt s.limit s.depth) callee (t :: rest)) := by
  rw [Walk.calls, Walk.bind_of_ok (Walk.current_of_ahead hs)]
  by_cases hopen : t.isSymbol "(" = true ∧ callee.isCallable = true
  · simp only [List.length_cons] at hn
    rw [if_pos hopen, Grammar.calls_of_open hopen]
    refine .bump hended hs (Token.ne_eof_of_isSymbol hopen.1) fun hrest => ?_
    have hinside := ih.reads_expression (s := s.step.down) rest.length hended (by omega)
    have harguments : Agrees s.step (Walk.nested (Walk.arguments (Walk.expression n 0) n) s.step)
        (Grammar.insideAt s.limit s.depth rest >>= fun inner => inner.arguments rest) :=
      .nested hrest (Agrees.arguments (s := s.step.down) hended hrest (by omega) hinside)
    refine harguments.bind fun a place hahead => ?_
    have hlt := a.shorter
    exact (ih.calls (s := s.moved place) _ hended hahead (by omega)).rebound fun _ => ⟨_, rfl⟩
  · rw [if_neg hopen, Grammar.calls, if_neg hopen]
    exact .stay hs _

theorem succ_primary (hn : 4 * (t :: rest).length ≤ n + 1) :
    Agrees s (Walk.primary (n + 1) s)
      (Grammar.primary (Grammar.insideAt s.limit s.depth) (t :: rest)) := by
  simp only [List.length_cons] at hn
  have hinside := ih.reads_expression (s := s.down) rest.length hended (by omega)
  rw [Walk.primary, Walk.bind_of_ok (Walk.current_of_ahead hs)]
  simp only [Grammar.primary]
  cases hkind : t.kind with
  | number => exact .token hended hs (by simp [hkind]) _
  | string => exact .contents fun text => .token hended hs (by simp [hkind]) _
  | template => exact .contents fun text => .token hended hs (by simp [hkind]) _
  | blob form => exact .token hended hs (by simp [hkind]) _
  | identifier => exact .token hended hs (by simp [hkind]) _
  | dots => exact .relative hended hs (by simp [hkind])
  | punct =>
    have ht : t.kind ≠ .eof := by simp [hkind]
    dsimp only
    split
    · next htext =>
      exact .nested hs
        (.group (s := s.down) hended hs (by simp [Token.isSymbol, hkind, htext]) (by omega) hinside)
    split
    · exact .nested hs (.array (s := s.down) hended hs ht (by omega) hinside)
    split
    · exact .nested hs (.object (s := s.down) hended hs ht (by omega)
        (ih.reads_member (s := s.down) rest.length hended (by omega)))
    · exact .refuse hs
  | eof => exact .refuse hs

theorem succ_member (hn : 4 * (t :: rest).length + 2 ≤ n + 1) :
    Agrees s (Walk.member (n + 1) s) ((Grammar.upTo s.limit s.depth).member (t :: rest)) := by
  have hchain : 4 * (t :: rest).length + 1 ≤ n := by omega
  simp only [List.length_cons] at hn
  have hinside := ih.reads_expression rest.length hended (by omega)
  rw [Walk.member, Walk.bind_of_ok (Walk.current_of_ahead hs)]
  simp only [Grammar.member]
  cases hkind : t.kind with
  | identifier =>
    have ht : t.kind ≠ .eof := by simp [hkind]
    obtain ⟨u, left, rfl⟩ := (hs ▸ hended.ahead).exists_cons ht
    dsimp only
    rw [Walk.bind_of_ok (Walk.following_run s), Cursor.ahead_step hs]
    split
    · exact (ih.chain hended hs hchain).bind fun a _ hleft => .stay hleft _
    · exact .property hended _ hs ht hinside
  | string => exact .contents fun key => .property hended key hs (by simp [hkind]) hinside
  | template => exact .contents fun key => .property hended key hs (by simp [hkind]) hinside
  | number | blob form | dots | punct | eof => exact .refuse hs

omit hended hs

/-- A rule that follows the grammar with so many steps does so with one more. -/
theorem succ : Follows (n + 1) where
  expression least hended hs hn := by
    obtain ⟨t, rest, rfl⟩ := hended.eq_cons hs
    exact ih.succ_expression hended hs least hn
  operators least left hended hs hn := by
    obtain ⟨t, rest, rfl⟩ := hended.eq_cons hs
    exact ih.succ_operators hended hs least left hn
  unary hended hs hn := by
    obtain ⟨t, rest, rfl⟩ := hended.eq_cons hs
    exact ih.succ_unary hended hs hn
  chain hended hs hn := by
    obtain ⟨t, rest, rfl⟩ := hended.eq_cons hs
    exact ih.succ_chain hended hs hn
  calls callee hended hs hn := by
    obtain ⟨t, rest, rfl⟩ := hended.eq_cons hs
    exact ih.succ_calls hended hs callee hn
  primary hended hs hn := by
    obtain ⟨t, rest, rfl⟩ := hended.eq_cons hs
    exact ih.succ_primary hended hs hn
  member hended hs hn := by
    obtain ⟨t, rest, rfl⟩ := hended.eq_cons hs
    exact ih.succ_member hended hs hn

omit ih

theorem all (n : Nat) : Follows n := by
  induction n with
  | zero => exact zero
  | succ n ih => exact ih.succ

end Follows

end Walk

/-! ## Progress -/

/-- The rules from which reading may start. -/
inductive Production where
  | expression (least : Nat)
  | unary
  | chain
  | primary
  | member

namespace Production

/-- What a rule reads. -/
def Result : Production → Type
  | member => Member
  | _ => Expr

def walk : (p : Production) → (steps : Nat) → Walk p.Result
  | expression least, n => Walk.expression n least
  | unary, n => Walk.unary n
  | chain, n => Walk.chain n
  | primary, n => Walk.primary n
  | member, n => Walk.member n

/-- The same rule in the grammar of a depth. -/
def parser (limit depth : Nat) : (p : Production) → Parser p.Result
  | expression least => Grammar.climb (Grammar.upTo limit depth).unary least
  | unary => (Grammar.upTo limit depth).unary
  | chain => (Grammar.upTo limit depth).chain
  | primary => Grammar.primary (Grammar.insideAt limit depth)
  | member => (Grammar.upTo limit depth).member

/-- How many rules may be passed through before a token is passed over. -/
def rank : Production → Nat
  | expression _ => 3
  | unary => 2
  | chain => 1
  | primary => 0
  | member => 2

/-- How many steps suffice for so many tokens. -/
def steps (p : Production) (remaining : Nat) : Nat := 4 * remaining + p.rank

theorem agrees {s : Cursor} (hended : Ended s.tokens) (p : Production) {n : Nat}
    (hn : p.steps s.ahead.length ≤ n) :
    Walk.Agrees s (p.walk n s) (p.parser s.limit s.depth s.ahead) := by
  have h := Walk.Follows.all n
  cases p with
  | expression least => exact h.expression least hended rfl hn
  | unary => exact h.unary hended rfl hn
  | chain => exact h.chain hended rfl hn
  | primary => exact h.primary hended rfl hn
  | member => exact h.member hended rfl hn

end Production

/-- If the last token is the end of the text, each rule comes to an outcome from every cursor and
depth, as soon as the steps suffice for the rule and the tokens ahead. If it succeeds, the cursor
has moved, but not past the end, and as many levels are open as before. The outcome and the tokens
ahead of it are what the grammar of the depth gives for the tokens ahead. -/
theorem reading_makes_progress {s : Cursor} (hended : Ended s.tokens) (p : Production) {n : Nat}
    (hn : p.steps s.ahead.length ≤ n) :
    ∃ outcome s', p.walk n s = some (outcome, s') ∧
      (∀ value, outcome = .ok value →
        s.place < s'.place ∧ s'.place < s.tokens.length ∧ s'.depth = s.depth ∧
        s'.tokens = s.tokens) ∧
      outcome.map (fun value => (value, s'.ahead)) =
        Grammar.outcome (p.parser s.limit s.depth s.ahead) := by
  have h := p.agrees hended hn
  generalize p.walk n s = o, p.parser s.limit s.depth s.ahead = y at h
  cases h with
  | fault e s' => exact ⟨.error e, s', rfl, nofun, rfl⟩
  | done a place hahead hin =>
    refine ⟨.ok a.value, s.moved place, rfl, fun value _ => ?_, ?_⟩
    · -- Fewer tokens are ahead, so that the cursor was before the end.
      have hshorter : (s.moved place).ahead.length < s.ahead.length := hahead ▸ a.shorter
      have hmoved :
          (s.moved place).ahead.length = s.tokens.length - min place (s.tokens.length - 1) :=
        Cursor.length_ahead _
      rw [hmoved, Cursor.length_ahead] at hshorter
      exact ⟨show s.place < place by omega, hin (by omega), rfl, rfl⟩
    · change Except.ok (a.value, (s.moved place).ahead) = Except.ok (a.value, a.rest)
      rw [hahead]

/-- A parenthesis that is not closed, with the end as the third token and three levels open. -/
theorem reading_makes_progress_unclosed :
    let s : Cursor := ⟨[⟨.punct, ⟨0, 1⟩, "("⟩, ⟨.identifier, ⟨1, 2⟩, "a"⟩, .endAt 2], 8, 0, 3⟩
    Ended s.tokens ∧ (Production.expression 0).steps s.ahead.length = 15 ∧
      ∃ outcome s', Walk.expression 15 0 s = some (outcome, s') ∧
        (∀ value, outcome = .ok value →
          0 < s'.place ∧ s'.place < 3 ∧ s'.depth = 3 ∧ s'.tokens = s.tokens) ∧
        outcome.map (fun value => (value, s'.ahead)) =
          Grammar.outcome (Grammar.climb (Grammar.upTo 8 3).unary 0 s.ahead) := by
  intro s
  have hended : Ended s.tokens := ⟨.endAt 2, rfl, rfl⟩
  exact ⟨hended, rfl, reading_makes_progress hended (.expression 0) (Nat.le_refl 15)⟩

example : Walk.expression 15 0
    ⟨[⟨.punct, ⟨0, 1⟩, "("⟩, ⟨.identifier, ⟨1, 2⟩, "a"⟩, .endAt 2], 8, 0, 3⟩ =
    some (.error ⟨.unexpectedToken (.symbol ")") none, .point 2⟩,
      ⟨[⟨.punct, ⟨0, 1⟩, "("⟩, ⟨.identifier, ⟨1, 2⟩, "a"⟩, .endAt 2], 8, 2, 4⟩) := by
  rfl

end LazyConfig
